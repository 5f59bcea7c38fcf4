import Mathlib.Algebra.Ring.Int.Defs
import Mathlib.Data.Int.Init
import Mathlib.Tactic.Common

/-!
# Left-to-right reductions of intervals

* `reduce op x i j` — `x i`, then `x (i + 1)`, up to `x (j - 1)`, combined from the left; for
  `i < j`.
* **`reduce_append`** — adjacent intervals combine if `op` is associative.

Nothing here is about a particular program.
-/

namespace Libfork.Found

variable {V : Type*} (op : V → V → V) (x : ℤ → V)

/-- `x i` combined with the next `k` values. -/
def reduceNext (i : ℤ) : ℕ → V
  | 0 => x i
  | k + 1 => op (reduceNext i k) (x (i + k + 1))

/-- The reduction of the interval `[i, j)`. -/
def reduce (i j : ℤ) : V := reduceNext op x i (j - i - 1).toNat

/-- The fold of one element. -/
theorem reduce_one (i : ℤ) : reduce op x i (i + 1) = x i := by
  have hz : (i + 1 - i - 1).toNat = 0 := by omega
  unfold reduce
  rw [hz]
  rfl

/-- The fold of one element more. -/
theorem reduce_succ {i j : ℤ} (h : i < j) :
    reduce op x i (j + 1) = op (reduce op x i j) (x j) := by
  have hk : (j + 1 - i - 1).toNat = (j - i - 1).toNat + 1 := by omega
  have hj : i + ((j - i - 1).toNat : ℤ) + 1 = j := by omega
  unfold reduce
  rw [hk, reduceNext, hj]

/-- Adjacent intervals combine. -/
theorem reduce_append [Std.Associative op] {i j k : ℤ} (hij : i < j) (hjk : j + 1 ≤ k) :
    op (reduce op x i j) (reduce op x j k) = reduce op x i k := by
  induction k, hjk using Int.leInduction with
  | base => rw [reduce_one, reduce_succ op x hij]
  | succ k hk ih =>
    rw [reduce_succ op x (show j < k by omega), reduce_succ op x (show i < k by omega), ← ih]
    exact (Std.Associative.assoc _ _ _).symm

end Libfork.Found
