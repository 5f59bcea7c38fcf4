import Mathlib.Algebra.Ring.Int.Defs
import Mathlib.Algebra.Ring.Nat
import Mathlib.Data.Nat.Bitwise
import Mathlib.Tactic.Common

/-!
# Rounding up to a power of two in machine words

The usual idiom `(x + 2 ^ k - 1) & ~(2 ^ k - 1)`, computed modulo `2 ^ w`.

* `roundUp k x` — the idiom.
* `toNat_and_not_mask` — clearing the low bits.
* **`toNat_roundUp`** — the value of the idiom, whether or not the sum wraps.

Nothing here is about a particular program.
-/

namespace Libfork.Found

variable {w k : ℕ}

/-- `x` rounded up to a multiple of `2 ^ k`, as machine words compute it. -/
def roundUp (k : ℕ) (x : BitVec w) : BitVec w :=
  (x + BitVec.ofNat w (2 ^ k) - 1) &&& ~~~(BitVec.ofNat w (2 ^ k) - 1)

/-- The mask has the lower `k` bits. -/
theorem toNat_mask (hk : k < w) : (BitVec.ofNat w (2 ^ k) - 1).toNat = 2 ^ k - 1 := by
  have hlt : 2 ^ k < 2 ^ w := Nat.pow_lt_pow_right (by decide) hk
  have hpos : 0 < 2 ^ k := Nat.two_pow_pos k
  have hw : 1 < 2 ^ w := Nat.one_lt_two_pow (by omega)
  rw [BitVec.toNat_sub, BitVec.toNat_ofNat, Nat.mod_eq_of_lt hlt]
  have hone : (1 : BitVec w).toNat = 1 := by
    simp [BitVec.toNat_ofNat, Nat.mod_eq_of_lt hw]
  rw [hone, show 2 ^ w - 1 + 2 ^ k = 2 ^ k - 1 + 2 ^ w by omega, Nat.add_mod_right]
  exact Nat.mod_eq_of_lt (by omega)

/-- Clearing the low bits. -/
theorem toNat_and_not_mask (hk : k < w) (x : BitVec w) :
    (x &&& ~~~(BitVec.ofNat w (2 ^ k) - 1)).toNat = x.toNat / 2 ^ k * 2 ^ k := by
  have hmask : x &&& ~~~(BitVec.ofNat w (2 ^ k) - 1) = (x >>> k) <<< k := by
    apply BitVec.eq_of_getLsbD_eq
    intro i hi
    have hm : (BitVec.ofNat w (2 ^ k) - 1).getLsbD i = decide (i < k) := by
      rw [BitVec.getLsbD, toNat_mask hk, Nat.testBit_two_pow_sub_one]
    simp only [BitVec.getLsbD_and, BitVec.getLsbD_not, BitVec.getLsbD_shiftLeft,
      BitVec.getLsbD_ushiftRight, hm, hi, decide_true, Bool.true_and]
    by_cases hik : i < k
    · simp [hik]
    · have hback : k + (i - k) = i := by omega
      simp [hik, hback]
  have hle : x.toNat / 2 ^ k * 2 ^ k < 2 ^ w :=
    Nat.lt_of_le_of_lt (Nat.div_mul_le_self _ _) x.isLt
  rw [hmask, BitVec.toNat_shiftLeft, BitVec.toNat_ushiftRight, Nat.shiftRight_eq_div_pow,
    Nat.shiftLeft_eq, Nat.mod_eq_of_lt hle]

/-- **The value of the idiom.** -/
theorem toNat_roundUp (hk : k < w) (x : BitVec w) :
    (roundUp k x).toNat = (x.toNat + (2 ^ k - 1)) % 2 ^ w / 2 ^ k * 2 ^ k := by
  have hsub : x + BitVec.ofNat w (2 ^ k) - 1 = x + (BitVec.ofNat w (2 ^ k) - 1) := by
    rw [BitVec.sub_eq_add_neg, BitVec.sub_eq_add_neg, BitVec.add_assoc]
  rw [roundUp, toNat_and_not_mask hk, hsub, BitVec.toNat_add, toNat_mask hk]

end Libfork.Found
