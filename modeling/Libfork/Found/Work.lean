import Libfork.Found.Cost
import Libfork.Found.ParallelFor

/-!
# The work of a routine

* `Routine.Costs c t` — from every memory, the sequential run of `t` takes at most `c` steps before
  it returns or throws.
* **`Routine.divide_costs`** — divide and conquer takes a number of steps that is linear in the
  length of the interval, if the leaves do; `Body.sweep_costs` is the case of a parallel loop.

Reads, writes, forks and joins are steps; a call is none.
Nothing here is about a particular program.
-/

namespace Libfork.Found

variable {A V E R S X Y : Type} [DecidableEq A]

namespace Prog

/-- The steps of a sequential composition. -/
theorem cost_bind_le {c : ℕ} {f : R → Prog A V S} (hf : ∀ r m, cost (f r) m ≤ c + 1)
    (p : Prog A V R) (m : A → V) : cost (bind p f) m ≤ cost p m + c := by
  induction p generalizing m with
  | ret r =>
    have hret := hf r m
    simp only [bind, cost]
    omega
  | fail => exact Nat.le_add_right ..
  | read a k ih =>
    have hrest := ih (m a) hf m
    simp only [bind, cost]
    omega
  | write a v k ih =>
    have hrest := ih hf (Function.update m a v)
    simp only [bind, cost]
    omega
  | par p q k _ _ ih =>
    simp only [bind, cost]
    cases run p m with
    | none => exact Nat.le_add_right ..
    | some x =>
      cases hy : run q x.2 with
      | none =>
        simp only [Option.elim_some, hy, Option.elim_none]
        omega
      | some y =>
        have hrest := ih x.1 y.1 hf y.2
        simp only [Option.elim_some, hy]
        omega

end Prog

namespace Routine

open Prog

/-- The sequential run takes at most `c` steps before it returns or throws. -/
def Costs (c : ℕ) (t : Routine A V E R) : Prop := ∀ m, cost t.prog m ≤ c + 1

variable {a b c : ℕ} {t : Routine A V E R}

/-- What takes few steps does not take more. -/
theorem Costs.mono (h : Costs a t) (hle : a ≤ b) : Costs b t := fun m =>
  (h m).trans (Nat.add_le_add_right hle 1)

/-- A failure takes no step. -/
theorem costs_fail : Costs c (⟨.fail⟩ : Routine A V E R) := fun _ => Nat.le_add_left ..

/-- A return takes none. -/
theorem costs_pure (r : R) : Costs 0 (pure r : Routine A V E R) := fun _ => le_rfl

/-- A call takes none. -/
theorem costs_call (e : E) (r : Option R) : Costs 0 (call e r : Routine A V E R) := fun _ => le_rfl

/-- A record takes none. -/
theorem costs_record (es : List E) : Costs 0 (record es : Routine A V E Unit) := fun _ => le_rfl

/-- A load takes one. -/
theorem costs_load (x : A) : Costs 1 (lift (load x) : Routine A V E V) := fun _ => le_rfl

/-- A store takes one. -/
theorem costs_store (x : A) (v : V) : Costs 1 (lift (store x v) : Routine A V E Unit) :=
  fun _ => le_rfl

/-- Routines in sequence take their steps together. -/
theorem Costs.bind {f : R → Routine A V E S} (h : Costs a t) (hf : ∀ r, Costs b (f r)) :
    Costs (a + b) (t >>= f) := by
  intro m
  have hresume : ∀ o m, cost (resume f o) m ≤ b + 1 := by
    intro o m
    unfold resume
    cases o.value with
    | none => exact Nat.le_add_left ..
    | some r => exact (cost_bind_le (fun _ _ => le_rfl) _ m).trans (hf r m)
  have hbind := cost_bind_le hresume t.prog m
  have ht := h m
  change cost (t.prog.bind (resume f)) m ≤ _
  omega

/-- A fork and its join. -/
theorem Costs.both {l : Routine A V E X} {r : Routine A V E Y} (hl : Costs a l)
    (hr : Costs b r) : Costs (a + b + 3) (both l r) := by
  intro m
  have hleft := hl m
  simp only [Routine.both, cost]
  cases run l.prog m with
  | none =>
    simp only [Option.elim_none]
    omega
  | some x =>
    have hright := hr x.2
    simp only [Option.elim_some]
    cases run r.prog x.2 with
    | none =>
      simp only [Option.elim_none]
      omega
    | some y =>
      simp only [Option.elim_some]
      omega

/-- **The work of divide and conquer is linear.** -/
theorem divide_costs {n lo hi : ℤ} {note : ℤ → ℤ → List E} {leaf : ℤ → ℤ → Routine A V E R}
    {join : R → R → R} (hn : 1 ≤ n)
    (hleaf : ∀ lo hi, lo < hi → Costs (c * (hi - lo).toNat) (leaf lo hi)) (fuel : ℕ)
    (hlt : lo < hi) :
    Costs ((c + 3) * (hi - lo).toNat - 3) (divide n note leaf join fuel lo hi) := by
  induction fuel generalizing lo hi with
  | zero => exact costs_fail
  | succ fuel ih =>
    have hsplit : (c + 3) * (hi - lo).toNat = c * (hi - lo).toNat + 3 * (hi - lo).toNat :=
      Nat.add_mul ..
    unfold divide
    refine ((costs_record (note lo hi)).bind (b := (c + 3) * (hi - lo).toNat - 3)
      fun _ => ?_).mono (by omega)
    split_ifs with hsmall
    · exact (hleaf lo hi hlt).mono (by omega)
    · -- both halves, the fork and the join
      have hleft : lo < lo + (hi - lo) / 2 := by omega
      have hright : lo + (hi - lo) / 2 < hi := by omega
      have hsum : (hi - lo).toNat =
          (lo + (hi - lo) / 2 - lo).toNat + (hi - (lo + (hi - lo) / 2)).toNat := by omega
      refine (((ih hleft).both (ih hright)).bind fun _ => costs_pure _).mono ?_
      rw [hsum, Nat.mul_add]
      have hl : (c + 3) * 1 ≤ (c + 3) * (lo + (hi - lo) / 2 - lo).toNat :=
        Nat.mul_le_mul_left _ (by omega)
      have hr : (c + 3) * 1 ≤ (c + 3) * (hi - (lo + (hi - lo) / 2)).toNat :=
        Nat.mul_le_mul_left _ (by omega)
      omega

end Routine

namespace Body

open Routine

variable {B : Body A V E} {c : ℕ}

/-- The loop takes the steps of each turn. -/
theorem loop_costs (hcode : ∀ i, Costs c (B.code i)) (k : ℕ) (i : ℤ) :
    Costs (c * k) (B.loop k i) := by
  induction k generalizing i with
  | zero => exact costs_pure ()
  | succ k ih =>
    refine ((hcode i).bind fun _ => ih (i + 1)).mono ?_
    rw [Nat.mul_succ, Nat.add_comm]

/-- The work of a parallel loop. -/
theorem sweep_costs {n lo hi : ℤ} (hn : 1 ≤ n) (hcode : ∀ i, Costs c (B.code i)) (fuel : ℕ)
    (hlt : lo < hi) : Costs ((c + 3) * (hi - lo).toNat - 3) (B.sweep n fuel lo hi) :=
  divide_costs hn (fun _ _ _ => loop_costs hcode _ _) fuel hlt

end Body

end Libfork.Found
