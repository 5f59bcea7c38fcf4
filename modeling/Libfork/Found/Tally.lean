import Mathlib.Data.Finset.Card
import Mathlib.Data.Finset.Range
import Mathlib.Tactic.Common

/-!
# Counting the members of a population

`tally n q f` is the number of the first `n` members whose state, by `f`, satisfies `q`.

* `tally_update` — what the change of one member does to it.
* `tally_congr` — changes that `q` does not see.
* `tally_pos` — it is positive if and only if some member satisfies `q`.

Nothing here is about a particular program.
-/

namespace Libfork.Found

variable {ξ : Type*} {n : ℕ} {q r : ℕ → ξ → Bool} {f g : ℕ → ξ}

/-- How many of the first `n` members satisfy `q`. -/
def tally (n : ℕ) (q : ℕ → ξ → Bool) (f : ℕ → ξ) : ℕ :=
  ((Finset.range n).filter fun u => q u (f u) = true).card

/-- The same test counts the same. -/
theorem tally_congr (h : ∀ u < n, q u (f u) = r u (g u)) : tally n q f = tally n r g := by
  unfold tally
  congr 1
  apply Finset.filter_congr
  intro u hu
  rw [h u (Finset.mem_range.mp hu)]

/-- A weaker test counts at least as many. -/
theorem tally_mono {η : Type*} {r : ℕ → η → Bool} {g : ℕ → η}
    (h : ∀ u < n, q u (f u) = true → r u (g u) = true) : tally n q f ≤ tally n r g := by
  apply Finset.card_le_card
  intro u hu
  rw [Finset.mem_filter, Finset.mem_range] at hu ⊢
  exact ⟨hu.1, h u hu.1 hu.2⟩

/-- At most all are counted. -/
theorem tally_le : tally n q f ≤ n := by
  refine (Finset.card_filter_le _ _).trans_eq ?_
  rw [Finset.card_range]

/-- A member is counted. -/
theorem tally_pos : 0 < tally n q f ↔ ∃ u < n, q u (f u) = true := by
  unfold tally
  rw [Finset.card_pos]
  constructor
  · rintro ⟨u, hu⟩
    rw [Finset.mem_filter, Finset.mem_range] at hu
    exact ⟨u, hu⟩
  · rintro ⟨u, hu⟩
    exact ⟨u, by rw [Finset.mem_filter, Finset.mem_range]; exact hu⟩

/-- Nobody is counted if nobody passes the test. -/
theorem tally_eq_zero : tally n q f = 0 ↔ ∀ u < n, q u (f u) = false := by
  rw [← Nat.le_zero, ← Nat.not_lt, tally_pos]
  simp

/-- **The change of one member.** -/
theorem tally_update {w : ℕ} (hw : w < n) (x : ξ) :
    tally n q (Function.update f w x) + (if q w (f w) then 1 else 0) =
      tally n q f + if q w x then 1 else 0 := by
  have hsplit : ∀ g : ℕ → ξ, tally n q g =
      (((Finset.range n).erase w).filter fun u => q u (g u) = true).card +
        if q w (g w) then 1 else 0 := by
    intro g
    unfold tally
    rw [← Finset.insert_erase (Finset.mem_range.mpr hw), Finset.filter_insert]
    split
    · rw [Finset.card_insert_of_notMem (by simp)]
      simp
    · simp
  have hrest : ((Finset.range n).erase w).filter (fun u => q u (Function.update f w x u) = true) =
      ((Finset.range n).erase w).filter fun u => q u (f u) = true := by
    apply Finset.filter_congr
    intro u hu
    rw [Function.update_of_ne (Finset.ne_of_mem_erase hu)]
  rw [hsplit, hsplit f, hrest, Function.update_self]
  omega

end Libfork.Found
