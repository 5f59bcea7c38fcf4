import Mathlib.Data.List.Basic
import Mathlib.Data.Nat.ModEq
import Mathlib.Logic.Function.Basic
import Mathlib.Tactic.Common

/-!
# Ring buffers

Items at consecutive indices `start, start + 1, ..` in a memory of `cap` slots, the index `i` in
the slot `i % cap`.

* `mod_ne_of_lt_add` — indices closer than the capacity have different slots.
* `RingHolds cap mem start held` — `mem` holds the items `held` from the index `start` on, with
  the rules for adding and removing an item at either end.

Nothing here is about a particular program.
-/

namespace Libfork.Found

/-- Two indices less than `cap` apart lie in different slots. -/
theorem mod_ne_of_lt_add {cap i j : ℕ} (hlt : i < j) (h : j < i + cap) : i % cap ≠ j % cap := by
  intro heq
  have hdvd : cap ∣ j - i := (Nat.modEq_iff_dvd' (Nat.le_of_lt hlt)).mp heq
  have hle : cap ≤ j - i := Nat.le_of_dvd (by omega) hdvd
  omega

variable {α : Type*}

/-- The item `i` places after the oldest is in the slot of the index `start + i`. -/
def RingHolds (cap : ℕ) (mem : ℕ → α) (start : ℕ) (held : List α) : Prop :=
  ∀ i < held.length, held[i]? = some (mem ((start + i) % cap))

variable {cap : ℕ} {mem : ℕ → α} {start : ℕ} {held : List α}

/-- An empty ring holds nothing. -/
theorem ringHolds_nil : RingHolds cap mem start [] := by
  intro i hi
  cases hi

namespace RingHolds

/-- The oldest item is in the slot of `start`. -/
theorem head? (h : RingHolds cap mem start held) (hne : held ≠ []) :
    held.head? = some (mem (start % cap)) := by
  have := h 0 (List.length_pos_iff.mpr hne)
  rwa [Nat.add_zero, ← List.head?_eq_getElem?] at this

/-- The newest item is in the slot before the end. -/
theorem getLast? (h : RingHolds cap mem start held) (hne : held ≠ []) :
    held.getLast? = some (mem ((start + held.length - 1) % cap)) := by
  have hpos := List.length_pos_iff.mpr hne
  have := h (held.length - 1) (by omega)
  rwa [← List.getLast?_eq_getElem?, ← Nat.add_sub_assoc hpos] at this

/-- Writing the slot of the end adds a newest item, if there is room. -/
theorem push (h : RingHolds cap mem start held) (hroom : held.length < cap) (v : α) :
    RingHolds cap (Function.update mem ((start + held.length) % cap) v) start (held ++ [v]) := by
  intro i hi
  rw [List.length_append, List.length_singleton] at hi
  by_cases hlast : i = held.length
  · subst hlast
    rw [Function.update_self, List.getElem?_append_right (Nat.le_refl _)]
    simp
  · have hi' : i < held.length := by omega
    rw [List.getElem?_append_left hi',
      Function.update_of_ne (mod_ne_of_lt_add (by omega) (by omega))]
    exact h i hi'

/-- Dropping the oldest item. -/
theorem tail (h : RingHolds cap mem start held) : RingHolds cap mem (start + 1) held.tail := by
  intro i hi
  rw [List.length_tail] at hi
  rw [List.getElem?_tail, h (i + 1) (by omega), Nat.add_right_comm, Nat.add_assoc]

/-- Dropping the newest item. -/
theorem dropLast (h : RingHolds cap mem start held) : RingHolds cap mem start held.dropLast := by
  intro i hi
  rw [List.length_dropLast] at hi
  rw [List.getElem?_dropLast, if_pos (by omega)]
  exact h i (by omega)

end RingHolds

end Libfork.Found
