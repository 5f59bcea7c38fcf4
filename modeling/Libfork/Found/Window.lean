import Mathlib.Algebra.Ring.Int.Defs
import Mathlib.Data.List.Basic
import Mathlib.Tactic.Common

/-!
# Windows of a memory

* `Window get i q` — the memory read by `get` holds the items `q` at the indices `i, i + 1, ..`.
* **`window_append`**, **`Window.congr`** — windows are taken apart at any index, and only depend
  on the indices they cover.

Nothing here is about a particular program.
-/

namespace Libfork.Found

variable {α : Type*} {get get' : ℤ → α} {i : ℤ} {q q' : List α} {x : α}

/-- The items `q` are at the indices from `i` on. -/
def Window (get : ℤ → α) : ℤ → List α → Prop
  | _, [] => True
  | i, x :: q => get i = x ∧ Window get (i + 1) q

/-- The empty window. -/
@[simp] theorem window_nil : Window get i [] := trivial

/-- A window begins with its first item. -/
@[simp] theorem window_cons : Window get i (x :: q) ↔ get i = x ∧ Window get (i + 1) q := Iff.rfl

/-- A window is taken apart. -/
theorem window_append :
    Window get i (q ++ q') ↔ Window get i q ∧ Window get (i + q.length) q' := by
  induction q generalizing i with
  | nil => simp
  | cons x q ih =>
      have hlen : i + ((x :: q).length : ℤ) = i + 1 + q.length := by
        rw [List.length_cons]
        omega
      rw [List.cons_append, window_cons, window_cons, ih, hlen, and_assoc]

/-- The last item of a window. -/
theorem window_snoc :
    Window get i (q ++ [x]) ↔ Window get i q ∧ get (i + q.length) = x := by
  rw [window_append, window_cons]
  simp

/-- A window only depends on the indices it covers. -/
theorem Window.congr (h : Window get i q)
    (heq : ∀ j, i ≤ j → j < i + q.length → get' j = get j) : Window get' i q := by
  induction q generalizing i with
  | nil => trivial
  | cons x q ih =>
      rw [List.length_cons] at heq
      refine ⟨(heq i (Int.le_refl i) (by omega)).trans h.1, ih h.2 fun j hlo hhi => ?_⟩
      exact heq j (by omega) (by omega)

end Libfork.Found
