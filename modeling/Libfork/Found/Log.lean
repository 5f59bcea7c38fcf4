import Mathlib.Data.List.Basic
import Mathlib.Tactic.Common

/-!
# Logs in which every event is justified

What a concurrent program promises is often a property of its log: at the instant an event is
logged, the events before it entitle it.

* `AllJustified J log` — `J pre e` holds for every event `e` of `log`, where `pre` are the events
  before it.
* **`allJustified_snoc`** — the log of a machine is checked one event at a time.

Nothing here is about a particular program.
-/

namespace Libfork.Found

variable {E : Type*} {J : List E → E → Prop} {log : List E}

/-- Every event is justified by the events before it. -/
def AllJustified (J : List E → E → Prop) (log : List E) : Prop :=
  ∀ pre e post, log = pre ++ e :: post → J pre e

/-- The empty log is justified. -/
theorem allJustified_nil : AllJustified J [] := by
  intro pre e post h
  simp at h

/-- Where a log with one more event can be split. -/
theorem snoc_eq_split {e x : E} {pre post : List E} (h : log ++ [e] = pre ++ x :: post) :
    (log = pre ∧ e = x) ∨ ∃ post', log = pre ++ x :: post' := by
  rcases List.eq_nil_or_concat post with rfl | ⟨post', y, rfl⟩
  · obtain ⟨h₁, h₂⟩ := List.append_inj' h rfl
    exact Or.inl ⟨h₁, List.singleton_inj.mp h₂⟩
  · right
    refine ⟨post', ?_⟩
    have h' : log ++ [e] = (pre ++ x :: post') ++ [y] := by simpa using h
    exact (List.append_inj' h' rfl).1

/-- Justification is checked one event at a time. -/
theorem allJustified_snoc {e : E} (h : AllJustified J log) (he : J log e) :
    AllJustified J (log ++ [e]) := by
  intro pre x post hsplit
  rcases snoc_eq_split hsplit with ⟨rfl, rfl⟩ | ⟨post', hlog⟩
  · exact he
  · exact h pre x post' hlog

/-- Events that need no justification. -/
theorem AllJustified.append {es : List E} (h : AllJustified J log)
    (hes : ∀ e ∈ es, ∀ pre, J pre e) : AllJustified J (log ++ es) := by
  induction es generalizing log with
  | nil => rwa [List.append_nil]
  | cons e es ih =>
      rw [List.append_cons]
      apply ih
      · exact allJustified_snoc h (hes e List.mem_cons_self log)
      · exact fun e' he' => hes e' (List.mem_cons_of_mem e he')

/-- A weaker justification. -/
theorem AllJustified.mono {J' : List E → E → Prop} (h : AllJustified J log)
    (hle : ∀ pre e, J pre e → J' pre e) : AllJustified J' log :=
  fun pre e post hsplit => hle pre e (h pre e post hsplit)

end Libfork.Found
