import Mathlib.Tactic.Common

/-!
# Objects used one call at a time

* `Object σ C R` — an object with states `σ`, called with requests in `C` and answering in `R`.
* **`Object.Simulates.runs`** — the simulation rule: an object that answers every call as another
  one does, from states that correspond, answers every sequence of calls as the other one does.
* `Object.Always P` — every call of a sequence is as `P` says.
* **`Object.always_iff`** — an invariant under which two properties of a call are one.

Nothing here is about a particular program.
-/

namespace Libfork.Found

variable {σ τ C R : Type}

/-- The calls of an object. -/
structure Object (σ C R : Type) where
  /-- The answer and the state afterwards, `none` for a call that does not return, or that cannot
  be made. -/
  call : σ → C → Option (R × σ)

/-- The answers to a sequence of calls, and the state they lead to. -/
def Object.runs (O : Object σ C R) : σ → List C → Option (List R × σ)
  | s, [] => some ([], s)
  | s, c :: cs =>
      match O.call s c with
      | none => none
      | some (r, s') => (O.runs s' cs).map fun x => (r :: x.1, x.2)

/-- Corresponding states answer alike, and correspond afterwards. -/
def Object.Simulates (O : Object σ C R) (O' : Object τ C R) (sim : σ → τ → Prop) : Prop :=
  ∀ s t c r t', sim s t → O'.call t c = some (r, t') →
    ∃ s', O.call s c = some (r, s') ∧ sim s' t'

/-- **The simulation rule.** -/
theorem Object.Simulates.runs {O : Object σ C R} {O' : Object τ C R} {sim : σ → τ → Prop}
    (hsim : O.Simulates O' sim) {s : σ} {t t' : τ} {cs : List C} {rs : List R} (h : sim s t)
    (hruns : O'.runs t cs = some (rs, t')) :
    ∃ s', O.runs s cs = some (rs, s') ∧ sim s' t' := by
  induction cs generalizing s t rs with
  | nil =>
    cases hruns
    exact ⟨s, rfl, h⟩
  | cons c cs ih =>
    unfold Object.runs at hruns ⊢
    cases hcall : O'.call t c with
    | none => simp [hcall] at hruns
    | some x =>
      obtain ⟨r, t₁⟩ := x
      simp only [hcall, Option.map_eq_some_iff, Prod.mk.injEq] at hruns
      obtain ⟨⟨rs', t₂⟩, hrest, rfl, rfl⟩ := hruns
      obtain ⟨s₁, hcall', h₁⟩ := hsim s t c r t₁ h hcall
      obtain ⟨s₂, hrest', h₂⟩ := ih h₁ hrest
      exact ⟨s₂, by simp [hcall', hrest'], h₂⟩

/-- An object all of whose calls return answers every sequence of them. -/
theorem Object.exists_runs {O : Object σ C R} (htotal : ∀ s c, ∃ x, O.call s c = some x) (s : σ)
    (cs : List C) : ∃ rs t, O.runs s cs = some (rs, t) := by
  induction cs generalizing s with
  | nil => exact ⟨[], s, rfl⟩
  | cons c cs ih =>
    obtain ⟨⟨r, s'⟩, hcall⟩ := htotal s c
    obtain ⟨rs, t, hrest⟩ := ih s'
    refine ⟨r :: rs, t, ?_⟩
    unfold Object.runs
    simp [hcall, hrest]

/-- Every call of the sequence is as `P` says. -/
def Object.Always (O : Object σ C R) (P : σ → C → R → σ → Prop) : σ → List C → Prop
  | _, [] => True
  | s, c :: cs => ∀ r s', O.call s c = some (r, s') → P s c r s' ∧ O.Always P s' cs

/-- **The invariant rule.** Where the invariant holds, a call is as `P` says just when it is as `Q`
says, and then the invariant holds again. -/
theorem Object.always_iff {O : Object σ C R} {P Q : σ → C → R → σ → Prop} {Inv : σ → Prop}
    (hcall : ∀ s c r s', Inv s → O.call s c = some (r, s') →
      (P s c r s' ↔ Q s c r s') ∧ (Q s c r s' → Inv s'))
    {s : σ} (h : Inv s) (cs : List C) : O.Always P s cs ↔ O.Always Q s cs := by
  induction cs generalizing s with
  | nil => exact Iff.rfl
  | cons c cs ih =>
    constructor
    · intro hP r s' hs'
      obtain ⟨hiff, hinv⟩ := hcall s c r s' h hs'
      obtain ⟨hfirst, hrest⟩ := hP r s' hs'
      have hQ := hiff.mp hfirst
      exact ⟨hQ, (ih (hinv hQ)).mp hrest⟩
    · intro hQ r s' hs'
      obtain ⟨hiff, hinv⟩ := hcall s c r s' h hs'
      obtain ⟨hfirst, hrest⟩ := hQ r s' hs'
      exact ⟨hiff.mpr hfirst, (ih (hinv hfirst)).mpr hrest⟩

end Libfork.Found
