import Mathlib.Data.List.Basic
import Mathlib.Tactic.Common

/-!
# Labelled machines and their guarded runs

* `Machine σ α` — a partial step function: `step s a` is the state after the action `a`, and
  `none` where `a` is not enabled. One action is one atomic step of one thread, so a list of
  actions is one interleaving.
* `Machine.Run ok s as t` — the interleaving `as` leads from `s` to `t`, and every action meets
  the guard `ok` in the state it is taken in. The guard is how a result says which runs it is
  about (`Machine.free` for all of them).
* **`Machine.Run.invariant`** — what one step preserves holds in every state a run reaches.
* **`Machine.exists_rounds`** — what one round achieves, `k` rounds achieve `k` times.
* `Machine.exec` — the run as a function, for evaluating a given interleaving;
  `Machine.run_iff_exec`.

Nothing here is about a particular program.
-/

namespace Libfork.Found

universe u v

/-- A machine with partial steps labelled by actions. -/
structure Machine (σ : Type u) (α : Type v) where
  /-- The state after one action, `none` when the action is not enabled. -/
  step : σ → α → Option σ

namespace Machine

variable {σ : Type u} {α : Type v} (M : Machine σ α)

/-- The guard every action meets. -/
def free : σ → α → Prop := fun _ _ => True

instance (s : σ) (a : α) : Decidable (free s a) := inferInstanceAs (Decidable True)

/-- `as` leads from `s` to `t` and every action meets `ok` where it is taken. -/
def Run (ok : σ → α → Prop) : σ → List α → σ → Prop
  | s, [], t => s = t
  | s, a :: as, t => ok s a ∧ ∃ s', M.step s a = some s' ∧ Run ok s' as t

variable {M} {ok : σ → α → Prop}

/-- The run without steps. -/
@[simp] theorem run_nil {s t : σ} : M.Run ok s [] t ↔ s = t := Iff.rfl

/-- A run begins with a step. -/
@[simp] theorem run_cons {s t : σ} {a : α} {as : List α} :
    M.Run ok s (a :: as) t ↔ ok s a ∧ ∃ s', M.step s a = some s' ∧ M.Run ok s' as t := Iff.rfl

/-- A run of a concatenation passes through a middle state. -/
theorem run_append {s t : σ} {as bs : List α} :
    M.Run ok s (as ++ bs) t ↔ ∃ m, M.Run ok s as m ∧ M.Run ok m bs t := by
  induction as generalizing s with
  | nil => simp
  | cons a as ih =>
      simp only [List.cons_append, run_cons, ih]
      constructor
      · rintro ⟨hok, s', hs', m, h₁, h₂⟩
        exact ⟨m, ⟨hok, s', hs', h₁⟩, h₂⟩
      · rintro ⟨m, ⟨hok, s', hs', h₁⟩, h₂⟩
        exact ⟨hok, s', hs', m, h₁, h₂⟩

/-- **The invariant rule.** A property that every guarded step preserves holds at the end of
every guarded run that starts with it. -/
theorem Run.invariant {P : σ → Prop}
    (hstep : ∀ s a s', P s → ok s a → M.step s a = some s' → P s')
    {s t : σ} {as : List α} (hs : P s) (h : M.Run ok s as t) : P t := by
  induction as generalizing s with
  | nil => cases h; exact hs
  | cons a as ih =>
      obtain ⟨hok, s', hs', h⟩ := h
      exact ih (hstep s a s' hs hok hs') h

/-- A weaker guard admits more runs. -/
theorem Run.mono {ok' : σ → α → Prop} (hle : ∀ s a, ok s a → ok' s a)
    {s t : σ} {as : List α} (h : M.Run ok s as t) : M.Run ok' s as t := by
  induction as generalizing s with
  | nil => exact h
  | cons a as ih =>
      obtain ⟨hok, s', hs', h⟩ := h
      exact ⟨hle s a hok, s', hs', ih h⟩

/-- The steps of one interleaving meet both guards if they meet either. -/
theorem Run.and {ok' : σ → α → Prop} {s t t' : σ} {as : List α} (h : M.Run ok s as t)
    (h' : M.Run ok' s as t') : M.Run (fun s a => ok s a ∧ ok' s a) s as t := by
  induction as generalizing s with
  | nil => exact h
  | cons a as ih =>
      obtain ⟨hok, s', hs', h⟩ := h
      obtain ⟨hok', s'', hs'', h'⟩ := h'
      obtain rfl : s' = s'' := Option.some.inj (hs'.symm.trans hs'')
      exact ⟨⟨hok, hok'⟩, s', hs', ih h h'⟩

/-- **The rule of rounds.** If a round leads from `P n` to `P (n + 1)`, then `k` rounds lead from
`P n` to `P (n + k)`. -/
theorem exists_rounds {P : ℕ → σ → Prop}
    (hround : ∀ n s, P n s → ∃ as s', M.Run ok s as s' ∧ P (n + 1) s') {n : ℕ} {s : σ} (h : P n s)
    (k : ℕ) : ∃ as t, M.Run ok s as t ∧ P (n + k) t := by
  induction k with
  | zero => exact ⟨[], s, rfl, h⟩
  | succ k ih =>
      obtain ⟨as, s', hrun, h'⟩ := ih
      obtain ⟨bs, t, hrun', ht⟩ := hround _ _ h'
      exact ⟨as ++ bs, t, run_append.mpr ⟨s', hrun, hrun'⟩, ht⟩

/-- `s` reaches `t` by repeating one action: one thread runs alone. -/
def Solo (M : Machine σ α) (a : α) (s t : σ) : Prop := ∃ n, M.Run free s (List.replicate n a) t

/-- No step at all. -/
theorem Solo.refl {a : α} (s : σ) : M.Solo a s s := ⟨0, rfl⟩

/-- One step more at the beginning. -/
theorem Solo.head {a : α} {s s' t : σ} (hs : M.step s a = some s') (h : M.Solo a s' t) :
    M.Solo a s t := by
  obtain ⟨n, h⟩ := h
  exact ⟨n + 1, trivial, s', hs, h⟩

/-- One step. -/
theorem Solo.single {a : α} {s t : σ} (hs : M.step s a = some t) : M.Solo a s t :=
  Solo.head hs (Solo.refl t)

/-- Steps after steps. -/
theorem Solo.trans {a : α} {s s' t : σ} (h₁ : M.Solo a s s') (h₂ : M.Solo a s' t) :
    M.Solo a s t := by
  obtain ⟨n, h₁⟩ := h₁
  obtain ⟨m, h₂⟩ := h₂
  refine ⟨n + m, ?_⟩
  rw [List.replicate_add]
  exact run_append.mpr ⟨s', h₁, h₂⟩

variable (M) (ok)

/-- The state a guarded interleaving leads to, `none` if some action is not enabled or does not
meet the guard. -/
def exec [∀ s a, Decidable (ok s a)] : σ → List α → Option σ
  | s, [] => some s
  | s, a :: as => if ok s a then (M.step s a).bind fun s' => exec s' as else none

variable {M} {ok}

/-- Executing an interleaving finds its run. -/
theorem run_iff_exec [∀ s a, Decidable (ok s a)] {s t : σ} {as : List α} :
    M.Run ok s as t ↔ M.exec ok s as = some t := by
  induction as generalizing s with
  | nil => simp [exec]
  | cons a as ih =>
      unfold exec
      by_cases h : ok s a
      · rw [if_pos h, run_cons, Option.bind_eq_some_iff]
        constructor
        · rintro ⟨-, s', hs', hrun⟩
          exact ⟨s', hs', ih.mp hrun⟩
        · rintro ⟨s', hs', hrun⟩
          exact ⟨h, s', hs', ih.mpr hrun⟩
      · rw [if_neg h, run_cons]
        simp [h]

end Machine

end Libfork.Found
