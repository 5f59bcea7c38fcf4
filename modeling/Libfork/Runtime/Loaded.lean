import Libfork.Found.Spread
import Libfork.Runtime.Scopes

/-!
# Programs on the workers

The workers run the tasks of a fork-join program. Where the program has two parallel branches a
task invokes one of them by `fork` or by `call`, then the other, then awaits a join, and goes on
with what both have returned; it may hand itself over to the outside at any point. A task that went
on from a join too early would find a branch that has not returned, and fail.

* `Loaded` — the workers, the code of their tasks and the memory; `Loaded.machine`.
* `Follows` — the invariant: the tasks of the program are those that the workers hold.
* **`interleaves_of_run`** — whatever the workers do, what they have done is an interleaving of the
  program, so that nobody has gone on from a join too early.

A program with two forks in a scope sees two steals at most in it: the steal counter does not wrap
around.

Source: `awaitables.hpp`; `promise.hpp`; `resume.hpp`; the pattern `fork`, `call`, `join` as in
`fold.hpp`, `for_each.hpp`, `map.hpp` and `scan.hpp`.
-/

namespace Libfork.Runtime

open Libfork.Found

/-- The workers, the code of the tasks they run, and the memory it works on. -/
structure Loaded (A V R : Type) where
  workers : State
  code : Spread A V R
  mem : A → V

namespace Loaded

/-- Who takes the next step. -/
inductive Act
  /-- The workers move a handle, or the code invokes, joins, returns, or switches. -/
  | act (a : Runtime.Act)
  /-- The code that `w` runs reads or writes a cell. -/
  | access (w : ℕ)
  /-- The code that `w` runs is past a join, and takes what was returned. -/
  | collect (w : ℕ)
deriving DecidableEq, Repr

/-- The root `r`, which is to run `p`, is created; the outside holds its handle. -/
def init {A V R : Type} (r : ℕ) (p : Prog A V R) (m : A → V) : Loaded A V R :=
  ⟨State.init.place r .outside, .here r p, m⟩

variable {A V R : Type} [DecidableEq A]

/-- The code that `w` runs does `μ`. -/
def does (σ : Loaded A V R) (w : ℕ) (μ : Deed) : Option (Loaded A V R) :=
  (σ.workers.running w).bind fun f =>
    (σ.code.act f μ σ.mem).map fun x => { σ with code := x.1, mem := x.2 }

end Loaded

/-- What the code does by an action of its worker. -/
def Act.deed : Act → Option (ℕ × Deed)
  | .fork w c => some (w, .invoke c)
  | .call w c => some (w, .invoke c)
  | .join w => some (w, .join)
  | .ret w => some (w, .ret)
  | _ => none

/-- There is one root, and it is created before. -/
def Act.spawns : Act → Bool
  | .spawn _ => true
  | _ => false

namespace Loaded

variable {A V R : Type} [DecidableEq A]

/-- The machine of all workers, of the outside, and of the code. -/
def machine (T : Tree) : Machine (Loaded A V R) Act where
  step σ
    | .act a =>
        if a.spawns then none
        else (a.deed.elim (some σ) fun x => σ.does x.1 x.2).bind fun σ' =>
          ((Runtime.machine T).step σ.workers a).map fun s => { σ' with workers := s }
    | .access w => σ.does w .access
    | .collect w => σ.does w .collect

variable {T : Tree} {σ σ' : Loaded A V R} {a : Act} {f w : ℕ} {μ : Deed}

/-! ## The cases of a step -/

/-- What a step can do. -/
inductive Goes (T : Tree) (σ : Loaded A V R) : Act → Loaded A V R → Prop
  | sched {a : Runtime.Act} {s : State} (hspawn : a.spawns = false) (hdeed : a.deed = none)
      (h : Moves T σ.workers a s) : Goes T σ (.act a) { σ with workers := s }
  | code {a : Runtime.Act} {s : State} {w f : ℕ} {μ : Deed} {t : Spread A V R} {m : A → V}
      (hdeed : a.deed = some (w, μ)) (hrun : σ.workers.running w = some f)
      (hacts : Spread.Acts f μ σ.code σ.mem t m) (h : Moves T σ.workers a s) :
      Goes T σ (.act a) ⟨s, t, m⟩
  | access {w f : ℕ} {t : Spread A V R} {m : A → V} (hrun : σ.workers.running w = some f)
      (hacts : Spread.Acts f .access σ.code σ.mem t m) : Goes T σ (.access w) ⟨σ.workers, t, m⟩
  | collect {w f : ℕ} {t : Spread A V R} {m : A → V} (hrun : σ.workers.running w = some f)
      (hacts : Spread.Acts f .collect σ.code σ.mem t m) : Goes T σ (.collect w) ⟨σ.workers, t, m⟩

/-- A worker that does something to the memory runs the code of a task. -/
theorem exists_of_does (h : σ.does w μ = some σ') : ∃ f t m, σ.workers.running w = some f ∧
    Spread.Acts f μ σ.code σ.mem t m ∧ σ' = ⟨σ.workers, t, m⟩ := by
  obtain ⟨f, hrun, h⟩ := Option.bind_eq_some_iff.mp h
  obtain ⟨⟨t, m⟩, hact, rfl⟩ := Option.map_eq_some_iff.mp h
  exact ⟨f, t, m, hrun, Spread.acts_of_act hact, rfl⟩

/-- **Every step is one of these.** -/
theorem goes_of_step (h : (machine T).step σ a = some σ') : Goes T σ a σ' := by
  cases a with
  | act a =>
    simp only [machine] at h
    split_ifs at h with hspawn
    obtain ⟨σ₁, hσ₁, h⟩ := Option.bind_eq_some_iff.mp h
    obtain ⟨s, hs, rfl⟩ := Option.map_eq_some_iff.mp h
    have hmoves := moves_of_step hs
    cases hdeed : a.deed with
    | none =>
      rw [hdeed] at hσ₁
      cases hσ₁
      exact .sched (Bool.not_eq_true _ ▸ hspawn) hdeed hmoves
    | some x =>
      obtain ⟨w, μ⟩ := x
      rw [hdeed] at hσ₁
      obtain ⟨f, t, m, hrun, hacts, rfl⟩ := exists_of_does hσ₁
      exact .code hdeed hrun hacts hmoves
  | access w =>
    obtain ⟨f, t, m, hrun, hacts, rfl⟩ := exists_of_does h
    exact .access hrun hacts
  | collect w =>
    obtain ⟨f, t, m, hrun, hacts, rfl⟩ := exists_of_does h
    exact .collect hrun hacts

end Loaded

/-! ## What an action of the code does to the tasks -/

section deed

variable {T : Tree} {s s' : State} {a : Act} {f g c w : ℕ}

/-- A task is invoked by fork or call. -/
theorem Act.deed_eq_invoke (h : a.deed = some (w, .invoke c)) : a = .fork w c ∨ a = .call w c := by
  cases a <;> simp_all [Act.deed]

/-- A join is left by a join. -/
theorem Act.deed_eq_join (h : a.deed = some (w, .join)) : a = .join w := by
  cases a <;> simp_all [Act.deed]

/-- A task returns by a return. -/
theorem Act.deed_eq_ret (h : a.deed = some (w, .ret)) : a = .ret w := by
  cases a <;> simp_all [Act.deed]

/-- The other actions invoke nothing, and nothing returns by them. -/
theorem Act.deed_eq_none (h : a.deed = none) :
    (∀ w c, a ≠ .fork w c) ∧ (∀ w c, a ≠ .call w c) ∧ ∀ w, a ≠ .ret w := by
  cases a <;> simp_all [Act.deed]

/-- No other task forks. -/
theorem not_forks_of_deed {μ : Deed} (h : a.deed = some (w, μ)) (hrun : s.running w = some f)
    (hg : g ≠ f) : ¬ Forks s a g := by
  rintro ⟨v, c, rfl, hv⟩
  cases h
  exact hg (Option.some.inj (hv.symm.trans hrun))

/-- Where nothing begins or returns, the same tasks are over. -/
theorem ended_iff_of_quiet (h : Moves T s a s') (hI : Inv T s) (hspawn : a.spawns = false)
    (hfork : ∀ w c, a ≠ .fork w c) (hcall : ∀ w c, a ≠ .call w c) (hret : ∀ w, a ≠ .ret w) :
    (s'.loc g).ended = true ↔ (s.loc g).ended = true := by
  constructor
  · intro hg
    rcases ended_cases h hI hg with hg | ⟨w, hw, -⟩
    · exact hg
    · exact absurd hw (hret w)
  · intro hg
    refine ended_keep h hI hg ?_ (fun w => hfork w g) fun w => hcall w g
    rintro rfl
    cases hspawn

/-- Where a task begins it is over no longer. -/
theorem ended_iff_of_invoke (h : Moves T s a s') (hI : Inv T s)
    (ha : a = .fork w c ∨ a = .call w c) :
    (s'.loc g).ended = true ↔ (s.loc g).ended = true ∧ g ≠ c := by
  constructor
  · intro hg
    refine ⟨?_, ?_⟩
    · rcases ended_cases h hI hg with hg | ⟨v, hv, -⟩
      · exact hg
      · rcases ha with ha | ha <;> cases ha.symm.trans hv
    · rintro rfl
      cases (ended_invoke h ha).symm.trans hg
  · rintro ⟨hg, hgc⟩
    refine ended_keep h hI hg ?_ ?_ ?_ <;> rcases ha with rfl | rfl <;> simp [Ne.symm hgc]

/-- Where a task returns it is over, too. -/
theorem ended_iff_of_ret (h : Moves T s (.ret w) s') (hI : Inv T s)
    (hrun : s.running w = some f) :
    (s'.loc g).ended = true ↔ (s.loc g).ended = true ∨ g = f := by
  constructor
  · intro hg
    refine (ended_cases h hI hg).imp_right ?_
    rintro ⟨v, hv, hvg⟩
    cases hv
    exact Option.some.inj (hvg.symm.trans hrun)
  · rintro (hg | rfl)
    · exact ended_keep h hI hg (by simp) (by simp) (by simp)
    · exact ended_ret h hrun

end deed

/-- Outside its scopes, and not in a fork, a task owes nothing. -/
theorem Inv.debt_eq_zero {T : Tree} {s : State} {f : ℕ} (hI : Inv T s)
    (hscope : (s.task f).scope = false) (haw : (s.task f).awaiting = none) :
    (s.task f).debt = 0 := by
  obtain ⟨howed, hpaid⟩ := (hI.accounts f).scope hscope
  have hchildren := (hI.accounts f).balance.children
  rw [howed, hpaid, Finset.card_empty] at hchildren
  simp only [Task.debt, haw, Option.any_none, Bool.toNat_false]
  omega

/-- Neither does one whose code is over, or has not begun. -/
theorem Inv.debt_of_ended {T : Tree} {s : State} {f : ℕ} (hI : Inv T s)
    (hf : (s.loc f).ended = true) : (s.task f).debt = 0 := by
  refine hI.debt_eq_zero ((hI.accounts f).ended hf) ((hI.accounts f).awaiting_eq_none ?_ ?_ ?_)
  all_goals
    intro w hw
    rw [State.loc, hw] at hf
    cases hf

namespace Loaded

variable {A V R : Type} [DecidableEq A] {T : Tree} {σ σ' : Loaded A V R} {a : Act} {f w : ℕ}
  {μ : Deed}

/-! ## The invariant -/

/-- The tasks of the program are those that the workers hold. -/
structure Follows (T : Tree) (σ : Loaded A V R) : Prop where
  inv : Inv T σ.workers
  distinct : σ.code.Distinct
  live : ∀ g, (σ.workers.loc g).ended = true ↔ σ.code.stage g = none
  invoked : ∀ g c, σ.code.Invoked g c → T.tag c ≠ .root ∧ T.parent c = g
  scope : ∀ g, σ.code.stage g = some .here → (σ.workers.task g).scope = false
  joined : ∀ g, σ.code.stage g = some (.both true) → σ.workers.Joins g
  debt : ∀ g x, σ.code.stage g = some x → (σ.workers.task g).debt ≤ x.children

namespace Follows

variable (hσ : Follows T σ)

include hσ

omit [DecidableEq A] in
/-- No continuation is taken more than three times in a scope, so that no counter wraps around. -/
theorem few {a : Runtime.Act} {s : State} (h : Moves T σ.workers a s) (g : ℕ) :
    (s.task g).taken < 65535 := by
  have hold : (σ.workers.task g).debt ≤ 2 := by
    cases hg : σ.code.stage g with
    | none =>
      rw [hσ.inv.debt_of_ended ((hσ.live g).mpr hg)]
      exact Nat.zero_le 2
    | some x =>
      refine (hσ.debt g x hg).trans ?_
      cases x <;> simp [Stage.children]
  have hnew := debt_of_fork h g
  have htaken : (s.task g).taken ≤ (s.task g).debt := Nat.le_add_right _ _
  omega

omit [DecidableEq A] in
/-- The workers move handles, and the code does nothing. -/
theorem of_sched {a : Runtime.Act} {s : State} (h : Moves T σ.workers a s)
    (hspawn : a.spawns = false) (hdeed : a.deed = none) :
    Follows T { σ with workers := s } := by
  obtain ⟨hfork, hcall, hret⟩ := Act.deed_eq_none hdeed
  have hno : ∀ g, ¬ Forks σ.workers a g := by
    rintro g ⟨w, c, ha, -⟩
    exact hfork w c ha
  exact {
    inv := inv_of_moves h hσ.inv (hσ.few h)
    distinct := hσ.distinct
    live := fun g =>
      (ended_iff_of_quiet h hσ.inv hspawn hfork hcall hret).trans (hσ.live g)
    invoked := hσ.invoked
    scope := fun g hg => scope_of_moves h (hσ.scope g hg) (hno g)
    joined := fun g hg => joins_of_moves h hσ.inv (hσ.joined g hg) (hno g)
    debt := fun g x hg => (debt_of_moves h (hno g)).trans (hσ.debt g x hg) }

/-- The code goes on from a join after both branches have returned. -/
theorem orderly {w : ℕ} {t : Spread A V R} {m : A → V} (hrun : σ.workers.running w = some f)
    (hacts : Spread.Acts f .collect σ.code σ.mem t m) : σ.code.Orderly f .collect where
  new c hc := by cases hc
  joined _ c hc := by
    have hpc := (running_eq_some.mp hrun).1
    have hjoins := hσ.joined f (hacts.stage_collect rfl hσ.distinct)
    obtain ⟨ht, hp⟩ := hσ.invoked f c hc
    have hstatus := hσ.inv.no_child (hσ.inv.scope_of_joins hjoins hpc) hpc ht hp
    rw [← hσ.live c]
    unfold State.status at hstatus
    cases hloc : σ.workers.loc c <;> simp [hloc, Loc.status, Loc.ended] at hstatus ⊢

/-- The code follows the workers when a join is left. -/
theorem of_collect {w : ℕ} {t : Spread A V R} {m : A → V} (hrun : σ.workers.running w = some f)
    (hacts : Spread.Acts f .collect σ.code σ.mem t m) : Follows T ⟨σ.workers, t, m⟩ := by
  have ho := hσ.orderly hrun hacts
  obtain ⟨hpc, haw⟩ := running_eq_some.mp hrun
  have hscope := hσ.inv.scope_of_joins (hσ.joined f (hacts.stage_collect rfl hσ.distinct)) hpc
  obtain ⟨hturns, hdistinct⟩ := hacts.turns hσ.distinct ho
  generalize hst : t.stage = st at hturns
  cases hturns with
  | collect hf =>
    have hstage : ∀ g, g ≠ f → t.stage g = σ.code.stage g := by
      intro g hg
      rw [hst, Function.update_of_ne hg]
    have hself : t.stage f = some .here := by rw [hst, Function.update_self]
    refine ⟨hσ.inv, hdistinct, fun g => ?_, fun g c hc => ?_, fun g hg => ?_, fun g hg => ?_,
      fun g x hg => ?_⟩
    · by_cases hgf : g = f
      · rw [hgf, hself, hσ.live f, hf]
        simp
      · rw [hstage g hgf]
        exact hσ.live g
    · exact hσ.invoked g c ((hacts.invoked hc).resolve_right (by simp))
    · by_cases hgf : g = f
      · exact hgf ▸ hscope
      · exact hσ.scope g (hstage g hgf ▸ hg)
    · by_cases hgf : g = f
      · rw [hgf, hself] at hg
        cases hg
      · exact hσ.joined g (hstage g hgf ▸ hg)
    · by_cases hgf : g = f
      · rw [hgf, hσ.inv.debt_eq_zero hscope haw]
        exact Nat.zero_le _
      · exact hσ.debt g x (hstage g hgf ▸ hg)

/-- It follows them when a task reads or writes. -/
theorem of_access {t : Spread A V R} {m : A → V}
    (hacts : Spread.Acts f .access σ.code σ.mem t m) : Follows T ⟨σ.workers, t, m⟩ := by
  have ho : σ.code.Orderly f .access := ⟨by simp, by simp⟩
  obtain ⟨hturns, hdistinct⟩ := hacts.turns hσ.distinct ho
  generalize hst : t.stage = st at hturns
  cases hturns with
  | access hf =>
    exact {
      inv := hσ.inv
      distinct := hdistinct
      live := fun g => hst ▸ hσ.live g
      invoked := fun g c hc => hσ.invoked g c ((hacts.invoked hc).resolve_right (by simp))
      scope := fun g hg => hσ.scope g (hst ▸ hg)
      joined := fun g hg => hσ.joined g (hst ▸ hg)
      debt := fun g x hg => hσ.debt g x (hst ▸ hg) }

/-- The code awaits a join. -/
theorem of_join {w : ℕ} {s : State} {t : Spread A V R} {m : A → V}
    (hrun : σ.workers.running w = some f) (hacts : Spread.Acts f .join σ.code σ.mem t m)
    (h : Moves T σ.workers (.join w) s) : Follows T ⟨s, t, m⟩ := by
  obtain ⟨hturns, hdistinct⟩ := hacts.turns hσ.distinct ⟨by simp, by simp⟩
  generalize hst : t.stage = st at hturns
  cases hturns with
  | join hf =>
    have hno : ∀ g, ¬ Forks σ.workers (.join w) g := by
      rintro g ⟨v, c, hv, -⟩
      cases hv
    have hstage : ∀ g, g ≠ f → t.stage g = σ.code.stage g := by
      intro g hg
      rw [hst, Function.update_of_ne hg]
    have hself : t.stage f = some (.both true) := by rw [hst, Function.update_self]
    refine ⟨inv_of_moves h hσ.inv (hσ.few h), hdistinct, fun g => ?_, fun g c hc => ?_,
      fun g hg => ?_, fun g hg => ?_, fun g x hg => ?_⟩
    · rw [ended_iff_of_quiet h hσ.inv rfl (by simp) (by simp) (by simp), hσ.live g]
      by_cases hgf : g = f
      · rw [hgf, hself, hf]
        simp
      · rw [hstage g hgf]
    · exact hσ.invoked g c ((hacts.invoked hc).resolve_right (by simp))
    · by_cases hgf : g = f
      · rw [hgf, hself] at hg
        cases hg
      · exact scope_of_moves h (hσ.scope g (hstage g hgf ▸ hg)) (hno g)
    · by_cases hgf : g = f
      · exact hgf ▸ joins_of_join h hrun
      · exact joins_of_moves h hσ.inv (hσ.joined g (hstage g hgf ▸ hg)) (hno g)
    · refine (debt_of_moves h (hno g)).trans ?_
      by_cases hgf : g = f
      · obtain rfl : Stage.both true = x := by
          rw [hgf, hself] at hg
          exact Option.some.inj hg
        exact hgf ▸ hσ.debt f (.both false) hf
      · exact hσ.debt g x (hstage g hgf ▸ hg)

/-- The code returns. -/
theorem of_ret {w : ℕ} {s : State} {t : Spread A V R} {m : A → V}
    (hrun : σ.workers.running w = some f) (hacts : Spread.Acts f .ret σ.code σ.mem t m)
    (h : Moves T σ.workers (.ret w) s) : Follows T ⟨s, t, m⟩ := by
  obtain ⟨hturns, hdistinct⟩ := hacts.turns hσ.distinct ⟨by simp, by simp⟩
  generalize hst : t.stage = st at hturns
  cases hturns with
  | ret hf =>
    have hno : ∀ g, ¬ Forks σ.workers (.ret w) g := by
      rintro g ⟨v, c, hv, -⟩
      cases hv
    have hstage : ∀ g, g ≠ f → t.stage g = σ.code.stage g := by
      intro g hg
      rw [hst, Function.update_of_ne hg]
    have hself : t.stage f = none := by rw [hst, Function.update_self]
    have hne : ∀ g x, t.stage g = some x → g ≠ f := by
      rintro g x hg rfl
      cases hself.symm.trans hg
    refine ⟨inv_of_moves h hσ.inv (hσ.few h), hdistinct, fun g => ?_, fun g c hc => ?_,
      fun g hg => ?_, fun g hg => ?_, fun g x hg => ?_⟩
    · rw [ended_iff_of_ret h hσ.inv hrun, hσ.live g]
      by_cases hgf : g = f
      · simp [hgf, hself]
      · simp [hgf, hstage g hgf]
    · exact hσ.invoked g c ((hacts.invoked hc).resolve_right (by simp))
    · exact scope_of_moves h (hσ.scope g (hstage g (hne g _ hg) ▸ hg)) (hno g)
    · exact joins_of_moves h hσ.inv (hσ.joined g (hstage g (hne g _ hg) ▸ hg)) (hno g)
    · exact (debt_of_moves h (hno g)).trans (hσ.debt g x (hstage g (hne g _ hg) ▸ hg))

omit [DecidableEq A] in
/-- Only new tasks are invoked, and by their parents. -/
theorem new_of_invoke {w c : ℕ} {a : Runtime.Act} {s : State} (h : Moves T σ.workers a s)
    (hrun : σ.workers.running w = some f) (ha : a = .fork w c ∨ a = .call w c) :
    σ.code.stage c = none ∧ T.tag c ≠ .root ∧ T.parent c = f := by
  have hpc := (running_eq_some.mp hrun).1
  have hended : ∀ {g : ℕ}, (σ.workers.task g).loc = .unborn → σ.code.stage g = none := by
    intro g hg
    refine (hσ.live g).mp ?_
    rw [State.loc, hg]
    rfl
  rcases ha with rfl | rfl
  · cases h with
    | fork hg haw hl ht hp =>
      exact ⟨hended hl, by simp [ht], hp.trans (Pc.run.inj (hg.symm.trans hpc))⟩
  · cases h with
    | call hg haw hl ht hp =>
      exact ⟨hended hl, by simp [ht], hp.trans (Pc.run.inj (hg.symm.trans hpc))⟩

omit [DecidableEq A] in
/-- What the code does by an action of its worker is in order. -/
theorem orderly_of_deed {w : ℕ} {a : Runtime.Act} {s : State} (hdeed : a.deed = some (w, μ))
    (hrun : σ.workers.running w = some f) (h : Moves T σ.workers a s) : σ.code.Orderly f μ where
  new c hc := by
    subst hc
    exact (hσ.new_of_invoke h hrun (Act.deed_eq_invoke hdeed)).1
  joined hμ := by
    subst hμ
    cases a <;> cases hdeed

/-- The code invokes a new task. -/
theorem of_invoke {w c : ℕ} {a : Runtime.Act} {s : State} {t : Spread A V R} {m : A → V}
    (hrun : σ.workers.running w = some f) (hacts : Spread.Acts f (.invoke c) σ.code σ.mem t m)
    (hdeed : a.deed = some (w, .invoke c)) (h : Moves T σ.workers a s) :
    Follows T ⟨s, t, m⟩ := by
  have ha := Act.deed_eq_invoke hdeed
  obtain ⟨hnew, ht, hp⟩ := hσ.new_of_invoke h hrun ha
  have hno : ∀ g, g ≠ f → ¬ Forks σ.workers a g := fun g hg => not_forks_of_deed hdeed hrun hg
  obtain ⟨hturns, hdistinct⟩ := hacts.turns hσ.distinct ⟨by simp [hnew], by simp⟩
  have hfstage : σ.code.stage f ≠ none := hturns.ne_none
  have hcf : c ≠ f := by
    rintro rfl
    exact hfstage hnew
  -- what becomes of the task that invokes
  obtain ⟨x, y, hfx, hst, hy, hxy⟩ : ∃ x y, σ.code.stage f = some x ∧
      t.stage = Function.update (Function.update σ.code.stage f (some y)) c (some .here) ∧
      (y ≠ .here ∧ y ≠ .both true) ∧ y.children = x.children + 1 := by
    generalize hst : t.stage = st at hturns
    cases hturns with
    | left hf => exact ⟨.here, .half, hf, rfl, by simp, rfl⟩
    | right hf => exact ⟨.half, .both false, hf, rfl, by simp, rfl⟩
  have hstage : ∀ g, g ≠ c → g ≠ f → t.stage g = σ.code.stage g := by
    intro g hgc hgf
    rw [hst, Function.update_of_ne hgc, Function.update_of_ne hgf]
  have hself : t.stage f = some y := by
    rw [hst, Function.update_of_ne hcf.symm, Function.update_self]
  have hchild : t.stage c = some .here := by rw [hst, Function.update_self]
  have hcended : (σ.workers.loc c).ended = true := (hσ.live c).mpr hnew
  refine ⟨inv_of_moves h hσ.inv (hσ.few h), hdistinct, fun g => ?_, fun g d hd => ?_,
    fun g hg => ?_, fun g hg => ?_, fun g z hg => ?_⟩
  · rw [ended_iff_of_invoke h hσ.inv ha, hσ.live g]
    by_cases hgc : g = c
    · simp [hgc, hchild]
    · by_cases hgf : g = f
      · simp [hgf, hself, hfx]
      · simp [hgc, hstage g hgc hgf]
  · rcases hacts.invoked hd with hd | ⟨rfl, hd⟩
    · exact hσ.invoked g d hd
    · cases hd
      exact ⟨ht, hp⟩
  · by_cases hgc : g = c
    · subst hgc
      exact scope_of_moves h ((hσ.inv.accounts g).ended hcended) (hno g hcf)
    · by_cases hgf : g = f
      · rw [hgf, hself] at hg
        exact absurd (Option.some.inj hg) hy.1
      · exact scope_of_moves h (hσ.scope g (hstage g hgc hgf ▸ hg)) (hno g hgf)
  · by_cases hgc : g = c
    · rw [hgc, hchild] at hg
      cases hg
    · by_cases hgf : g = f
      · rw [hgf, hself] at hg
        exact absurd (Option.some.inj hg) hy.2
      · exact joins_of_moves h hσ.inv (hσ.joined g (hstage g hgc hgf ▸ hg)) (hno g hgf)
  · by_cases hgc : g = c
    · subst hgc
      have hle := debt_of_moves h (hno g hcf)
      rw [hσ.inv.debt_of_ended hcended] at hle
      exact hle.trans (Nat.zero_le _)
    · by_cases hgf : g = f
      · obtain rfl : y = z := by
          rw [hgf, hself] at hg
          exact Option.some.inj hg
        rw [hgf, hxy]
        exact (debt_of_fork h f).trans (Nat.succ_le_succ (hσ.debt f x hfx))
      · exact (debt_of_moves h (hno g hgf)).trans (hσ.debt g z (hstage g hgc hgf ▸ hg))

end Follows

/-- **The step lemma.** -/
theorem follows_of_goes (h : Goes T σ a σ') (hσ : Follows T σ) : Follows T σ' := by
  cases h with
  | sched hspawn hdeed h => exact hσ.of_sched h hspawn hdeed
  | @code a s w f μ t m hdeed hrun hacts h =>
    cases μ with
    | access => cases a <;> cases hdeed
    | collect => cases a <;> cases hdeed
    | invoke c => exact hσ.of_invoke hrun hacts hdeed h
    | join => exact hσ.of_join hrun hacts (Act.deed_eq_join hdeed ▸ h)
    | ret => exact hσ.of_ret hrun hacts (Act.deed_eq_ret hdeed ▸ h)
  | access hrun hacts => exact hσ.of_access hacts
  | collect hrun hacts => exact hσ.of_collect hrun hacts

omit [DecidableEq A] in
/-- It holds when the root is created. -/
theorem follows_init {r : ℕ} (hr : T.tag r = .root) (p : Prog A V R) (m : A → V) :
    Follows T (init r p m) := by
  have hmoves : Moves T .init (.spawn r) (State.init.place r .outside) := .spawn rfl hr
  have htask : ∀ g, ((State.init.place r .outside).task g).scope = false ∧
      ((State.init.place r .outside).task g).debt = 0 := by
    intro g
    by_cases hg : g = r
    · rw [hg, State.place_self]
      exact ⟨rfl, rfl⟩
    · rw [State.place_of_ne _ _ _ _ hg]
      exact ⟨rfl, rfl⟩
  refine ⟨inv_of_moves hmoves inv_init fun g => ?_, trivial, fun g => ?_, fun g c hc => hc.elim,
    fun g _ => (htask g).1, fun g _ => Or.inl (htask g).1, fun g x _ => ?_⟩
  · have hle : ((State.init.place r .outside).task g).taken ≤ 0 :=
      (htask g).2 ▸ Nat.le_add_right _ _
    exact Nat.lt_of_le_of_lt hle (by decide)
  · change ((State.init.place r .outside).loc g).ended = true ↔ (Spread.here r p).stage g = none
    rw [State.loc_place]
    by_cases hg : g = r
    · simp [hg, Spread.stage, Loc.ended]
    · simp [hg, Spread.stage, Loc.ended, State.init, State.loc, Task.new]
  · exact (htask g).2 ▸ Nat.zero_le _

/-- **The run lemma.** -/
theorem follows_of_run {r : ℕ} (hr : T.tag r = .root) {p : Prog A V R} {m : A → V} {as : List Act}
    (h : (machine T).Run Machine.free (init r p m) as σ) : Follows T σ := by
  refine Machine.Run.invariant (P := Follows T) ?_ (follows_init hr p m) h
  intro σ a σ' hσ _ hstep
  exact follows_of_goes (goes_of_step hstep) hσ

/-! ## What the workers have done -/

/-- What the code does in one step is a step of the program, or none. -/
theorem steps_of_goes (h : Goes T σ a σ') (hσ : Follows T σ) :
    Prog.Steps σ.code.erase σ.mem σ'.code.erase σ'.mem := by
  cases h with
  | sched hspawn hdeed h => exact .refl
  | code hdeed hrun hacts h => exact hacts.steps (hσ.orderly_of_deed hdeed hrun h)
  | access hrun hacts => exact hacts.steps ⟨by simp, by simp⟩
  | collect hrun hacts => exact hacts.steps (hσ.orderly hrun hacts)

/-- What the workers have done is what an interleaving does. -/
theorem steps_of_run {r : ℕ} (hr : T.tag r = .root) {p : Prog A V R} {m : A → V} {as : List Act}
    (h : (machine T).Run Machine.free (init r p m) as σ) :
    Prog.Steps p m σ.code.erase σ.mem := by
  have hrun : Follows T σ ∧ Prog.Steps p m σ.code.erase σ.mem := by
    refine Machine.Run.invariant (P := fun σ => Follows T σ ∧ Prog.Steps p m σ.code.erase σ.mem)
      ?_ ⟨follows_init hr p m, .refl⟩ h
    rintro σ a σ' ⟨hσ, hsteps⟩ - hstep
    have hgoes := goes_of_step hstep
    exact ⟨follows_of_goes hgoes hσ, hsteps.trans (steps_of_goes hgoes hσ)⟩
  exact hrun.2

/-- The root returns at the end of an interleaving. -/
theorem steps_of_returned {r : ℕ} (hr : T.tag r = .root) {p : Prog A V R} {m : A → V}
    {as : List Act} (h : (machine T).Run Machine.free (init r p m) as σ) {x : R}
    (hx : σ.code.returned = some x) : Prog.Steps p m (.ret x) σ.mem := by
  have hsteps := steps_of_run hr h
  rw [Spread.exists_finished_of_returned hx] at hsteps
  exact hsteps

/-- **The workers interleave the program.** However many there are, and however they steal: what
they have done to the memory, and what is left to do, is what an interleaving of the program's
branches does and leaves, so that nobody goes on from a join before both branches have returned. A
safe program can be completed from wherever the workers stand; once the root has returned, what it
has returned and the memory are those of the sequential run. -/
theorem interleaves_of_run {r : ℕ} (hr : T.tag r = .root) {p : Prog A V R} {m : A → V}
    {as : List Act} (h : (machine T).Run Machine.free (init r p m) as σ) :
    Prog.Steps p m σ.code.erase σ.mem ∧
      ∀ rd wr Q, p.Safe rd wr Q → ∃ x m', p.run m = some (x, m') ∧
        Prog.Steps σ.code.erase σ.mem (.ret x) m' ∧
        ∀ y, σ.code.returned = some y → y = x ∧ σ.mem = m' := by
  have hsteps := steps_of_run hr h
  refine ⟨hsteps, fun rd wr Q hp => ?_⟩
  obtain ⟨x, m', hrun, hrest⟩ := hp.complete hsteps
  refine ⟨x, m', hrun, hrest, fun y hy => ?_⟩
  have hend := (hp.result (steps_of_returned hr h hy)).symm.trans hrun
  cases hend
  exact ⟨rfl, rfl⟩

/-! ### Two branches -/

end Loaded

/-- Task `c` is invoked by the task whose number says how often 2 divides `c`. -/
def Tree.ruler : Tree where
  tag c := if c = 0 then .root else if c / c.gcd (2 ^ c) % 4 = 1 then .fork else .call
  parent c := Nat.log2 (c.gcd (2 ^ c))
  parent_lt c hc := by
    have hpos : c ≠ 0 := by
      rintro rfl
      exact hc rfl
    have hgcd : c.gcd (2 ^ c) ≠ 0 := Nat.gcd_ne_zero_left hpos
    have hle : c.gcd (2 ^ c) ≤ c := Nat.gcd_le_left _ (Nat.pos_of_ne_zero hpos)
    exact (Nat.log2_lt hgcd).mpr (hle.trans_lt Nat.lt_two_pow_self)

namespace Loaded

/-- Read two cells in parallel, and add. -/
def addCells : Prog ℕ ℕ ℕ := .par (.read 0 .ret) (.read 1 .ret) fun x y => .ret (x + y)

/-- Adding two cells is safe. -/
theorem safe_addCells : addCells.Safe {0, 1} ∅ fun _ => True :=
  ⟨{0}, ∅, {1}, ∅, fun _ => True, fun _ => True, ⟨by rintro a (rfl | rfl) <;> simp, by simp⟩,
    by simp, by simp, ⟨rfl, fun _ => trivial⟩, ⟨rfl, fun _ => trivial⟩, fun _ _ _ _ => trivial⟩

/-- The root forks its left branch, is stolen, and calls the right one; it loses the join, and the
left branch goes on with it. -/
def addRun : List Act :=
  [.act (.schedule 0 0), .act (.popAll 0), .act (.resume 0), .act (.fork 0 1), .act (.steal 1 0),
    .act (.step 1), .act (.step 1), .act (.call 1 3), .access 0, .access 1, .act (.ret 1),
    .act (.join 1), .act (.step 1), .act (.step 1), .act (.step 1), .act (.ret 0), .act (.step 0),
    .act (.step 0), .collect 0, .act (.ret 0)]

/-- Two workers add two cells. -/
theorem interleaves_of_run_add : ∃ σ : Loaded ℕ ℕ ℕ, (machine .ruler).Run Machine.free
    (init 0 addCells fun i => i + 1) addRun σ ∧ σ.code.returned = some 3 ∧
      ∃ x m', addCells.run (fun i => i + 1) = some (x, m') ∧ x = 3 ∧ σ.mem = m' := by
  have hexec : ((machine .ruler).exec Machine.free (init 0 addCells fun i => i + 1) addRun).map
      (·.code.returned) = some (some 3) := by decide +kernel
  obtain ⟨σ, hσ, hreturned⟩ := Option.map_eq_some_iff.mp hexec
  have hrun := Machine.run_iff_exec.mpr hσ
  obtain ⟨-, hsafe⟩ := interleaves_of_run (r := 0) rfl hrun
  obtain ⟨x, m', hseq, -, hend⟩ := hsafe _ _ _ safe_addCells
  obtain ⟨hx, hm⟩ := hend 3 hreturned
  exact ⟨σ, hrun, hreturned, x, m', hseq, hx.symm, hm⟩

end Loaded

end Libfork.Runtime
