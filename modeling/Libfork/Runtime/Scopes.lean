import Libfork.Runtime.Steals

/-!
# What a step does to a scope

* `Touched` — what any step but a fork does to one task, and **`touched_of_moves`**.
* `Task.debt` — how often the continuation was, or may yet be, taken since the last join; only a
  fork raises it.
* `State.Joins` — the task is outside its scopes, or on its way there; only a fork ends that.
* `ended_keep`, `ended_invoke` — a task's code begins once, where it is invoked.

Source: as in the model.
-/

namespace Libfork.Runtime

open Libfork.Found Libfork.Join

/-! ## One task -/

/-- What happens to one task as long as it does not fork. -/
inductive Touched : Task → Task → Prop
  | same {t : Task} : Touched t t
  | place {t : Task} (l : Loc) : Touched t { t with loc := l }
  | frame {t : Task} (fr : Frame) : Touched t { t with frame := fr }
  | resumed {t : Task} : Touched t { t with awaiting := none }
  | take {t : Task} : Touched t t.take
  | leave {t : Task} : Touched t t.leave
  | reset {t : Task} : Touched t t.reset
  | popped {t : Task} (c : ℕ) : Touched t (t.popped c)
  | decremented {t : Task} (c : ℕ) : Touched t (t.decremented c)
  | trans {t t' t'' : Task} (h : Touched t t') (h' : Touched t' t'') : Touched t t''

/-- How often the continuation was taken since the last join, and whether it may be again. -/
def Task.debt (t : Task) : ℕ := t.taken + (t.awaiting.any fun k => !k.taken).toNat

section touched

variable {t t' : Task}

/-- Outside its scopes a task stays outside, until it forks. -/
theorem Touched.scope (h : Touched t t') (ht : t.scope = false) : t'.scope = false := by
  induction h with
  | take =>
    unfold Task.take
    split
    · exact ht
    · split_ifs <;> exact ht
  | leave => rfl
  | reset => rfl
  | trans _ _ ih ih' => exact ih' (ih ht)
  | _ => exact ht

/-- A take does not change what a task owes. -/
theorem Task.debt_take (t : Task) : t.take.debt = t.debt := by
  unfold Task.take
  split
  · rfl
  · next k hk =>
    split_ifs with htaken
    · rfl
    · simp [debt, hk, htaken]

/-- What was taken counts no more than once. -/
theorem Touched.debt_le (h : Touched t t') : t'.debt ≤ t.debt := by
  induction h with
  | @take t => exact (Task.debt_take t).le
  | resumed => simp [Task.debt]
  | leave => simp [Task.debt, Task.leave]
  | reset => simp [Task.debt, Task.leave, Task.reset]
  | trans _ _ ih ih' => exact ih'.trans ih
  | _ => exact Nat.le_refl _

/-- A fork adds one to it. -/
theorem Task.debt_forks {c : ℕ} (haw : t.awaiting = none) : (t.forks c).debt = t.debt + 1 := by
  simp [debt, forks, haw]

end touched

/-! ## All tasks -/

/-- No task forks. -/
def AllTouched (s s' : State) : Prop := ∀ g, Touched (s.task g) (s'.task g)

namespace AllTouched

variable {s s' : State} {f w : ℕ} {h : Task → Task}

/-- Nothing is touched. -/
theorem refl : AllTouched s s := fun _ => .same

variable (hs : AllTouched s s')

include hs

/-- A worker goes on. -/
theorem goto (w : ℕ) (pc : Pc) : AllTouched s (s'.goto w pc) := hs

/-- A deque changes. -/
theorem setDeque (w : ℕ) (q : List ℕ) : AllTouched s (s'.setDeque w q) := hs

/-- A task is touched as a task can be. -/
theorem modify (hh : Touched (s'.task f) (h (s'.task f))) : AllTouched s (s'.modify f h) := by
  intro g
  by_cases hg : g = f
  · rw [hg, State.modify_self]
    exact (hs f).trans hh
  · rw [State.modify_of_ne _ _ _ _ hg]
    exact hs g

/-- A task gets a new place. -/
theorem place (f : ℕ) (l : Loc) : AllTouched s (s'.place f l) := hs.modify (.place l)

/-- A worker enters a task. -/
theorem enter (w f : ℕ) : AllTouched s (s'.enter w f) := hs.place f _

/-- The newest of a deque is taken. -/
theorem takeHead (w : ℕ) : AllTouched s (s'.takeHead w) := by
  unfold State.takeHead
  split
  · exact hs
  · exact hs.modify .take

end AllTouched

variable {T : Tree} {s s' : State} {a : Act} {f : ℕ}

/-- **A step touches every task, after it has forked at most one.** -/
theorem touched_of_moves (h : Moves T s a s') :
    AllTouched s s' ∨ ∃ w f c, a = .fork w c ∧ s.running w = some f ∧
      AllTouched (s.modify f (Task.forks · c)) s' := by
  have hs : AllTouched s s := .refl
  cases h with
  | @fork w f c hpc haw hl ht hp =>
    refine Or.inr ⟨w, f, c, rfl, running_eq_some.mpr ⟨hpc, haw⟩, ?_⟩
    exact AllTouched.enter (.place (.refl (s := s.modify f (Task.forks · c))) f (.queued w)) w c
  | @spawn r => exact Or.inl (hs.place r _)
  | @schedule f w => exact Or.inl (hs.place f (.submitted w))
  | popAll => exact Or.inl hs
  | @resume w f => exact Or.inl (hs.enter w f)
  | @steal w v f q =>
    exact Or.inl (((hs.modify (f := f) .take).place f (.stolen w)).goto w (.stolen f))
  | @call w f c => exact Or.inl ((hs.place f _).enter w c)
  | @retRoot w f => exact Or.inl (hs.place f _)
  | @retCall w f => exact Or.inl ((hs.place f _).enter w _)
  | @retFork w f => exact Or.inl (hs.place f _)
  | @shortcut w f => exact Or.inl (hs.modify .leave)
  | joinCall => exact Or.inl hs
  | @switch w f => exact Or.inl (((hs.place f _).goto w _).takeHead w)
  | @addSteal w f => exact Or.inl ((hs.modify (.frame _)).enter w f)
  | @awaitResume w f => exact Or.inl (hs.modify .resumed)
  | @pop w c d q =>
    exact Or.inl ((((hs.setDeque w q).place c .dead).modify (.popped c)).enter w _)
  | popNone => exact Or.inl hs
  | @decLast w c =>
    exact Or.inl ((((hs.place c .dead).modify (.decremented c)).modify .reset).enter w _)
  | @dec w c => exact Or.inl (((hs.place c .dead).modify (.decremented c)).goto w _)
  | yield => exact Or.inl hs
  | @ready w f => exact Or.inl ((hs.modify .reset).goto w _)
  | notReady => exact Or.inl hs
  | @win w f => exact Or.inl (((hs.modify (.frame _)).modify .reset).goto w _)
  | @lose w f =>
    exact Or.inl ((((hs.modify (.frame _)).place f .joining).goto w _).takeHead w)
  | release => exact Or.inl hs
  | @selfPop w d q => exact Or.inl (((hs.setDeque w q).modify (.frame _)).enter w d)
  | selfNone => exact Or.inl hs

/-- The task that the code of `w` is, forks. -/
def Forks (s : State) (a : Act) (f : ℕ) : Prop := ∃ w c, a = .fork w c ∧ s.running w = some f

/-- A scope begins with a fork. -/
theorem scope_of_moves (h : Moves T s a s') (hf : (s.task f).scope = false) (hno : ¬ Forks s a f) :
    (s'.task f).scope = false := by
  rcases touched_of_moves h with htouched | ⟨w, g, c, rfl, hrun, htouched⟩
  · exact (htouched f).scope hf
  · have hfg : f ≠ g := fun heq => hno ⟨w, c, rfl, heq ▸ hrun⟩
    refine (htouched f).scope ?_
    rwa [State.modify_of_ne _ _ _ _ hfg]

/-- Only a fork lets a continuation be taken once more. -/
theorem debt_of_moves (h : Moves T s a s') (hno : ¬ Forks s a f) :
    (s'.task f).debt ≤ (s.task f).debt := by
  rcases touched_of_moves h with htouched | ⟨w, g, c, rfl, hrun, htouched⟩
  · exact (htouched f).debt_le
  · have hfg : f ≠ g := fun heq => hno ⟨w, c, rfl, heq ▸ hrun⟩
    have hle := (htouched f).debt_le
    rwa [State.modify_of_ne _ _ _ _ hfg] at hle

/-- A step adds one to what a task owes at most. -/
theorem debt_of_fork (h : Moves T s a s') (f : ℕ) :
    (s'.task f).debt ≤ (s.task f).debt + 1 := by
  by_cases hno : Forks s a f
  · rcases touched_of_moves h with htouched | ⟨w, g, c, rfl, hrun, htouched⟩
    · exact (htouched f).debt_le.trans (Nat.le_succ _)
    · obtain ⟨w', c', hact, hrun'⟩ := hno
      cases hact
      obtain rfl : g = f := Option.some.inj (hrun.symm.trans hrun')
      have hle := (htouched g).debt_le
      rwa [State.modify_self, Task.debt_forks (running_eq_some.mp hrun).2] at hle
  · exact (debt_of_moves h hno).trans (Nat.le_succ _)

/-! ## The way of a handle -/

/-- How the handle to `f` moves in one step, and what a join that is left brings. -/
inductive Handed (a : Act) (f : ℕ) (t' : Task) : Loc → Loc → Prop
  | same {l : Loc} : Handed a f t' l l
  | spawned (h : a = .spawn f) : Handed a f t' .unborn .outside
  | invoked {w : ℕ} (h : a = .fork w f ∨ a = .call w f) : Handed a f t' .unborn (.run w)
  | returned {w : ℕ} {l : Loc} (h : a = .ret w) (hl : l.ended = true) : Handed a f t' (.run w) l
  | finished {w : ℕ} : Handed a f t' (.final w) .dead
  | joined {w : ℕ} (hscope : t'.scope = false) : Handed a f t' .joining (.run w)
  | moved {l l' : Loc} (hl : l.ended = false) (hl' : l'.ended = false) (hj : l ≠ .joining) :
      Handed a f t' l l'

/-- **Every step hands tasks on in one of these ways.** -/
theorem handed_of_moves (h : Moves T s a s') (hI : Inv T s) (f : ℕ) :
    Handed a f (s'.task f) (s.loc f) (s'.loc f) := by
  have hup : ∀ {loc : ℕ → Loc} {g : ℕ} {l : Loc},
      (f = g → Handed a f (s'.task f) (s.loc f) l) → Handed a f (s'.task f) (s.loc f) (loc f) →
        Handed a f (s'.task f) (s.loc f) (Function.update loc g l f) := by
    intro loc g l hg hrest
    by_cases hfg : f = g
    · rw [hfg, Function.update_self]
      exact hfg ▸ hg hfg
    · rwa [Function.update_of_ne hfg]
  have hmoved : ∀ {g : ℕ} {l l' : Loc}, s.loc g = l → l.ended = false → l'.ended = false →
      l ≠ .joining → f = g → Handed a f (s'.task f) (s.loc f) l' := by
    rintro g l l' hloc hl hl' hj rfl
    exact .moved (hloc ▸ hl) hl' (hloc ▸ hj)
  have hfinished : ∀ {g w : ℕ}, s.loc g = .final w → f = g →
      Handed a f (s'.task f) (s.loc f) .dead := by
    rintro g w hloc rfl
    exact hloc ▸ .finished
  have hcode : ∀ {w g : ℕ}, s.pc w = .run g → s.loc g = .run w := by
    intro w g hpc
    exact (hI.placed.run w g).mp (by rw [hpc]; rfl)
  cases h with
  | @spawn r hl ht =>
    rw [State.loc_place]
    refine hup ?_ .same
    rintro rfl
    exact (show s.loc f = .unborn from hl) ▸ .spawned rfl
  | @schedule g w hl =>
    rw [State.loc_schedule]
    exact hup (hmoved (show s.loc g = .outside from hl) rfl rfl (by simp)) .same
  | popAll => exact .same
  | @resume w g fs hpc htodo =>
    have hloc := (hI.placed.submitted w g).mp (Or.inl (by simp [htodo]))
    rw [State.loc_resume]
    exact hup (hmoved hloc rfl rfl (by simp)) .same
  | @steal w v g q hpc htodo hq =>
    have hloc := (hI.placed.queued v g).mp (by simp [hq])
    simp only [State.steal, State.loc_goto, State.loc_place, State.loc_take, State.loc_setDeque]
    exact hup (hmoved hloc rfl rfl (by simp)) .same
  | @fork w g c hpc haw hl ht hp =>
    simp only [State.fork, State.loc_enter, State.loc_place, State.loc_forks, State.loc_setDeque]
    refine hup ?_ (hup (hmoved (hcode hpc) rfl rfl (by simp)) .same)
    rintro rfl
    exact (show s.loc f = .unborn from hl) ▸ .invoked (Or.inl rfl)
  | @call w g c hpc haw hl ht hp =>
    simp only [State.call, State.loc_enter, State.loc_place]
    refine hup ?_ (hup (hmoved (hcode hpc) rfl rfl (by simp)) .same)
    rintro rfl
    exact (show s.loc f = .unborn from hl) ▸ .invoked (Or.inr rfl)
  | @retRoot w g hpc haw hscope ht =>
    rw [State.loc_goto, State.loc_place]
    refine hup ?_ .same
    rintro rfl
    exact hcode hpc ▸ .returned rfl rfl
  | @retCall w g hpc haw hscope ht =>
    have hparent := hI.calling ht (hI.alive_of_code (w := w) (by rw [hpc]; rfl))
    rw [State.loc_enter, State.loc_place]
    refine hup (hmoved hparent rfl rfl (by simp)) (hup ?_ .same)
    rintro rfl
    exact hcode hpc ▸ .returned rfl rfl
  | @retFork w g hpc haw hscope ht =>
    rw [State.loc_goto, State.loc_place]
    refine hup ?_ .same
    rintro rfl
    exact hcode hpc ▸ .returned rfl rfl
  | shortcut => simp only [State.loc_leave]; exact .same
  | joinCall => exact .same
  | @switch w g hpc haw =>
    simp only [State.switch, State.loc_takeHead, State.loc_goto, State.loc_place]
    exact hup (hmoved (hcode hpc) rfl rfl (by simp)) .same
  | @addSteal w g hpc =>
    have hloc := (hI.placed.stolen w g).mp hpc
    simp only [State.loc_enter, State.loc_addSteal]
    exact hup (hmoved hloc rfl rfl (by simp)) .same
  | awaitResume => simp only [State.loc_awaiting]; exact .same
  | @pop w c d q hpc hq =>
    have hline := hI.lined w
    rw [hpc, hq] at hline
    obtain rfl : d = T.parent c := (lined_pop hline.1 hline.2).1
    have hparent := (hI.placed.queued w (T.parent c)).mp (by simp [hq])
    have hloc := (hI.placed.final w c).mp (by rw [hpc]; rfl)
    simp only [State.loc_enter, State.loc_popped, State.loc_place, State.loc_setDeque]
    exact hup (hmoved hparent rfl rfl (by simp)) (hup (hfinished hloc) .same)
  | popNone => exact .same
  | @decLast w c hpc hold =>
    have hparent := (hI.last hpc hold).1
    have hloc := (hI.placed.final w c).mp (by rw [hpc]; rfl)
    simp only [State.loc_enter, State.loc_reset, State.loc_decremented, State.loc_place]
    refine hup ?_ (hup (hfinished hloc) .same)
    rintro rfl
    rw [hparent]
    refine .joined ?_
    rw [State.enter_self, State.modify_self]
    rfl
  | @dec w c hpc hold =>
    have hloc := (hI.placed.final w c).mp (by rw [hpc]; rfl)
    simp only [State.loc_goto, State.loc_decremented, State.loc_place]
    exact hup (hfinished hloc) .same
  | yield => exact .same
  | ready => simp only [State.loc_goto, State.loc_reset]; exact .same
  | notReady => exact .same
  | win => simp only [State.loc_goto, State.loc_reset, State.loc_frame]; exact .same
  | @lose w g hpc hne =>
    have hloc := (hI.placed.run w g).mp (by rw [hpc]; rfl)
    simp only [State.loc_takeHead, State.loc_goto, State.loc_place, State.loc_frame]
    exact hup (hmoved hloc rfl rfl (by simp)) .same
  | release => exact .same
  | @selfPop w d q hpc hq =>
    have hloc := (hI.placed.queued w d).mp (by simp [hq])
    simp only [State.loc_enter, State.loc_addSteal, State.loc_setDeque]
    exact hup (hmoved hloc rfl rfl (by simp)) .same
  | selfNone => exact .same

/-! ## Where a task's code begins and ends -/

/-- A task whose code is over, or has not begun, stays so until it is invoked. -/
theorem ended_keep (h : Moves T s a s') (hI : Inv T s) (hf : (s.loc f).ended = true)
    (hspawn : a ≠ .spawn f) (hfork : ∀ w, a ≠ .fork w f) (hcall : ∀ w, a ≠ .call w f) :
    (s'.loc f).ended = true := by
  generalize hl : s.loc f = l at hf
  generalize hl' : s'.loc f = l'
  have hhanded := handed_of_moves h hI f
  rw [hl, hl'] at hhanded
  cases hhanded with
  | same => exact hf
  | spawned ha => exact absurd ha hspawn
  | @invoked w ha => exact (ha.elim (hfork w) (hcall w)).elim
  | returned ha hended => exact hended
  | finished => rfl
  | joined => cases hf
  | moved hold => cases hold.symm.trans hf

/-- The code of an invoked task begins. -/
theorem ended_invoke (h : Moves T s a s') {w c : ℕ} (ha : a = .fork w c ∨ a = .call w c) :
    (s'.loc c).ended = false := by
  rcases ha with rfl | rfl
  · cases h with
    | fork => simp [State.fork, Loc.ended]
  · cases h with
    | call => simp [State.call, Loc.ended]

/-- The code of a task that returns is over. -/
theorem ended_ret (h : Moves T s (.ret w) s') (hrun : s.running w = some f) :
    (s'.loc f).ended = true := by
  have hpc := (running_eq_some.mp hrun).1
  have hsame : ∀ {g : ℕ}, s.pc w = .run g → g = f := by
    intro g hg
    exact Pc.run.inj (hg.symm.trans hpc)
  cases h with
  | retRoot hg =>
    obtain rfl := hsame hg
    simp [Loc.ended]
  | @retCall v g hg haw hscope ht =>
    obtain rfl : g = f := hsame hg
    have hlt := T.parent_lt g (by simp [ht])
    rw [State.loc_enter, State.loc_place, Function.update_of_ne hlt.ne', Function.update_self]
    rfl
  | retFork hg =>
    obtain rfl := hsame hg
    simp [Loc.ended]

/-! ## Joins -/

/-- The task is outside its scopes, or at the join that ends one. -/
def State.Joins (s : State) (f : ℕ) : Prop :=
  (s.task f).scope = false ∨ (∃ w, s.pc w = .joinLoad f ∨ s.pc w = .joinSub f) ∨
    s.loc f = .joining

/-- A task that is on its way out of a scope gets out before it forks again. -/
theorem joins_of_moves (h : Moves T s a s') (hI : Inv T s) (hf : s.Joins f)
    (hno : ¬ Forks s a f) : s'.Joins f := by
  rcases hf with hscope | ⟨w, hpc⟩ | hloc
  · exact Or.inl (scope_of_moves h hscope hno)
  · by_cases hw : a.mover = some w
    · cases h with
      | @ready v g hload =>
        cases hw
        obtain rfl : g = f := by simpa [hload] using hpc
        exact Or.inl (by simp [Task.reset, Task.leave])
      | @notReady v g hload =>
        cases hw
        obtain rfl : g = f := by simpa [hload] using hpc
        exact Or.inr (Or.inl ⟨w, Or.inr (by simp)⟩)
      | @win v g hsub =>
        cases hw
        obtain rfl : g = f := by simpa [hsub] using hpc
        exact Or.inl (by simp [Task.reset, Task.leave])
      | @lose v g hsub =>
        cases hw
        obtain rfl : g = f := by simpa [hsub] using hpc
        exact Or.inr (Or.inr (by simp))
      | spawn => cases hw
      | schedule => cases hw
      | _ hidle =>
        cases hw
        simp [hidle] at hpc
    · have hother : s'.pc w = s.pc w := by
        apply pc_other h
        rintro v hv rfl
        exact hw hv
      exact Or.inr (Or.inl ⟨w, hother ▸ hpc⟩)
  · have hhanded := handed_of_moves h hI f
    rw [hloc] at hhanded
    generalize hl' : s'.loc f = l' at hhanded
    cases hhanded with
    | same => exact Or.inr (Or.inr hl')
    | joined hscope => exact Or.inl hscope
    | moved hl hl' hj => exact absurd rfl hj

/-- A join takes a task out of its scope, or on its way. -/
theorem joins_of_join (h : Moves T s (.join w) s') (hrun : s.running w = some f) : s'.Joins f := by
  have hpc := (running_eq_some.mp hrun).1
  cases h with
  | shortcut hg =>
    obtain rfl := Pc.run.inj (hg.symm.trans hpc)
    exact Or.inl (by simp [Task.leave])
  | joinCall hg =>
    obtain rfl := Pc.run.inj (hg.symm.trans hpc)
    exact Or.inr (Or.inl ⟨w, Or.inl (by simp)⟩)

/-- A task that runs has left the scopes it was on its way out of. -/
theorem Inv.scope_of_joins (hI : Inv T s) (hf : s.Joins f) (hpc : s.pc w = .run f) :
    (s.task f).scope = false := by
  have hloc := (hI.placed.run w f).mp (by rw [hpc]; rfl)
  rcases hf with hscope | ⟨v, hv⟩ | hjoining
  · exact hscope
  · have hloc' := (hI.placed.run v f).mp (Pc.code_eq_some.mpr (Or.inr hv))
    rw [hloc] at hloc'
    obtain rfl := Loc.run.inj hloc'
    simp [hpc] at hv
  · cases hloc.symm.trans hjoining

/-- Outside its scopes, a task that runs has no live children. -/
theorem Inv.no_child (hI : Inv T s) (hscope : (s.task f).scope = false) (hpc : s.pc w = .run f)
    {c : ℕ} (ht : T.tag c ≠ .root) (hp : T.parent c = f) : s.status c ≠ .alive := by
  intro hc
  have haccounts := hI.accounts f
  cases htag : T.tag c with
  | root => exact ht htag
  | call =>
    have hcalling := (haccounts.calling c).mpr ⟨htag, hp, hc⟩
    cases ((hI.placed.run w f).mp (by rw [hpc]; rfl)).symm.trans hcalling
  | fork =>
    have howed := (haccounts.owed c).mpr ⟨htag, hp, hc⟩
    rw [(haccounts.scope hscope).1] at howed
    exact Finset.notMem_empty c howed

end Libfork.Runtime
