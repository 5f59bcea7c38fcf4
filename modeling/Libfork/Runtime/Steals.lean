import Libfork.Runtime.SyncFork

/-!
# What a step leaves to the other workers

A step changes where one worker stands, and the steal counter of a task that no other worker runs.

* `State.steals` — the steal counters, and what each update does to them.
* `Act.mover` — the worker that takes the step.
* **`pc_other`**, **`steals_other`** — the others stand where they stood, and their tasks count as
  many steals as before.

Source: as in the model.
-/

namespace Libfork.Runtime

open Libfork.Found Libfork.Join

/-! ## The steal counters -/

namespace State

variable (s : State) (w f c g : ℕ) (pc : Pc) (q : List ℕ) (l : Loc) {h : Task → Task}

/-- Source: `frame.hpp`, `load_steals` -/
def steals (f : ℕ) : BitVec 16 := (s.task f).frame.loadSteals

@[simp] theorem steals_goto : (s.goto w pc).steals = s.steals := rfl
@[simp] theorem steals_setDeque : (s.setDeque w q).steals = s.steals := rfl

/-- The counters of the others stay as they are. -/
theorem steals_modify_of_ne (hg : g ≠ f) : (s.modify f h).steals g = s.steals g := by
  unfold steals
  rw [modify_of_ne _ _ _ _ hg]

/-- What leaves the counter of one task alone leaves all of them alone. -/
theorem steals_modify (hh : (h (s.task f)).frame.mSteal = (s.task f).frame.mSteal) :
    (s.modify f h).steals = s.steals := by
  funext g
  by_cases hg : g = f
  · unfold steals
    rw [hg, modify_self]
    exact hh
  · exact s.steals_modify_of_ne f g hg

@[simp] theorem steals_place : (s.place f l).steals = s.steals := s.steals_modify f rfl
@[simp] theorem steals_enter : (s.enter w f).steals = s.steals := s.steals_place f _
@[simp] theorem steals_leave : (s.modify f Task.leave).steals = s.steals := s.steals_modify f rfl

@[simp] theorem steals_forks : (s.modify f (Task.forks · c)).steals = s.steals :=
  s.steals_modify f rfl

@[simp] theorem steals_popped : (s.modify f (Task.popped · c)).steals = s.steals :=
  s.steals_modify f rfl

@[simp] theorem steals_decremented : (s.modify f (Task.decremented · c)).steals = s.steals :=
  s.steals_modify f rfl

@[simp] theorem steals_awaiting {k : Option Fork} :
    (s.modify f fun t => { t with awaiting := k }).steals = s.steals := s.steals_modify f rfl

@[simp] theorem steals_sub {n : BitVec 16} :
    (s.modify f fun t => { t with frame := t.frame.fetchSubJoins n }).steals = s.steals :=
  s.steals_modify f rfl

@[simp] theorem steals_take : (s.modify f Task.take).steals = s.steals := by
  apply steals_modify
  unfold Task.take
  split
  · rfl
  · split_ifs <;> rfl

@[simp] theorem steals_takeHead : (s.takeHead w).steals = s.steals := by
  unfold takeHead
  split
  · rfl
  · exact s.steals_take _

@[simp] theorem steals_reset_self : (s.modify f Task.reset).steals f = 0 := by
  unfold steals
  rw [modify_self]
  rfl

@[simp] theorem steals_addSteal_self : (s.modify f Task.addSteal).steals f = s.steals f + 1 := by
  unfold steals
  rw [modify_self]
  rfl

end State

/-! ## Who moves -/

/-- The worker that takes a step. -/
def Act.mover : Act → Option ℕ
  | .spawn _ => none
  | .schedule _ _ => none
  | .popAll w => some w
  | .resume w => some w
  | .steal w _ => some w
  | .fork w _ => some w
  | .call w _ => some w
  | .ret w => some w
  | .join w => some w
  | .switch w => some w
  | .step w => some w

variable {T : Tree} {s s' : State} {a : Act} {v : ℕ}

/-- The other workers stand where they stood. -/
theorem pc_other (h : Moves T s a s') (hv : ∀ w, a.mover = some w → v ≠ w) :
    s'.pc v = s.pc v := by
  cases h
  case spawn => rfl
  case schedule => rfl
  all_goals
    have hvw := hv _ rfl
    simp [State.switch, State.steal, State.fork, State.call, hvw]

/-- A task that waits for nothing that the step brings counts as many steals as before. -/
theorem steals_still (h : Moves T s a s') (hI : Inv T s) {f : ℕ}
    (hstolen : ∀ w, s.loc f ≠ .stolen w) (hqueued : ∀ w, s.loc f ≠ .queued w)
    (hjoining : s.loc f ≠ .joining) (hrun : ∀ w, a.mover = some w → s.loc f ≠ .run w) :
    s'.steals f = s.steals f := by
  have hne : ∀ {g l}, s.loc g = l → s.loc f ≠ l → f ≠ g := by
    rintro g l hg hl rfl
    exact hl hg
  cases h with
  | @addSteal w g hpc =>
      have hg := hne ((hI.placed.stolen w g).mp hpc) (hstolen w)
      rw [State.steals_enter, State.steals_modify_of_ne _ _ _ hg]
  | @decLast w c hpc hold =>
      have hg := hne (hI.last hpc hold).1 hjoining
      rw [State.steals_enter, State.steals_modify_of_ne _ _ _ hg, State.steals_decremented,
        State.steals_place]
  | @ready w g hpc heq =>
      have hg := hne ((hI.placed.run w g).mp (by rw [hpc]; rfl)) (hrun w rfl)
      rw [State.steals_goto, State.steals_modify_of_ne _ _ _ hg]
  | @win w g hpc heq =>
      have hg := hne ((hI.placed.run w g).mp (by rw [hpc]; rfl)) (hrun w rfl)
      rw [State.steals_goto, State.steals_modify_of_ne _ _ _ hg, State.steals_modify_of_ne _ _ _ hg]
  | @selfPop w d q hpc hq =>
      have hg := hne ((hI.placed.queued w d).mp (by simp [hq])) (hqueued w)
      rw [State.steals_enter, State.steals_modify_of_ne _ _ _ hg, State.steals_setDeque]
  | spawn => simp
  | schedule => exact congrFun (State.steals_place _ _ _) f
  | popAll => rfl
  | resume => exact congrFun (State.steals_enter _ _ _) f
  | steal => simp [State.steal]
  | fork => simp [State.fork]
  | call => simp [State.call]
  | retRoot => simp
  | retCall => simp
  | retFork => simp
  | shortcut => simp
  | joinCall => rfl
  | switch => simp [State.switch]
  | awaitResume => simp
  | pop => simp
  | popNone => rfl
  | dec => simp
  | yield => rfl
  | notReady => rfl
  | lose => simp
  | release => rfl
  | selfNone => rfl

/-- The tasks of the others count as many steals as before. -/
theorem steals_other (h : Moves T s a s') (hI : Inv T s) (hv : ∀ w, a.mover = some w → v ≠ w)
    {f : ℕ} (hf : s.pc v = .run f) : s'.steals f = s.steals f := by
  have hloc : s.loc f = .run v := (hI.placed.run v f).mp (by rw [hf]; rfl)
  apply steals_still h hI <;> simp only [hloc, ne_eq, reduceCtorEq, not_false_eq_true, implies_true]
  intro w hw heq
  exact hv w hw (Loc.run.inj heq)

/-- So does a task in a call. -/
theorem steals_calling (h : Moves T s a s') (hI : Inv T s) {p c : ℕ} (hp : s.loc p = .calling c) :
    s'.steals p = s.steals p := by
  apply steals_still h hI <;> simp [hp]

/-- A task outside its scopes that waits for nothing has no steals. -/
theorem Inv.steals_eq_zero (h : Inv T s) {f : ℕ} (hscope : (s.task f).scope = false)
    (hph : (s.task f).phase = .plain) : s.steals f = 0 := by
  obtain ⟨howed, hpaid⟩ := (h.accounts f).scope hscope
  have hbalance := (h.accounts f).balance
  rw [hph, howed, hpaid] at hbalance
  have hchildren := hbalance.children
  have hsteals := hbalance.steals
  simp only [Finset.card_empty, Phase.flying, Phase.lag] at hchildren hsteals
  apply BitVec.eq_of_toNat_eq
  change (s.task f).frame.mSteal.toNat = 0
  omega

/-- Nor has a task whose code is over, or has not begun. -/
theorem Inv.steals_of_ended (h : Inv T s) {f : ℕ} (hf : (s.loc f).ended = true) :
    s.steals f = 0 := by
  refine h.steals_eq_zero ((h.accounts f).ended hf) ?_
  unfold State.loc at hf
  unfold Task.phase
  cases hloc : (s.task f).loc <;> simp [hloc, Loc.ended] at hf ⊢

/-- A steal that counts leaves a counter that is not zero. -/
theorem Inv.steals_succ (h : Inv T s) {f : ℕ} (hlag : (s.task f).phase.lag = 1) :
    s.steals f + 1 ≠ 0 := by
  have hbalance := (h.accounts f).balance
  have hsteals := hbalance.steals
  have hfew := hbalance.few
  rw [hlag] at hsteals
  intro heq
  have hzero := congrArg BitVec.toNat heq
  rw [BitVec.toNat_add] at hzero
  unfold State.steals Frame.loadSteals at hzero
  simp at hzero
  omega

/-- A task that waits in a deque, and was not taken, counts as many steals as before its fork. -/
theorem Inv.stealsPre_eq (h : Inv T s) {w f : ℕ} {k : Fork} (hf : s.loc f = .queued w)
    (hk : s.awaits f = some k) (htaken : k.taken = false) : k.stealsPre = s.steals f := by
  have hpre := ((h.accounts f).fork k hk).pre
  have hbalance := (h.accounts f).balance
  have hph : (s.task f).phase = .waits := by
    have hloc : (s.task f).loc = .queued w := hf
    have hawaiting : (s.task f).awaiting = some k := hk
    simp [Task.phase, hloc, Task.counted, hawaiting, htaken]
  rw [hph] at hbalance
  have hsteals := hbalance.steals
  rw [htaken, Bool.toNat_false] at hpre
  exact BitVec.eq_of_toNat_eq (hpre.trans hsteals.symm)

/-! ## How a task comes to be suspended -/

/-- A task in a call has just made it, or was in it before. -/
theorem calling_cases (h : Moves T s a s') {p c : ℕ} (hp : s'.loc p = .calling c) :
    s.loc p = .calling c ∨ ∃ w, a = .call w c ∧ s.pc w = .run p ∧ s.loc c = .unborn := by
  have hupdate : ∀ {loc : ℕ → Loc} {f : ℕ} {l : Loc}, (∀ c, l ≠ .calling c) →
      Function.update loc f l p = .calling c → loc p = .calling c := by
    intro loc f l hl hpl
    by_cases hpf : p = f
    · rw [hpf, Function.update_self] at hpl
      exact absurd hpl (hl c)
    · rwa [Function.update_of_ne hpf] at hpl
  cases h with
  | @call w f d hpc haw hl ht hpar =>
      simp only [State.call, State.loc_enter, State.loc_place] at hp
      have hp := hupdate (by simp) hp
      by_cases hpf : p = f
      · rw [hpf, Function.update_self] at hp
        cases hp
        exact Or.inr ⟨w, rfl, hpf ▸ hpc, hl⟩
      · rw [Function.update_of_ne hpf] at hp
        exact Or.inl hp
  | fork =>
      simp only [State.fork, State.loc_enter, State.loc_place, State.loc_forks,
        State.loc_setDeque] at hp
      exact Or.inl (hupdate (by simp) (hupdate (by simp) hp))
  | steal =>
      simp only [State.steal, State.loc_goto, State.loc_place, State.loc_take,
        State.loc_setDeque] at hp
      exact Or.inl (hupdate (by simp) hp)
  | switch =>
      simp only [State.switch, State.loc_takeHead, State.loc_goto, State.loc_place] at hp
      exact Or.inl (hupdate (by simp) hp)
  | _ =>
      simp at hp
      first
      | exact Or.inl hp
      | exact Or.inl (hupdate (by simp) hp)
      | exact Or.inl (hupdate (by simp) (hupdate (by simp) hp))

/-- A fork that is taken counts as such. -/
theorem taken_of_take {t : Task} {k : Fork} (hk : t.take.awaiting = some k) : k.taken = true := by
  unfold Task.take at hk
  split at hk
  · next hnone => cases hnone.symm.trans hk
  · next k' hk' =>
    split_ifs at hk with htaken
    · obtain rfl : k' = k := Option.some.inj (hk'.symm.trans hk)
      exact htaken
    · exact congrArg Fork.taken (Option.some.inj hk).symm

/-- What is left in a deque counts as taken. -/
theorem awaits_takeHead_of_fresh {w p : ℕ} {k : Fork} (hk : (s.takeHead w).awaits p = some k)
    (htaken : k.taken = false) : s.awaits p = some k := by
  unfold State.takeHead at hk
  split at hk
  · exact hk
  · next d q hq =>
    by_cases hp : p = d
    · unfold State.awaits at hk
      rw [hp, State.modify_self] at hk
      cases htaken.symm.trans (taken_of_take hk)
    · rwa [State.awaits_modify_of_ne _ _ _ hp] at hk

/-- A task that waits in a deque, and was not taken, has just forked, or waited there before. -/
theorem queued_cases (h : Moves T s a s') {w p : ℕ} {k : Fork} (hp : s'.loc p = .queued w)
    (hk : s'.awaits p = some k) (htaken : k.taken = false) :
    (s.loc p = .queued w ∧ s.awaits p = some k) ∨
      (a = .fork w k.child ∧ s.pc w = .run p ∧ s.loc k.child = .unborn ∧
        k.stealsPre = s.steals p) := by
  have hupdate : ∀ {loc : ℕ → Loc} {f : ℕ} {l : Loc}, (∀ v, l ≠ .queued v) →
      Function.update loc f l p = .queued w → loc p = .queued w := by
    intro loc f l hl hpl
    by_cases hpf : p = f
    · rw [hpf, Function.update_self] at hpl
      exact absurd hpl (hl w)
    · rwa [Function.update_of_ne hpf] at hpl
  cases h with
  | @fork v f d hpc haw hl ht hpar =>
      simp only [State.fork, State.loc_enter, State.loc_place, State.loc_forks,
        State.loc_setDeque] at hp
      have hp := hupdate (by simp) hp
      unfold State.fork at hk
      rw [State.awaits_enter, State.awaits_place] at hk
      by_cases hpf : p = f
      · subst hpf
        rw [Function.update_self] at hp
        cases hp
        unfold State.awaits at hk
        rw [State.modify_self] at hk
        cases hk
        exact Or.inr ⟨rfl, hpc, hl, rfl⟩
      · rw [Function.update_of_ne hpf] at hp
        rw [State.awaits_modify_of_ne _ _ _ hpf] at hk
        exact Or.inl ⟨hp, hk⟩
  | @steal v u f q hpc htodo hq =>
      simp only [State.steal, State.loc_goto, State.loc_place, State.loc_take,
        State.loc_setDeque] at hp
      have hpf : p ≠ f := by
        rintro rfl
        rw [Function.update_self] at hp
        cases hp
      unfold State.steal at hk
      rw [State.awaits_goto, State.awaits_place, State.awaits_modify_of_ne _ _ _ hpf] at hk
      exact Or.inl ⟨hupdate (by simp) hp, hk⟩
  | @switch v f hpc haw =>
      simp only [State.switch, State.loc_takeHead, State.loc_goto, State.loc_place] at hp
      have hk := awaits_takeHead_of_fresh hk htaken
      rw [State.awaits_goto, State.awaits_place] at hk
      exact Or.inl ⟨hupdate (by simp) hp, hk⟩
  | @lose v f hpc hne =>
      simp only [State.loc_takeHead, State.loc_goto, State.loc_place, State.loc_frame] at hp
      have hk := awaits_takeHead_of_fresh hk htaken
      rw [State.awaits_goto, State.awaits_place, State.awaits_frame] at hk
      exact Or.inl ⟨hupdate (by simp) hp, hk⟩
  | @awaitResume v f hpc haw =>
      have hpf : p ≠ f := by
        rintro rfl
        unfold State.awaits at hk
        rw [State.modify_self] at hk
        cases hk
      rw [State.awaits_modify_of_ne _ _ _ hpf] at hk
      exact Or.inl ⟨by simpa using hp, hk⟩
  | call =>
      unfold State.call at hk
      simp only [State.call, State.loc_enter, State.loc_place] at hp
      rw [State.awaits_enter, State.awaits_place] at hk
      exact Or.inl ⟨hupdate (by simp) (hupdate (by simp) hp), hk⟩
  | schedule =>
      rw [State.loc_schedule] at hp
      exact Or.inl ⟨hupdate (by simp) hp, (State.awaits_place ..) ▸ hk⟩
  | resume =>
      rw [State.loc_resume] at hp
      exact Or.inl ⟨hupdate (by simp) hp, (State.awaits_enter ..) ▸ hk⟩
  | popAll => exact Or.inl ⟨hp, hk⟩
  | _ =>
      simp at hp hk
      first
      | exact Or.inl ⟨hp, hk⟩
      | exact Or.inl ⟨hupdate (by simp) hp, hk⟩
      | exact Or.inl ⟨hupdate (by simp) (hupdate (by simp) hp), hk⟩

/-! ## Where a worker stands after its step -/

/-- A worker goes on to the join counter of a parent from an empty deque only. -/
theorem subJoin_cases (h : Moves T s a s') {w c : ℕ} (hw : a.mover = some w)
    (hpc : s'.pc w = .subJoin c) : a = .step w ∧ s.pc w = .final c ∧ s.deque w = [] := by
  cases h with
  | @popNone v d hfinal hq =>
      cases hw
      obtain rfl : d = c := by simpa using hpc
      exact ⟨rfl, hfinal, hq⟩
  | @popAll v hidle =>
      cases hw
      cases hidle.symm.trans hpc
  | @shortcut v g hrun =>
      cases hw
      cases hrun.symm.trans hpc
  | @awaitResume v g hrun =>
      cases hw
      cases hrun.symm.trans hpc
  | spawn => cases hw
  | schedule => cases hw
  | _ =>
      cases hw
      simp [State.steal, State.fork, State.call, State.switch] at hpc

/-- A worker gets to the atomics of a join with a task that was stolen, or is on with them. -/
theorem joins_cases (h : Moves T s a s') {w f : ℕ} (hw : a.mover = some w)
    (hpc : s'.pc w = .joinLoad f ∨ s'.pc w = .joinSub f) :
    s'.steals f = s.steals f ∧
      ((s.pc w = .run f ∧ s.steals f ≠ 0) ∨ s.pc w = .joinLoad f) := by
  cases h with
  | @joinCall v g hrun haw hz =>
      cases hw
      obtain rfl : g = f := by simpa using hpc
      exact ⟨rfl, Or.inl ⟨hrun, hz⟩⟩
  | @notReady v g hload =>
      cases hw
      obtain rfl : g = f := by simpa using hpc
      exact ⟨rfl, Or.inr hload⟩
  | @popAll v hidle =>
      cases hw
      have hidle' : (s.popAll w).pc w = .idle := hidle
      simp [hidle'] at hpc
  | @shortcut v g hrun =>
      cases hw
      have hrun' : (s.modify g Task.leave).pc w = .run g := hrun
      simp [hrun'] at hpc
  | @awaitResume v g hrun =>
      cases hw
      rw [State.modify_pc, hrun] at hpc
      simp at hpc
  | spawn => cases hw
  | schedule => cases hw
  | _ =>
      cases hw
      simp [State.steal, State.fork, State.call, State.switch] at hpc

/-- The code of a task ends where it returns. -/
theorem ended_cases (h : Moves T s a s') (hI : Inv T s) {f : ℕ} (hf : (s'.loc f).ended = true) :
    (s.loc f).ended = true ∨ ∃ w, a = .ret w ∧ s.running w = some f := by
  have hupdate : ∀ {loc : ℕ → Loc} {g : ℕ} {l : Loc}, l.ended = false →
      (Function.update loc g l f).ended = true → (loc f).ended = true := by
    intro loc g l hl hfl
    by_cases hfg : f = g
    · rw [hfg, Function.update_self, hl] at hfl
      cases hfl
    · rwa [Function.update_of_ne hfg] at hfl
  have hreturned : ∀ {w c : ℕ}, (s.pc w).returned = some c →
      (Function.update s.loc c .dead f).ended = true → (s.loc f).ended = true := by
    intro w c hc hfl
    by_cases hfc : f = c
    · rw [hfc, (hI.placed.final w c).mp hc]
      rfl
    · rwa [Function.update_of_ne hfc] at hfl
  have hret : ∀ {w g : ℕ} {l : Loc}, s.pc w = .run g → (s.task g).awaiting = none →
      (Function.update s.loc g l f).ended = true →
      (s.loc f).ended = true ∨ ∃ v, Act.ret w = .ret v ∧ s.running v = some f := by
    intro w g l hpc haw hfl
    by_cases hfg : f = g
    · exact Or.inr ⟨w, rfl, hfg ▸ running_eq_some.mpr ⟨hpc, haw⟩⟩
    · rw [Function.update_of_ne hfg] at hfl
      exact Or.inl hfl
  cases h with
  | retRoot hpc haw =>
      rw [State.loc_goto, State.loc_place] at hf
      exact hret hpc haw hf
  | retCall hpc haw =>
      rw [State.loc_enter, State.loc_place] at hf
      exact hret hpc haw (hupdate rfl hf)
  | retFork hpc haw =>
      rw [State.loc_goto, State.loc_place] at hf
      exact hret hpc haw hf
  | @pop w c d q hpc hq =>
      simp only [State.loc_enter, State.loc_popped, State.loc_place, State.loc_setDeque] at hf
      exact Or.inl (hreturned (w := w) (by rw [hpc]; rfl) (hupdate rfl hf))
  | @decLast w c hpc hold =>
      simp only [State.loc_enter, State.loc_reset, State.loc_decremented, State.loc_place] at hf
      exact Or.inl (hreturned (w := w) (by rw [hpc]; rfl) (hupdate rfl hf))
  | @dec w c hpc hold =>
      simp only [State.loc_goto, State.loc_decremented, State.loc_place] at hf
      exact Or.inl (hreturned (w := w) (by rw [hpc]; rfl) hf)
  | fork =>
      simp only [State.fork, State.loc_enter, State.loc_place, State.loc_forks,
        State.loc_setDeque] at hf
      exact Or.inl (hupdate rfl (hupdate rfl hf))
  | call =>
      simp only [State.call, State.loc_enter, State.loc_place] at hf
      exact Or.inl (hupdate rfl (hupdate rfl hf))
  | steal =>
      simp only [State.steal, State.loc_goto, State.loc_place, State.loc_take,
        State.loc_setDeque] at hf
      exact Or.inl (hupdate rfl hf)
  | switch =>
      simp only [State.switch, State.loc_takeHead, State.loc_goto, State.loc_place] at hf
      exact Or.inl (hupdate rfl hf)
  | schedule =>
      rw [State.loc_schedule] at hf
      exact Or.inl (hupdate rfl hf)
  | resume =>
      rw [State.loc_resume] at hf
      exact Or.inl (hupdate rfl hf)
  | popAll => exact Or.inl hf
  | _ =>
      simp at hf
      first
      | exact Or.inl hf
      | exact Or.inl (hupdate rfl hf)

/-! ## Parents -/

/-- The parent of a live task is in its code, or suspended in it. -/
theorem Inv.ended_parent (h : Inv T s) {c : ℕ} (ht : T.tag c ≠ .root) (hc : s.status c = .alive) :
    (s.loc (T.parent c)).ended = false := by
  have haccounts := h.accounts (T.parent c)
  cases htag : T.tag c with
  | root => exact absurd htag ht
  | call =>
    rw [h.calling htag hc]
    rfl
  | fork =>
    have howed := (haccounts.owed c).mpr ⟨htag, rfl, hc⟩
    by_contra hended
    have hnone := haccounts.owed_eq_empty (Bool.not_eq_false _ ▸ hended)
    rw [hnone] at howed
    exact Finset.notMem_empty c howed

end Libfork.Runtime
