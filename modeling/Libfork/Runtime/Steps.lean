import Libfork.Runtime.Invariant

/-!
# Every step keeps the invariant

Source: `promise.hpp`, `final_await_suspend`, `final_awaitable`; `awaitables.hpp`; `resume.hpp`.
-/

namespace Libfork.Runtime

open Libfork.Found Libfork.Join

variable {T : Tree} {s s' : State} {a : Act} {as : List Act}

/-! ## Accounts of all frames -/

/-- Every frame's accounts are in order. -/
def AllAccounts (T : Tree) (s : State) : Prop := ∀ p, Accounts T s.status p (s.task p)

/-- The handle of a task goes elsewhere. -/
theorem status_update {f : ℕ} {l : Loc} (h : s'.loc = Function.update s.loc f l) :
    s'.status = Function.update s.status f l.status := by
  funext g
  unfold State.status
  rw [h]
  by_cases hg : g = f
  · rw [hg, Function.update_self, Function.update_self]
  · rw [Function.update_of_ne hg, Function.update_of_ne hg]

/-- The handle of a task goes elsewhere, and the task comes no further by it. -/
theorem status_eq {f : ℕ} {l : Loc} (h : s'.loc = Function.update s.loc f l)
    (hl : l.status = s.status f) : s'.status = s.status := by
  rw [status_update h, hl, Function.update_eq_self]

namespace AllAccounts

variable (hs : AllAccounts T s)

include hs

/-- Nothing happens to any task. -/
theorem stay (h : s'.task = s.task) : AllAccounts T s' := by
  have hst : s'.status = s.status := by
    funext f
    unfold State.status State.loc
    rw [h]
  intro p
  rw [h, hst]
  exact hs p

/-- Something happens to one task, which comes no further by it. -/
theorem change {f : ℕ} (hother : ∀ g, g ≠ f → s'.task g = s.task g)
    (hst : s'.status = s.status) (hf : Accounts T s.status f (s'.task f)) :
    AllAccounts T s' := by
  intro p
  rw [hst]
  by_cases hp : p = f
  · rw [hp]
    exact hf
  · rw [hother p hp]
    exact hs p

/-- A task begins or ends, and its parent knows. -/
theorem invoke {f c : ℕ} {x : Status} (hother : ∀ g, g ≠ f → g ≠ c → s'.task g = s.task g)
    (hst : s'.status = Function.update s.status c x) (hpar : T.parent c = f)
    (hroot : T.tag c ≠ .root) (hf : Accounts T (Function.update s.status c x) f (s'.task f))
    (hc : Accounts T s.status c (s'.task c)) : AllAccounts T s' := by
  intro p
  rw [hst]
  by_cases hp : p = f
  · rw [hp]
    exact hf
  · have hsame : ∀ c', T.tag c' ≠ .root → T.parent c' = p →
        Function.update s.status c x c' = s.status c' := by
      rintro c' - hc'
      apply Function.update_of_ne
      rintro rfl
      exact hp (hc'.symm.trans hpar)
    by_cases hpc : p = c
    · rw [hpc] at hsame ⊢
      exact hc.congr hsame
    · rw [hother p hp hpc]
      exact (hs p).congr hsame

/-- A root begins or ends. -/
theorem root {r : ℕ} {x : Status} (hother : ∀ g, g ≠ r → s'.task g = s.task g)
    (hst : s'.status = Function.update s.status r x) (hroot : T.tag r = .root)
    (hr : Accounts T s.status r (s'.task r)) : AllAccounts T s' := by
  have hsame : ∀ c, T.tag c ≠ .root → Function.update s.status r x c = s.status c := by
    intro c hc
    apply Function.update_of_ne
    rintro rfl
    exact hc hroot
  intro p
  rw [hst]
  by_cases hp : p = r
  · rw [hp]
    exact hr.congr fun c hc _ => hsame c hc
  · rw [hother p hp]
    exact (hs p).congr fun c hc _ => hsame c hc

/-- What is left in a deque counts as stolen. -/
theorem takeHead {w : ℕ} (hq : ∀ d ∈ s.deque w, s.loc d = .queued w)
    (hfew : ∀ f, ((s.takeHead w).task f).taken < 65535) : AllAccounts T (s.takeHead w) := by
  unfold State.takeHead at hfew ⊢
  split
  · exact hs
  · next d q hdeque =>
    rw [hdeque] at hfew hq
    have hd := hq d List.mem_cons_self
    refine hs.change (fun g hg => s.modify_of_ne d g _ hg) ?_ ?_
    · unfold State.status
      rw [State.loc_take]
    · have hfewd := hfew d
      simp only [State.modify_self] at hfewd ⊢
      exact ((hs d).take hd hfewd).1

/-- A join is won. -/
theorem rejoin {w f : ℕ} (hf : (s.task f).loc = .run w) (haw : (s.task f).awaiting = none)
    (heq : (s.task f).frame.loadSteals = kU16Max - (s.task f).frame.loadJoins)
    (hloc : s'.loc = s.loc) (hother : ∀ g, g ≠ f → s'.task g = s.task g)
    (htask : s'.task f = { (s.task f).leave with
      frame := (s.task f).frame.reset, loc := .run w }) : AllAccounts T s' := by
  have hbalance := (hs f).balance
  have hph : (s.task f).phase = .plain := by simp [Task.phase, hf]
  rw [hph] at hbalance
  have howed := Finset.card_eq_zero.mp (hbalance.joined_iff.mp heq)
  have hst : s'.status = s.status := by
    unfold State.status
    rw [hloc]
  refine hs.change hother hst ?_
  rw [htask]
  exact accounts_leave haw ((hs f).no_children (by simp [hf]) howed) (Balance.reset _)

end AllAccounts

/-! ## The step -/

/-- The task that a worker runs, as its accounts see it. -/
theorem Inv.run_loc (h : Inv T s) {w f : ℕ} (hf : (s.pc w).code = some f) :
    (s.task f).loc = .run w := (h.placed.run w f).mp hf

/-- A task with its handle at one worker, or outside, waits for nothing that counts. -/
theorem phase_run {t : Task} {w : ℕ} (h : t.loc = .run w) : t.phase = .plain := by
  simp [Task.phase, h]

/-- Who looks for its parent was forked. -/
theorem Inv.fork_of_returned (h : Inv T s) {w c : ℕ} (hc : (s.pc w).returned = some c) :
    T.tag c = .fork := by
  rcases Pc.returned_eq_some.mp hc with hpc | hpc
  · have hline := h.lined w
    rw [hpc] at hline
    exact hline.1
  · have hfresh := h.fresh w
    rw [hpc] at hfresh
    exact hfresh

/-- The child that a frame is decremented by is owed. -/
theorem Inv.owed_of_returned (h : Inv T s) {w c : ℕ} (hc : (s.pc w).returned = some c)
    (ht : T.tag c = .fork) : c ∈ (s.task (T.parent c)).owed :=
  ((h.accounts (T.parent c)).owed c).mpr ⟨ht, rfl, h.alive_of_returned hc⟩

/-- A forked child that finds the join counter at 1 finds its parent at the join. -/
theorem Inv.last (h : Inv T s) {w c : ℕ} (hpc : s.pc w = .subJoin c)
    (hone : (s.task (T.parent c)).frame.loadJoins = 1) :
    s.loc (T.parent c) = .joining ∧ (s.task (T.parent c)).owed.erase c = ∅ := by
  have hfresh := h.fresh w
  rw [hpc] at hfresh
  have hc := h.owed_of_returned (w := w) (by rw [hpc]; rfl) hfresh
  exact (h.accounts (T.parent c)).last hc hone (h.other_owed hpc)

/-- A frame whose task is over. -/
theorem Accounts.die {st : ℕ → Status} {f : ℕ} {t : Task} (h : Accounts T st f t)
    (hl : (∃ w, t.loc = .run w) ∨ ∃ w, t.loc = .final w) (haw : t.awaiting = none)
    (hscope : t.scope = false) : Accounts T st f { t with loc := .dead } := by
  refine h.relocate haw ?_ ?_ rfl (by simp) fun _ => hscope
  · rcases hl with ⟨w, hw⟩ | ⟨w, hw⟩ <;> simp [Task.phase, hw]
  · rcases hl with ⟨w, hw⟩ | ⟨w, hw⟩ <;> simp [hw]

/-- A frame at its final suspend has nothing left to wait for. -/
theorem Accounts.die_final {st : ℕ → Status} {f w : ℕ} {t : Task} (h : Accounts T st f t)
    (hl : t.loc = .final w) : Accounts T st f { t with loc := .dead } := by
  have haw := h.awaiting_eq_none (by simp [hl]) (by simp [hl]) (by simp [hl])
  exact h.die (Or.inr ⟨w, hl⟩) haw (h.ended (by simp [hl, Loc.ended]))

/-- A task that is not run yet, or was switched out, gets a new place. -/
theorem Accounts.moved {st : ℕ → Status} {f : ℕ} {t : Task} {l : Loc} (h : Accounts T st f t)
    (hold : t.loc = .unborn ∨ t.loc = .outside ∨ ∃ w, t.loc = .submitted w)
    (hnew : l = .outside ∨ (∃ w, l = .submitted w) ∨ ∃ w, l = .run w) :
    Accounts T st f { t with loc := l } := by
  have haw : t.awaiting = none := by
    rcases hold with hl | hl | ⟨w, hl⟩ <;>
      exact h.awaiting_eq_none (by simp [hl]) (by simp [hl]) (by simp [hl])
  have hph : t.phase = .plain := by
    rcases hold with hl | hl | ⟨w, hl⟩ <;> simp [Task.phase, hl]
  have hcall : ∀ c, t.loc ≠ .calling c := by
    rcases hold with hl | hl | ⟨w, hl⟩ <;> simp [hl]
  rcases hnew with rfl | ⟨v, rfl⟩ | ⟨v, rfl⟩ <;>
    exact h.relocate haw hph hcall rfl (by simp) (by simp [Loc.ended])

/-! ### Case by case -/

namespace Inv

variable (h : Inv T s)

include h

/-- A root gets its frame. -/
theorem accounts_spawn {r : ℕ} (hl : (s.task r).loc = .unborn) (ht : T.tag r = .root) :
    AllAccounts T (s.place r .outside) := by
  have hs : AllAccounts T s := h.accounts
  refine hs.root (fun g hg => s.place_of_ne r g _ hg) (status_update (s.loc_place r _)) ht ?_
  rw [State.place_self]
  exact (hs r).moved (.inl hl) (.inl rfl)

/-- A handle is submitted. -/
theorem accounts_schedule {f w : ℕ} (hl : (s.task f).loc = .outside) :
    AllAccounts T (s.schedule f w) := by
  have hs : AllAccounts T s := h.accounts
  have halive : s.status f = .alive := State.status_eq_alive hl rfl
  refine hs.change (fun g hg => s.place_of_ne f g _ hg)
    (status_eq (s.loc_place f _) halive.symm) ?_
  have htask : (s.schedule f w).task f = { s.task f with loc := .submitted w } :=
    s.place_self f _
  rw [htask]
  exact (hs f).moved (.inr (.inl hl)) (.inr (.inl ⟨w, rfl⟩))

/-- A submitted task is resumed. -/
theorem accounts_resume {w f : ℕ} {fs : List ℕ} (htodo : s.todo w = f :: fs) :
    AllAccounts T (s.resume w f fs) := by
  have hs : AllAccounts T s := h.accounts
  have hl : (s.task f).loc = .submitted w :=
    (h.placed.submitted w f).mp (Or.inl (by simp [htodo]))
  have halive : s.status f = .alive := State.status_eq_alive hl rfl
  refine hs.change (fun g hg => State.enter_of_ne _ w f g hg)
    (status_eq (State.loc_enter _ w f) halive.symm) ?_
  have htask : (s.resume w f fs).task f = { s.task f with loc := .run w } :=
    State.enter_self _ w f
  rw [htask]
  exact (hs f).moved (.inr (.inr ⟨w, hl⟩)) (.inr (.inr ⟨w, rfl⟩))

/-- A thief takes the oldest continuation. -/
theorem accounts_steal {w v f : ℕ} {q : List ℕ} (hq : s.deque v = q ++ [f])
    (hfew : ((s.steal w v f q).task f).taken < 65535) : AllAccounts T (s.steal w v f q) := by
  have hs : AllAccounts T s := h.accounts
  have hl : (s.task f).loc = .queued v := (h.placed.queued v f).mp (by simp [hq])
  have hloc : (s.steal w v f q).loc = Function.update s.loc f (.stolen w) := by
    simp [State.steal]
  have htask : (s.steal w v f q).task f = { (s.task f).take with loc := .stolen w } := by
    simp [State.steal]
  refine hs.change (f := f) ?_ (status_eq hloc (State.status_eq_alive hl rfl).symm) ?_
  · intro g hg
    simp [State.steal, hg]
  · rw [htask] at hfew ⊢
    obtain ⟨htake, hph⟩ := (hs f).take hl hfew
    exact htake.steal (w := v) (by rw [Task.take_loc, hl]) hph

/-- A task forks a child and leaves its continuation on the deque. -/
theorem accounts_fork {w f c : ℕ} (hpc : s.pc w = .run f) (hl : (s.task c).loc = .unborn)
    (ht : T.tag c = .fork) (hpar : T.parent c = f) : AllAccounts T (s.fork w f c) := by
  have hs : AllAccounts T s := h.accounts
  have hf := h.run_loc (w := w) (f := f) (by rw [hpc]; rfl)
  have hc : s.status c = .unborn := congrArg Loc.status hl
  have hne : f ≠ c := by
    rintro rfl
    cases hf.symm.trans hl
  have hloc : (s.fork w f c).loc =
      Function.update (Function.update s.loc f (.queued w)) c (.run w) := by
    simp [State.fork]
  have hst : (s.fork w f c).status = Function.update s.status c .alive := by
    have hst₁ : (s.place f (.queued w)).status = s.status :=
      status_eq (s.loc_place f _) (State.status_eq_alive hf rfl).symm
    rw [← hst₁]
    apply status_update (s := s.place f (.queued w)) (l := .run w)
    rw [hloc, State.loc_place]
  refine hs.invoke ?_ hst hpar (by simp [ht]) ?_ ?_
  · intro g hgf hgc
    simp [State.fork, hgf, hgc]
  · have htask : (s.fork w f c).task f = { (s.task f).forks c with loc := .queued w } := by
      simp [State.fork, hne]
    rw [htask]
    exact (hs f).forks hf hc ht hpar
  · have htask : (s.fork w f c).task c = { s.task c with loc := .run w } := by
      simp [State.fork, hne.symm]
    rw [htask]
    exact (hs c).moved (.inl hl) (.inr (.inr ⟨w, rfl⟩))

/-- A task calls a child and waits for it. -/
theorem accounts_call {w f c : ℕ} (hpc : s.pc w = .run f) (haw : (s.task f).awaiting = none)
    (hl : (s.task c).loc = .unborn) (ht : T.tag c = .call) (hpar : T.parent c = f) :
    AllAccounts T (s.call w f c) := by
  have hs : AllAccounts T s := h.accounts
  have hf := h.run_loc (w := w) (f := f) (by rw [hpc]; rfl)
  have hc : s.status c = .unborn := congrArg Loc.status hl
  have hne : f ≠ c := by
    rintro rfl
    cases hf.symm.trans hl
  have hst : (s.call w f c).status = Function.update s.status c .alive := by
    have hst₁ : (s.place f (.calling c)).status = s.status :=
      status_eq (s.loc_place f _) (State.status_eq_alive hf rfl).symm
    rw [← hst₁]
    exact status_update (State.loc_enter _ w c)
  refine hs.invoke ?_ hst hpar (by simp [ht]) ?_ ?_
  · intro g hgf hgc
    simp [State.call, hgf, hgc]
  · have htask : (s.call w f c).task f = { s.task f with loc := .calling c } := by
      simp [State.call, hne]
    rw [htask]
    exact (hs f).calls hf haw hc ht hpar
  · have htask : (s.call w f c).task c = { s.task c with loc := .run w } := by
      simp [State.call, hne.symm]
    rw [htask]
    exact (hs c).moved (.inl hl) (.inr (.inr ⟨w, rfl⟩))

/-- A root returns. -/
theorem accounts_retRoot {w f : ℕ} (hpc : s.pc w = .run f) (haw : (s.task f).awaiting = none)
    (hscope : (s.task f).scope = false) (ht : T.tag f = .root) :
    AllAccounts T ((s.place f .dead).goto w .idle) := by
  have hs : AllAccounts T s := h.accounts
  have hf := h.run_loc (w := w) (f := f) (by rw [hpc]; rfl)
  refine hs.root (fun g hg => s.place_of_ne f g _ hg) (status_update (s.loc_place f _)) ht ?_
  rw [State.goto_task, State.place_self]
  exact (hs f).die (Or.inl ⟨w, hf⟩) haw hscope

/-- A called task returns to the task that waits for it. -/
theorem accounts_retCall {w f : ℕ} (hpc : s.pc w = .run f) (haw : (s.task f).awaiting = none)
    (hscope : (s.task f).scope = false) (ht : T.tag f = .call) :
    AllAccounts T ((s.place f .dead).enter w (T.parent f)) := by
  have hs : AllAccounts T s := h.accounts
  have hf := h.run_loc (w := w) (f := f) (by rw [hpc]; rfl)
  have hp := h.calling ht (h.alive_of_code (w := w) (by rw [hpc]; rfl))
  have hne : T.parent f ≠ f := (T.parent_lt f (by simp [ht])).ne
  have hst : ((s.place f .dead).enter w (T.parent f)).status =
      Function.update s.status f .dead := by
    have hst₁ : (s.place f .dead).status = Function.update s.status f .dead :=
      status_update (s.loc_place f _)
    rw [← hst₁]
    refine status_eq (State.loc_enter _ w _) ?_
    rw [hst₁, Function.update_of_ne hne]
    exact (State.status_eq_alive hp rfl).symm
  refine hs.invoke ?_ hst rfl (by simp [ht]) ?_ ?_
  · intro g hgp hgf
    simp [hgf, hgp]
  · have htask : ((s.place f .dead).enter w (T.parent f)).task (T.parent f) =
        { s.task (T.parent f) with loc := .run w } := by
      simp [hne]
    rw [htask]
    exact (hs _).returned hp
  · have htask : ((s.place f .dead).enter w (T.parent f)).task f =
        { s.task f with loc := .dead } := by
      simp [hne.symm]
    rw [htask]
    exact (hs f).die (Or.inl ⟨w, hf⟩) haw hscope

/-- A forked task returns, and reaches its final suspend. -/
theorem accounts_retFork {w f : ℕ} (hpc : s.pc w = .run f) (haw : (s.task f).awaiting = none)
    (hscope : (s.task f).scope = false) :
    AllAccounts T ((s.place f (.final w)).goto w (.final f)) := by
  have hs : AllAccounts T s := h.accounts
  have hf := h.run_loc (w := w) (f := f) (by rw [hpc]; rfl)
  refine hs.change (fun g hg => s.place_of_ne f g _ hg)
    (status_eq (s.loc_place f _) (State.status_eq_alive hf rfl).symm) ?_
  rw [State.goto_task, State.place_self]
  exact (hs f).relocate haw (phase_run hf) (by simp [hf]) rfl (by simp) fun _ => hscope

/-- A join finds that nothing was stolen, and nobody is left to wait for. -/
theorem accounts_shortcut {w f : ℕ} (hpc : s.pc w = .run f)
    (haw : (s.task f).awaiting = none) (hz : (s.task f).frame.loadSteals = 0) :
    AllAccounts T (s.modify f Task.leave) := by
  have hs : AllAccounts T s := h.accounts
  have hf := h.run_loc (w := w) (f := f) (by rw [hpc]; rfl)
  have hbalance := (hs f).balance
  rw [phase_run hf] at hbalance
  obtain ⟨howed, hpaid, htaken⟩ := hbalance.of_steals_eq_zero hz
  rw [howed, hpaid, htaken] at hbalance
  have hnone := (hs f).no_children (by simp [hf]) (Finset.card_eq_zero.mp howed)
  have hst : (s.modify f Task.leave).status = s.status := by
    unfold State.status
    rw [State.loc_leave]
  refine hs.change (fun g hg => s.modify_of_ne f g _ hg) hst ?_
  have htask : (s.modify f Task.leave).task f =
      { (s.task f).leave with frame := (s.task f).frame, loc := .run w } := by
    rw [State.modify_self, ← hf]
    rfl
  rw [htask]
  exact accounts_leave haw hnone hbalance

/-- What a worker that gives up its task leaves in its deque counts as stolen. -/
theorem accounts_takeHead {w f : ℕ} {l : Loc} {s₁ : State} (hs₁ : AllAccounts T s₁)
    (hpc : s.pc w = .run f ∨ s.pc w = .joinSub f) (hq : s₁.deque w = s.deque w)
    (hloc : s₁.loc = Function.update s.loc f l)
    (hfew : ∀ g, ((s₁.takeHead w).task g).taken < 65535) : AllAccounts T (s₁.takeHead w) := by
  have hf := h.run_loc (w := w) (f := f) (by rcases hpc with hpc | hpc <;> rw [hpc] <;> rfl)
  refine hs₁.takeHead ?_ hfew
  intro d hd
  rw [hq] at hd
  have hd' := (h.placed.queued w d).mp hd
  rw [hloc, Function.update_of_ne, hd']
  rintro rfl
  cases hd'.symm.trans hf

/-- A task is switched out. -/
theorem accounts_switch {w f : ℕ} (hpc : s.pc w = .run f) (haw : (s.task f).awaiting = none)
    (hfew : ∀ g, ((s.switch w f).task g).taken < 65535) : AllAccounts T (s.switch w f) := by
  have hs : AllAccounts T s := h.accounts
  have hf := h.run_loc (w := w) (f := f) (by rw [hpc]; rfl)
  have hs₁ : AllAccounts T
      ((s.place f .outside).goto w (.switched f (s.task f).frame.loadSteals)) := by
    refine hs.change (fun g hg => s.place_of_ne f g _ hg)
      (status_eq (s.loc_place f _) (State.status_eq_alive hf rfl).symm) ?_
    rw [State.goto_task, State.place_self]
    exact (hs f).relocate haw (phase_run hf) (by simp [hf]) rfl (by simp) (by simp [Loc.ended])
  exact h.accounts_takeHead hs₁ (.inl hpc) rfl (s.loc_place f .outside) hfew

/-- A thief counts its steal and goes on. -/
theorem accounts_addSteal {w f : ℕ} (hpc : s.pc w = .stolen f) :
    AllAccounts T ((s.modify f Task.addSteal).enter w f) := by
  have hs : AllAccounts T s := h.accounts
  have hf := (h.placed.stolen w f).mp hpc
  have hst : ((s.modify f Task.addSteal).enter w f).loc =
      Function.update s.loc f (.run w) := by simp
  refine hs.change (f := f) (fun g hg => by simp [hg])
    (status_eq hst (State.status_eq_alive hf rfl).symm) ?_
  rw [State.enter_self, State.modify_self]
  exact (hs f).addSteal (Or.inr ⟨w, hf⟩) ((hs f).stolen w hf)

/-- A continuation passes its fork. -/
theorem accounts_awaitResume {w f : ℕ} (hpc : s.pc w = .run f) :
    AllAccounts T (s.modify f fun t => { t with awaiting := none }) := by
  have hs : AllAccounts T s := h.accounts
  have hf := h.run_loc (w := w) (f := f) (by rw [hpc]; rfl)
  have hst : (s.modify f fun t => { t with awaiting := none }).status = s.status := by
    unfold State.status
    rw [State.loc_awaiting]
  refine hs.change (fun g hg => s.modify_of_ne f g _ hg) hst ?_
  rw [State.modify_self]
  exact (hs f).awaitResume hf

/-- A forked child that is over pops its parent. -/
theorem accounts_pop {w c d : ℕ} {q : List ℕ} (hpc : s.pc w = .final c)
    (hq : s.deque w = d :: q) :
    AllAccounts T ((((s.setDeque w q).place c .dead).modify (T.parent c)
      (Task.popped · c)).enter w (T.parent c)) := by
  have hs : AllAccounts T s := h.accounts
  have hline := h.lined w
  have hfresh := h.fresh w
  rw [hpc, hq] at hline hfresh
  obtain rfl : d = T.parent c := (lined_pop hline.1 hline.2).1
  obtain ⟨⟨k, hk, hchild, htaken⟩, -⟩ := List.isChain_cons_cons.mp hfresh
  rw [Tree.base_of_ne_call (by simp [hline.1])] at hchild
  subst hchild
  have hc : (s.task k.child).loc = .final w :=
    (h.placed.final w k.child).mp (by rw [hpc]; rfl)
  have hp : (s.task (T.parent k.child)).loc = .queued w :=
    (h.placed.queued w _).mp (by simp [hq])
  have hne : T.parent k.child ≠ k.child := (T.parent_lt _ (by simp [hline.1])).ne
  have hst₁ : (s.place k.child .dead).status = Function.update s.status k.child .dead :=
    status_update (s.loc_place k.child _)
  refine hs.invoke (f := T.parent k.child) (c := k.child) (x := .dead) ?_ ?_ rfl
    (by simp [hline.1]) ?_ ?_
  · intro g hgp hgc
    simp [hgp, hgc]
  · rw [← hst₁]
    refine status_eq (f := T.parent k.child) (l := .run w) ?_ ?_
    · simp
    · rw [hst₁, Function.update_of_ne hne]
      exact (State.status_eq_alive hp rfl).symm
  · rw [State.enter_self, State.modify_self, State.place_of_ne _ _ _ _ hne,
      State.setDeque_task]
    exact (hs _).popped hp hk htaken (State.status_eq_alive hc rfl)
  · rw [State.enter_of_ne _ _ _ _ hne.symm, State.modify_of_ne _ _ _ _ hne.symm,
      State.place_self, State.setDeque_task]
    exact (hs k.child).die_final hc

/-- The last child decrements the join counter and goes on with its parent. -/
theorem accounts_decLast {w c : ℕ} (hpc : s.pc w = .subJoin c)
    (hold : (s.task (T.parent c)).frame.loadJoins = 1) :
    AllAccounts T ((((s.place c .dead).modify (T.parent c)
      (Task.decremented · c)).modify (T.parent c) Task.reset).enter w (T.parent c)) := by
  have hs : AllAccounts T s := h.accounts
  have ht : T.tag c = .fork := h.fork_of_returned (w := w) (by rw [hpc]; rfl)
  obtain ⟨hjoining, howed⟩ := h.last hpc hold
  have hc : (s.task c).loc = .final w := (h.placed.final w c).mp (by rw [hpc]; rfl)
  have hne : T.parent c ≠ c := (T.parent_lt c (by simp [ht])).ne
  have hst₁ : (s.place c .dead).status = Function.update s.status c .dead :=
    status_update (s.loc_place c _)
  refine hs.invoke (f := T.parent c) (c := c) (x := .dead) ?_ ?_ rfl (by simp [ht]) ?_ ?_
  · intro g hgp hgc
    simp [hgp, hgc]
  · rw [← hst₁]
    refine status_eq (f := T.parent c) (l := .run w) ?_ ?_
    · simp
    · rw [hst₁, Function.update_of_ne hne]
      exact (State.status_eq_alive hjoining rfl).symm
  · have hp := hs (T.parent c)
    have hl : (s.task (T.parent c)).loc = .joining := hjoining
    have haw := hp.awaiting_eq_none (by simp [hl]) (by simp [hl]) (by simp [hl])
    rw [State.enter_self, State.modify_self, State.modify_self, State.place_of_ne _ _ _ _ hne]
    refine accounts_leave haw ?_ (Balance.reset _)
    intro c' ht' hp' halive
    by_cases hcc : c' = c
    · rw [hcc, Function.update_self] at halive
      cases halive
    · rw [Function.update_of_ne hcc] at halive
      cases htag : T.tag c' with
      | root => exact ht' htag
      | call => cases hl.symm.trans ((hp.calling c').mpr ⟨htag, hp', halive⟩)
      | fork =>
          have hmem := Finset.mem_erase.mpr ⟨hcc, (hp.owed c').mpr ⟨htag, hp', halive⟩⟩
          rw [howed] at hmem
          exact absurd hmem (Finset.notMem_empty c')
  · rw [State.enter_of_ne _ _ _ _ hne.symm, State.modify_of_ne _ _ _ _ hne.symm,
      State.modify_of_ne _ _ _ _ hne.symm, State.place_self]
    exact (hs c).die_final hc

/-- A child decrements the join counter, and others are still to come. -/
theorem accounts_dec {w c : ℕ} (hpc : s.pc w = .subJoin c)
    (hold : (s.task (T.parent c)).frame.loadJoins ≠ 1) :
    AllAccounts T (((s.place c .dead).modify (T.parent c)
      (Task.decremented · c)).goto w (.lost c)) := by
  have hs : AllAccounts T s := h.accounts
  have ht : T.tag c = .fork := h.fork_of_returned (w := w) (by rw [hpc]; rfl)
  have hc : (s.task c).loc = .final w := (h.placed.final w c).mp (by rw [hpc]; rfl)
  have hne : T.parent c ≠ c := (T.parent_lt c (by simp [ht])).ne
  have howed := h.owed_of_returned (w := w) (by rw [hpc]; rfl) ht
  refine hs.invoke (f := T.parent c) (c := c) (x := .dead) ?_ ?_ rfl (by simp [ht]) ?_ ?_
  · intro g hgp hgc
    simp [hgp, hgc]
  · exact status_update (l := .dead) (by simp)
  · rw [State.goto_task, State.modify_self, State.place_of_ne _ _ _ _ hne]
    exact (hs _).decremented howed hold (h.other_owed hpc)
  · rw [State.goto_task, State.modify_of_ne _ _ _ _ hne.symm, State.place_self]
    exact (hs c).die_final hc

/-- A join that everybody has reached is passed. -/
theorem accounts_reset {w f : ℕ} (hpc : s.pc w = .joinLoad f ∨ s.pc w = .joinSub f)
    (heq : (s.task f).frame.loadSteals = kU16Max - (s.task f).frame.loadJoins)
    (hloc : s'.loc = s.loc) (hother : ∀ g, g ≠ f → s'.task g = s.task g)
    (htask : s'.task f = { (s.task f).leave with
      frame := (s.task f).frame.reset, loc := (s.task f).loc }) : AllAccounts T s' := by
  have hs : AllAccounts T s := h.accounts
  have hf := h.run_loc (w := w) (f := f) (by rcases hpc with hpc | hpc <;> rw [hpc] <;> rfl)
  have haw : (s.task f).awaiting = none := by
    have hfresh := h.fresh w
    rcases hpc with hpc | hpc <;> rw [hpc] at hfresh <;> exact hfresh.1
  exact hs.rejoin hf haw heq hloc hother (by rw [htask, hf])

/-- A join gives up and leaves the task to the last child. -/
theorem accounts_lose {w f : ℕ} (hpc : s.pc w = .joinSub f)
    (hne : (s.task f).frame.loadSteals ≠ kU16Max - (s.task f).frame.loadJoins)
    (hfew : ∀ g, (((((s.modify f fun t => { t with
      frame := t.frame.fetchSubJoins (kU16Max - (s.task f).frame.loadSteals) }).place f
      .joining).goto w .selfSteal).takeHead w).task g).taken < 65535) :
    AllAccounts T ((((s.modify f fun t => { t with
      frame := t.frame.fetchSubJoins (kU16Max - (s.task f).frame.loadSteals) }).place f
      .joining).goto w .selfSteal).takeHead w) := by
  have hs : AllAccounts T s := h.accounts
  have hf := h.run_loc (w := w) (f := f) (by rw [hpc]; rfl)
  have haw := h.fresh w
  rw [hpc] at haw
  have hs₁ : AllAccounts T (((s.modify f fun t => { t with
      frame := t.frame.fetchSubJoins (kU16Max - (s.task f).frame.loadSteals) }).place f
      .joining).goto w .selfSteal) := by
    refine hs.change (f := f) (fun g hg => by simp [hg])
      (status_eq (l := .joining) (by simp) (State.status_eq_alive hf rfl).symm) ?_
    rw [State.goto_task, State.place_self, State.modify_self]
    exact (hs f).lose hf haw.1 hne
  exact h.accounts_takeHead hs₁ (.inr hpc) rfl (l := .joining) (by simp) hfew

/-- A worker takes its own newest continuation back. -/
theorem accounts_selfPop {w d : ℕ} {q : List ℕ} (hpc : s.pc w = .selfSteal)
    (hq : s.deque w = d :: q) :
    AllAccounts T (((s.setDeque w q).modify d Task.addSteal).enter w d) := by
  have hs : AllAccounts T s := h.accounts
  have hd : (s.task d).loc = .queued w := (h.placed.queued w d).mp (by simp [hq])
  have hfresh := h.fresh w
  rw [hpc, hq] at hfresh
  refine hs.change (f := d) (fun g hg => by simp [hg])
    (status_eq (l := .run w) (by simp) (State.status_eq_alive hd rfl).symm) ?_
  rw [State.enter_self, State.modify_self, State.setDeque_task]
  exact (hs d).addSteal (Or.inl ⟨w, hd⟩) (hfresh.1 d rfl)

end Inv

/-! ### The step lemma -/

/-- The step lemma for the accounts. -/
theorem accounts_of_moves (h : Moves T s a s') (hI : Inv T s)
    (hfew : ∀ f, (s'.task f).taken < 65535) : AllAccounts T s' := by
  have hs : AllAccounts T s := hI.accounts
  cases h with
  | spawn hl ht => exact hI.accounts_spawn hl ht
  | schedule hl => exact hI.accounts_schedule hl
  | popAll hpc htodo hq => exact hs.stay rfl
  | resume hpc htodo => exact hI.accounts_resume htodo
  | steal hpc htodo hq => exact hI.accounts_steal hq (hfew _)
  | fork hpc haw hl ht hpar => exact hI.accounts_fork hpc hl ht hpar
  | call hpc haw hl ht hpar => exact hI.accounts_call hpc haw hl ht hpar
  | retRoot hpc haw hscope ht => exact hI.accounts_retRoot hpc haw hscope ht
  | retCall hpc haw hscope ht => exact hI.accounts_retCall hpc haw hscope ht
  | retFork hpc haw hscope ht => exact hI.accounts_retFork hpc haw hscope
  | shortcut hpc haw hz => exact hI.accounts_shortcut hpc haw hz
  | joinCall hpc haw hz => exact hs.stay rfl
  | switch hpc haw => exact hI.accounts_switch hpc haw hfew
  | addSteal hpc => exact hI.accounts_addSteal hpc
  | awaitResume hpc haw => exact hI.accounts_awaitResume hpc
  | pop hpc hq => exact hI.accounts_pop hpc hq
  | popNone hpc hq => exact hs.stay rfl
  | decLast hpc hold => exact hI.accounts_decLast hpc hold
  | dec hpc hold => exact hI.accounts_dec hpc hold
  | yield hpc => exact hs.stay rfl
  | ready hpc heq =>
      refine hI.accounts_reset (.inl hpc) heq (by simp) (fun g hg => s.modify_of_ne _ g _ hg) ?_
      rw [State.goto_task, State.modify_self]
      rfl
  | notReady hpc => exact hs.stay rfl
  | win hpc heq =>
      refine hI.accounts_reset (.inr hpc) heq (by simp) (fun g hg => by simp [hg]) ?_
      rw [State.goto_task, State.modify_self, State.modify_self]
      rfl
  | lose hpc hne => exact hI.accounts_lose hpc hne hfew
  | release hpc => exact hs.stay rfl
  | selfPop hpc hq => exact hI.accounts_selfPop hpc hq
  | selfNone hpc hq => exact hs.stay rfl

/-! ## Every run -/

/-- **The step lemma.** -/
theorem inv_of_moves (h : Moves T s a s') (hI : Inv T s)
    (hfew : ∀ f, (s'.task f).taken < 65535) : Inv T s' := by
  refine ⟨lined_of_moves h hI.lined, ?_, fresh_of_moves h hI, accounts_of_moves h hI hfew⟩
  refine placed_of_moves h hI.placed hI.lined ?_ ?_
  · intro w f hpc ht
    exact hI.calling ht (hI.alive_of_code (w := w) (by rw [hpc]; rfl))
  · intro w c hpc hone
    exact (hI.last hpc hone).1

/-- **The run lemma.** -/
theorem inv_of_run (h : (machine T).Run (FewSteals T) .init as s) : Inv T s := by
  refine Machine.Run.invariant ?_ inv_init h
  intro s a s' hs hok hstep
  exact inv_of_moves (moves_of_step hstep) hs (hok s' hstep)

end Libfork.Runtime
