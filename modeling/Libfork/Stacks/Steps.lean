import Libfork.Stacks.Effects

/-!
# Every step has an effect

* `State.after` — a step of the workers, with what it does to the stacks.
* `Linked` — what the tasks know about the stacks.
* **`effect_of_code`** — what a step does to the stacks is one of the effects.

Source: as in the model.
-/

namespace Libfork.Stacks

open Libfork.Found Libfork.Join Libfork.Runtime

variable {T : Tree} {s s' : State} {a : Act} {b : Runtime.Act} {rt : Runtime.State} {grow : Bool}
  {root w f c : ℕ}

/-! ## After a step -/

namespace State

variable (T) (s) (b) (grow) (root) (rt)

/-- A step of the workers to `rt`. -/
def after : State := { s.look T b with rt := rt, st := s.effect T grow root b }

/-- The workers after the step. -/
@[simp] theorem after_rt : (s.after T b rt grow root).rt = rt := rfl

/-- The stacks after the step. -/
@[simp] theorem after_st : (s.after T b rt grow root).st = s.effect T grow root b := rfl

/-- A step of the workers allocates no `co_new` block. -/
@[simp] theorem after_allocs : (s.after T b rt grow root).allocs = s.allocs := by
  unfold after look
  split
  · split <;> rfl
  · rfl

variable {b}

/-- Who looks at the stacks does so for itself. -/
theorem after_look {v : ℕ} (hv : ∀ w, b.mover = some w → v ≠ w) :
    (s.after T b rt grow root).pStacklet v = s.pStacklet v ∧
      (s.after T b rt grow root).cStacklet v = s.cStacklet v := by
  unfold after look
  split
  · next w =>
    have hvw := hv w rfl
    split
    · exact ⟨Function.update_of_ne hvw .., Function.update_of_ne hvw ..⟩
    · exact ⟨rfl, rfl⟩
  · exact ⟨rfl, rfl⟩

/-- A worker that does not stand at `final_await_suspend` does not look. -/
theorem look_eq (h : ∀ w c, b = .step w → s.rt.pc w ≠ .final c) : s.look T b = s := by
  unfold look
  split
  · next w =>
    split
    · next c hpc _ => exact absurd hpc (h w c rfl)
    · rfl
  · rfl

end State

/-- A deallocation changes no frame's stacklet. -/
@[simp] theorem deallocate_mStacklet (st : Chains) :
    (st.deallocate w).mStacklet = st.mStacklet := by
  unfold Chains.deallocate
  split <;> rfl

/-- What is alive was born. -/
theorem ne_unborn {rt : Runtime.State} {g : ℕ} (hg : rt.status g = .alive) :
    rt.loc g ≠ .unborn := by
  intro hl
  cases hg.symm.trans (congrArg Loc.status hl)

/-- The frames that are there keep their stacklets. -/
theorem newFrame_mStacklet (st : Chains) {g : ℕ} (hg : g ≠ c) :
    (st.newFrame w c grow).mStacklet g = st.mStacklet g := Function.update_of_ne hg ..

/-- The new frame is on the stacklet that it was allocated on. -/
theorem newFrame_self (st : Chains) : (st.newFrame w c grow).mStacklet c = st.next w grow :=
  (Function.update_self ..).trans (Function.update_self ..)

/-- The frames that are there remember what they did. -/
theorem mStacklet_effect (h : Moves T s.rt b rt) {g : ℕ} (hg : s.rt.loc g ≠ .unborn) :
    (s.effect T grow root b).mStacklet g = s.st.mStacklet g := by
  have hne : ∀ {c}, (s.rt.task c).loc = .unborn → g ≠ c := by
    rintro c hc rfl
    exact hg hc
  cases h with
  | spawn hl => exact Function.update_of_ne (hne hl) ..
  | fork _ _ hl => exact newFrame_mStacklet _ (hne hl)
  | call _ _ hl => exact newFrame_mStacklet _ (hne hl)
  | _ =>
    simp only [State.effect, State.stepEffect, deallocate_mStacklet, *]
    try split_ifs
    all_goals rfl

/-- The other workers' stacks stay where they are. -/
theorem deallocate_mFib {st : Chains} {v : ℕ} (hv : v ≠ w) :
    (st.deallocate w).mFib v = st.mFib v := by
  unfold Chains.deallocate
  split_ifs
  · exact Function.update_of_ne hv ..
  · rfl

/-- The stacks of the others stay where they are. -/
theorem mFib_effect (s : State) {v : ℕ} (hv : ∀ w, b.mover = some w → v ≠ w) :
    (s.effect T grow root b).mFib v = s.st.mFib v := by
  have hnew : ∀ {w c}, v ≠ w → (s.st.newFrame w c grow).mFib v = s.st.mFib v :=
    fun hvw => Function.update_of_ne hvw ..
  have htake : ∀ {w p}, v ≠ w → (s.st.take w p).mFib v = s.st.mFib v :=
    fun hvw => Function.update_of_ne hvw ..
  have hrelease : ∀ {w}, v ≠ w → (s.st.release w root).mFib v = s.st.mFib v :=
    fun hvw => Function.update_of_ne hvw ..
  unfold State.effect
  split
  · rfl
  · split
    · split_ifs
      · exact htake (hv _ rfl)
      · rfl
    · rfl
  · exact hnew (hv _ rfl)
  · exact hnew (hv _ rfl)
  · exact deallocate_mFib (hv _ rfl)
  · unfold State.stepEffect
    split
    · split_ifs
      · exact htake (hv _ rfl)
      · rfl
    · split_ifs
      · exact hrelease (hv _ rfl)
      · rfl
    · split_ifs
      · exact htake (hv _ rfl)
      · rfl
    · split_ifs
      · exact htake (hv _ rfl)
      · rfl
    · split_ifs
      · exact hrelease (hv _ rfl)
      · rfl
    · rfl
  · rfl

/-! ## Who holds what, after a step -/

section after

variable (h : Moves T s.rt b rt) (hI : Inv T s.rt)

include h

/-- A task that was born stays where it is. -/
theorem home_after {g : ℕ} (hg : s.rt.loc g ≠ .unborn) :
    (s.after T b rt grow root).home g = s.home g :=
  congrArg Stacklet.root (mStacklet_effect h hg)

include hI

/-- The others hold what they held. -/
theorem hold_other {v : ℕ} (hv : ∀ w, b.mover = some w → v ≠ w) :
    (s.after T b rt grow root).hold T v = s.hold T v := by
  obtain ⟨hp, hc⟩ := s.after_look T rt grow root hv
  refine State.hold_congr T s (pc_other h hv) (fun f hf => steals_other h hI hv hf) ?_ hp hc
  intro c hret
  have halive := hI.alive_of_returned hret
  have ht : T.tag c ≠ .root := by
    simp [hI.fork_of_returned hret]
  exact ⟨home_after h (ne_unborn halive), home_after h (ne_unborn (hI.alive_parent ht halive))⟩

/-- What a worker holds after a step of its own. -/
theorem hold_after (hb : b.mover = some w) {l : Hold ℕ}
    (hl : (s.after T b rt grow root).hold T w = l) :
    (s.after T b rt grow root).hold T = Function.update (s.hold T) w l := by
  funext v
  by_cases hv : v = w
  · rw [hv, Function.update_self, hl]
  · rw [Function.update_of_ne hv]
    apply hold_other h hI
    intro w' hw'
    rw [hb] at hw'
    cases hw'
    exact hv

end after

/-! ## How many blocks the tasks have, after a step -/

/-- What goes elsewhere, and comes no further by it. -/
theorem ended_update {loc : ℕ → Loc} {f : ℕ} {l : Loc} (hl : l.ended = (loc f).ended) (g : ℕ) :
    (Function.update loc f l g).ended = (loc g).ended := by
  by_cases hg : g = f
  · rw [hg, Function.update_self, hl]
  · rw [Function.update_of_ne hg]

/-- Where no task begins or ends, all have as many blocks as before. -/
theorem size_after (h : ∀ g, (rt.loc g).ended = (s.rt.loc g).ended) :
    (s.after T b rt grow root).size = s.size := by
  funext g
  unfold State.size
  rw [State.after_rt, State.after_allocs, h g]

/-- A task begins. -/
theorem size_begins (h : ∀ g, g ≠ c → (rt.loc g).ended = (s.rt.loc g).ended)
    (hc : (rt.loc c).ended = false) (hspare : s.allocs c = 0) :
    (s.after T b rt grow root).size = Function.update s.size c 1 := by
  funext g
  unfold State.size
  rw [State.after_rt, State.after_allocs]
  by_cases hg : g = c
  · rw [hg, Function.update_self, hc, hspare]
    rfl
  · rw [Function.update_of_ne hg, h g hg]

/-- A task ends. -/
theorem size_ends (h : ∀ g, g ≠ c → (rt.loc g).ended = (s.rt.loc g).ended)
    (hc : (rt.loc c).ended = true) :
    (s.after T b rt grow root).size = Function.update s.size c 0 := by
  funext g
  unfold State.size
  rw [State.after_rt, State.after_allocs]
  by_cases hg : g = c
  · rw [hg, Function.update_self, hc]
    rfl
  · rw [Function.update_of_ne hg, h g hg]

/-! ## What links the tasks to the stacks -/

/-- What the tasks know about the stacks, where the workers' counters and program counters do not
say it. -/
structure Linked (T : Tree) (s : State) : Prop where
  /-- A call is on the stack of its caller, if the caller was not stolen. -/
  called : ∀ p c, s.rt.loc p = .calling c → (s.home c = s.home p ↔ s.rt.steals p = 0)
  /-- So is a fork whose continuation waits in a deque. -/
  forked : ∀ v p k, s.rt.loc p = .queued v → s.rt.awaits p = some k → k.taken = false →
    (s.home k.child = s.home p ↔ k.stealsPre = 0)
  /-- What `final_await_suspend` saw is still there. -/
  looked : ∀ v c, s.rt.pc v = .subJoin c →
    s.pStacklet v = s.st.mStacklet (T.parent c) ∧ s.cStacklet v = s.st.top v
  /-- Only a task that was stolen gets as far as the atomics of a join. -/
  joins : ∀ v f, s.rt.pc v = .joinLoad f ∨ s.rt.pc v = .joinSub f → s.rt.steals f ≠ 0
  /-- A task is given blocks in its code only. -/
  spare : ∀ f, (s.rt.loc f).ended = true → s.allocs f = 0

/-- The workers, their stacks and the links between them are in order. -/
structure Owned (T : Tree) (s : State) : Prop where
  inv : Inv T s.rt
  inOrder : InOrder T s
  linked : Linked T s

/-! ## The effect of a step -/

/-- A step that leaves the stacks alone, and the worker that takes it with what it had. -/
theorem quiet_after (h : Moves T s.rt b rt) (hI : Inv T s.rt) (hb : b.mover = some w)
    (hst : s.effect T grow root b = s.st)
    (hhold : (s.after T b rt grow root).hold T w = s.hold T w)
    (hended : ∀ g, (rt.loc g).ended = (s.rt.loc g).ended) :
    Effect T s (s.after T b rt grow root) (.code b grow root) := by
  refine .quiet hst ?_ (size_after hended)
  rw [hold_after h hI hb hhold, Function.update_eq_self]

section hold

variable {v : ℕ}

/-- A worker whose task was not stolen has its chain. -/
theorem hold_run (hpc : s.rt.pc v = .run f) (hz : s.rt.steals f = 0) : s.hold T v = .top f := by
  unfold State.hold
  rw [hpc]
  exact if_pos hz

/-- One whose task was stolen has an empty chain. -/
theorem hold_run_of_ne (hpc : s.rt.pc v = .run f) (hz : s.rt.steals f ≠ 0) :
    s.hold T v = .bare := by
  unfold State.hold
  rw [hpc]
  exact if_neg hz

/-- Who looks for its parent has what is under the child. -/
theorem hold_returned (hc : (s.rt.pc v).returned = some c) : s.hold T v = s.under T c := by
  unfold State.hold
  rcases Pc.returned_eq_some.mp hc with hpc | hpc <;> rw [hpc]

/-- A worker that neither runs a task nor looks for a parent, nor is about to begin a new chain,
has an empty chain. -/
theorem hold_eq_bare (hpc : s.rt.pc v = .idle ∨ (∃ f, s.rt.pc v = .stolen f) ∨
    (∃ f, s.rt.pc v = .joinLoad f) ∨ (∃ f, s.rt.pc v = .joinSub f) ∨ s.rt.pc v = .selfSteal) :
    s.hold T v = .bare := by
  unfold State.hold
  rcases hpc with hpc | ⟨f, hpc⟩ | ⟨f, hpc⟩ | ⟨f, hpc⟩ | hpc <;> rw [hpc]

end hold

/-! ### Taking a chain over -/

/-- `f` waits for `w` to go on with it: nobody runs it, and all its children have returned. -/
structure Suspended (T : Tree) (rt : Runtime.State) (w f : ℕ) : Prop where
  live : (rt.loc f).ended = false
  idle : ∀ v, rt.pc v ≠ .run f
  leaf : ∀ c, T.tag c ≠ .root → T.parent c = f → (rt.loc c).ended = true
  returned : ∀ v c, (rt.pc v).returned = some c → T.parent c = f → v = w

section continues

variable (hI : Inv T s.rt)

include hI

/-- Nobody else is in the code of a task. -/
theorem run_ne {l : Loc} (hf : s.rt.loc f = l) (hl : ∀ v, l ≠ .run v) (v : ℕ) :
    s.rt.pc v ≠ .run f := by
  intro hpc
  have hloc : s.rt.loc f = .run v := hI.run_loc (by rw [hpc]; rfl)
  exact hl v (hf.symm.trans hloc)

/-- A task that is owed no child has none that runs. -/
theorem suspended_of_owed (hlive : (s.rt.loc f).ended = false) (hidle : ∀ v, s.rt.pc v ≠ .run f)
    (hcalling : ∀ c, s.rt.loc f ≠ .calling c) (howed : (s.rt.task f).owed = ∅) :
    Suspended T s.rt w f := by
  have hnone : ∀ c, T.tag c ≠ .root → T.parent c = f → s.rt.status c ≠ .alive :=
    (hI.accounts f).no_children hcalling howed
  refine ⟨hlive, hidle, fun c ht hpar => Loc.ended_of_status (hnone c ht hpar), ?_⟩
  intro v c hc hpar
  exact absurd (hI.alive_of_returned hc) (hnone c (by simp [hI.fork_of_returned hc]) hpar)

/-- A task that awaits a join, and finds all children finished. -/
theorem suspended_of_joined (hpc : s.rt.pc w = .joinLoad f ∨ s.rt.pc w = .joinSub f)
    (hj : s.Joined f) : Suspended T s.rt w f := by
  have hcode : (s.rt.pc w).code = some f := by
    rcases hpc with hpc | hpc <;> rw [hpc] <;> rfl
  have hrun : s.rt.loc f = .run w := hI.run_loc hcode
  have hbalance := (hI.accounts f).balance
  rw [phase_run hrun] at hbalance
  have howed := Finset.card_eq_zero.mp (hbalance.joined_iff.mp hj)
  refine suspended_of_owed hI (by rw [hrun]; rfl) ?_ (by simp [hrun]) howed
  intro v hv
  have hrun' : s.rt.loc f = .run v := hI.run_loc (by rw [hv]; rfl)
  obtain rfl : w = v := Loc.run.inj (hrun.symm.trans hrun')
  rw [hv] at hpc
  simp at hpc

/-- Of the children of a task that awaits a join, the last to join is the last to return. -/
theorem eq_of_last (hpc : s.rt.pc w = .subJoin c)
    (hold : (s.rt.task (T.parent c)).frame.loadJoins = 1) {c' : ℕ} (ht : T.tag c' ≠ .root)
    (hpar : T.parent c' = T.parent c) (hst : s.rt.status c' = .alive) : c' = c := by
  obtain ⟨hjoining, howed⟩ := hI.last hpc hold
  have haccounts := hI.accounts (T.parent c)
  cases htag : T.tag c' with
  | root => exact absurd htag ht
  | call =>
    have hcalling : s.rt.loc (T.parent c) = .calling c' :=
      (haccounts.calling c').mpr ⟨htag, hpar, hst⟩
    cases hjoining.symm.trans hcalling
  | fork =>
    have hmem := (haccounts.owed c').mpr ⟨htag, hpar, hst⟩
    by_contra hcc
    have hmem' := Finset.mem_erase.mpr ⟨hcc, hmem⟩
    rw [howed] at hmem'
    exact absurd hmem' (Finset.notMem_empty c')

/-- A task that a worker goes on with waited for that. -/
theorem Continues.suspended (h : Continues T s b w f) : Suspended T s.rt w f := by
  cases h with
  | @last _ c hpc hold =>
    have hjoining := (hI.last hpc hold).1
    have hfinal : s.rt.loc c = .final w := (hI.placed.final w c).mp (by rw [hpc]; rfl)
    refine ⟨by rw [hjoining]; rfl, run_ne hI hjoining (by simp), ?_, ?_⟩
    · intro c' ht hpar
      by_cases hst : s.rt.status c' = .alive
      · rw [eq_of_last hI hpc hold ht hpar hst, hfinal]
        rfl
      · exact Loc.ended_of_status hst
    · intro v c' hret hpar
      have ht : T.tag c' ≠ .root := by simp [hI.fork_of_returned hret]
      obtain rfl := eq_of_last hI hpc hold ht hpar (hI.alive_of_returned hret)
      exact Loc.final.inj (((hI.placed.final v c').mp hret).symm.trans hfinal)
  | ready hpc hj => exact suspended_of_joined hI (.inl hpc) hj
  | win hpc hj => exact suspended_of_joined hI (.inr hpc) hj
  | @submitted _ _ fs hpc htodo hz =>
    have hsub : s.rt.loc f = .submitted w := (hI.placed.submitted w f).mp (by simp [htodo])
    have hbalance := (hI.accounts f).balance
    rw [Task.phase, show (s.rt.task f).loc = .submitted w from hsub] at hbalance
    have howed := Finset.card_eq_zero.mp (hbalance.of_steals_eq_zero hz).1
    exact suspended_of_owed hI (by rw [hsub]; rfl) (run_ne hI hsub (by simp)) (by simp [hsub]) howed

end continues

/-- A worker with an empty chain goes on with a task that waits for it. -/
theorem takes_after (h : Moves T s.rt b rt) (hs : Owned T s) (hb : b.mover = some w)
    (hcont : Continues T s b w f) (hw : s.hold T w = .bare)
    (hst : s.effect T grow root b = s.st.take w (s.st.mStacklet f))
    (hpc : rt.pc w = .run f) (hz : rt.steals f = 0)
    (hended : ∀ g, (rt.loc g).ended = (s.rt.loc g).ended) :
    Effect T s (s.after T b rt grow root) (.code b grow root) := by
  obtain ⟨hlive, hidle, hleaf, hret⟩ := hcont.suspended hs.inv
  refine .takes hcont hw (s.size_pos_iff.mpr hlive) ?_ ?_ hst ?_ (size_after hended)
  · intro v hv
    rcases s.hold_eq_top T hv with hrun | ⟨c, hc, hpar⟩
    · exact hidle v hrun
    · rw [hret v c hc hpar, hw] at hv
      cases hv
  · intro c ht hpar
    exact s.size_eq_zero (hleaf c ht hpar)
  · exact hold_after h hs.inv hb (hold_run (s := s.after T b rt grow root) hpc hz)

/-- A join is won by the task that awaits it. -/
theorem takes_of_join (h : Moves T s.rt (.step w) rt) (hs : Owned T s)
    (hpc : s.rt.pc w = .joinLoad f ∨ s.rt.pc w = .joinSub f) (hj : s.Joined f)
    (hpc' : rt.pc w = .run f) (hz : rt.steals f = 0) (hloc : rt.loc = s.rt.loc) :
    Effect T s (s.after T (.step w) rt grow root) (.code (.step w) grow root) := by
  have hcont : Continues T s (.step w) w f := by
    rcases hpc with hpc | hpc
    · exact .ready hpc hj
    · exact .win hpc hj
  have hbare : s.hold T w = .bare :=
    hold_eq_bare (hpc.elim (fun h => .inr (.inr (.inl ⟨f, h⟩)))
      fun h => .inr (.inr (.inr (.inl ⟨f, h⟩))))
  refine takes_after h hs rfl hcont hbare ?_ hpc' hz fun g => by rw [hloc]
  unfold State.effect State.stepEffect
  rcases hpc with hpc | hpc <;> simp only [hpc, if_pos hj]

/-- `final_await_suspend` tells by the stacklets which chain the parent is on. -/
theorem looked_iff (hs : Owned T s) (hpc : s.rt.pc w = .subJoin c) :
    s.pStacklet w = s.cStacklet w ↔ s.home c = s.home (T.parent c) := by
  have hret : (s.rt.pc w).returned = some c := by rw [hpc]; rfl
  have hw := hold_returned (T := T) hret
  unfold State.under at hw
  obtain ⟨hlookp, hlookc⟩ := hs.linked.looked w c hpc
  rw [hlookp, hlookc]
  by_cases hhome : s.home c = s.home (T.parent c)
  · rw [if_pos hhome] at hw
    exact iff_of_true (hs.inOrder.pointed.top_eq hs.inOrder.kept hw) hhome
  · rw [if_neg hhome] at hw
    refine iff_of_false (fun heq => ?_) hhome
    have hp := hs.inv.ended_parent (by simp [hs.inv.fork_of_returned hret])
      (hs.inv.alive_of_returned hret)
    exact hs.inOrder.kept.home_ne_of_bare hw (s.size_pos_iff.mpr hp) (congrArg Stacklet.root heq)

/-- The last child to join goes on with its parent. -/
theorem effect_decLast (h : Moves T s.rt (.step w) rt) (hs : Owned T s)
    (hpc : s.rt.pc w = .subJoin c) (hold : (s.rt.task (T.parent c)).frame.loadJoins = 1)
    (hpc' : rt.pc w = .run (T.parent c)) (hz : rt.steals (T.parent c) = 0)
    (hloc : rt.loc =
      Function.update (Function.update s.rt.loc c .dead) (T.parent c) (.run w)) :
    Effect T s (s.after T (.step w) rt grow root) (.code (.step w) grow root) := by
  have hret : (s.rt.pc w).returned = some c := by rw [hpc]; rfl
  have ht := hs.inv.fork_of_returned hret
  have hfinal : s.rt.loc c = .final w := (hs.inv.placed.final w c).mp hret
  have hjoining := (hs.inv.last hpc hold).1
  have hne : T.parent c ≠ c := (T.parent_lt c (by simp [ht])).ne
  have hended : ∀ g, (rt.loc g).ended = (s.rt.loc g).ended := by
    intro g
    rw [hloc, ended_update, ended_update]
    · rw [hfinal]
      rfl
    · rw [Function.update_of_ne hne, hjoining]
      rfl
  have hlook := looked_iff hs hpc
  have heffect : s.effect T grow root (.step w) =
      if s.pStacklet w ≠ s.cStacklet w then s.st.take w (s.pStacklet w) else s.st := by
    unfold State.effect State.stepEffect
    simp only [hpc, hold, true_and]
  have hrun := hold_run (T := T) (s := s.after T (.step w) rt grow root) hpc' hz
  by_cases hhome : s.home c = s.home (T.parent c)
  · have hw : s.hold T w = .top (T.parent c) := by
      rw [hold_returned hret]
      exact if_pos hhome
    refine quiet_after h hs.inv rfl ?_ (hrun.trans hw.symm) hended
    rw [heffect, if_neg (not_not.mpr (hlook.mpr hhome))]
  · have hw : s.hold T w = .bare := by
      rw [hold_returned hret]
      exact if_neg hhome
    refine takes_after h hs rfl (.last hpc hold) hw ?_ hpc' hz hended
    rw [heffect, if_pos fun heq => hhome (hlook.mp heq), (hs.linked.looked w c hpc).1]

/-! ### Beginning and ending -/

/-- A new task begins. -/
theorem effect_invoke (h : Moves T s.rt b rt) (hs : Owned T s) (hb : b.mover = some w)
    (hpc : s.rt.pc w = .run f) (hl : s.rt.loc c = .unborn) (ht : T.tag c ≠ .root)
    (hpar : T.parent c = f) (hst : s.effect T grow root b = s.st.newFrame w c grow)
    (hpc' : rt.pc w = .run c) (hz : rt.steals c = s.rt.steals c)
    {l : Loc} (hloc : rt.loc = Function.update (Function.update s.rt.loc f l) c (.run w))
    (hlive : l.ended = false) :
    Effect T s (s.after T b rt grow root) (.code b grow root) := by
  have hunborn : (s.rt.loc c).ended = true := by rw [hl]; rfl
  have hrun : s.rt.loc f = .run w := hs.inv.run_loc (by rw [hpc]; rfl)
  refine .begins hb ht ?_ (s.size_eq_zero hunborn) hst ?_ (size_begins ?_ ?_ ?_)
  · subst hpar
    by_cases hsteals : s.rt.steals (T.parent c) = 0
    · exact Or.inr (hold_run hpc hsteals)
    · exact Or.inl (hold_run_of_ne hpc hsteals)
  · refine hold_after h hs.inv hb (hold_run (s := s.after T b rt grow root) hpc' ?_)
    exact hz.trans (hs.inv.steals_of_ended hunborn)
  · intro g hg
    rw [hloc, Function.update_of_ne hg, ended_update]
    rw [hlive, hrun]
    rfl
  · rw [hloc, Function.update_self]
    rfl
  · exact hs.linked.spare c hunborn

/-- A task that returns has its chain, with nothing on it but its frame and what is under it. -/
theorem hold_of_ret (hs : Owned T s) (hstrict : s.Strict (.ret w)) (hpc : s.rt.pc w = .run f)
    (haw : (s.rt.task f).awaiting = none) (hscope : (s.rt.task f).scope = false) :
    s.hold T w = .top f ∧ s.size f = 1 := by
  have hrun : s.rt.loc f = .run w := hs.inv.run_loc (by rw [hpc]; rfl)
  refine ⟨hold_run hpc (hs.inv.steals_eq_zero hscope (phase_run hrun)), ?_⟩
  have hallocs : s.allocs f = 0 := hstrict f (running_eq_some.mpr ⟨hpc, haw⟩)
  unfold State.size
  rw [hrun, hallocs]
  rfl

/-- A task that is not a root returns. -/
theorem effect_return (h : Moves T s.rt (.ret w) rt) (hs : Owned T s)
    (hw : s.hold T w = .top f ∧ s.size f = 1) (hpc : s.rt.pc w = .run f)
    (ht : T.tag f ≠ .root) (hhold : (s.after T (.ret w) rt grow root).hold T w = s.under T f)
    (hloc : ∀ g, g ≠ f → (rt.loc g).ended = (s.rt.loc g).ended)
    (hf : (rt.loc f).ended = true) :
    Effect T s (s.after T (.ret w) rt grow root) (.code (.ret w) grow root) := by
  have halive := hs.inv.alive_of_code (w := w) (f := f) (by rw [hpc]; rfl)
  refine .ends rfl hw.1 hw.2 (fun hroot => absurd hroot ht) (fun _ => ⟨?_, rfl⟩) rfl
    (hold_after h hs.inv rfl hhold) (size_ends hloc hf)
  exact s.size_pos_iff.mpr (hs.inv.ended_parent ht halive)

/-! ### Case by case -/

namespace Owned

variable (hs : Owned T s)

include hs

/-- A root gets its frame on a chain of its own. -/
theorem effect_spawn {r : ℕ} (hroot : s.st.chain root = none) (hl : (s.rt.task r).loc = .unborn)
    (ht : T.tag r = .root) : Effect T s (s.after T (.spawn r) (s.rt.place r .outside) grow root)
      (.code (.spawn r) grow root) := by
  have h : Moves T s.rt (.spawn r) (s.rt.place r .outside) := .spawn hl ht
  have hunborn : (s.rt.loc r).ended = true := by rw [show s.rt.loc r = .unborn from hl]; rfl
  refine .plants (s.size_eq_zero hunborn) hroot rfl ?_ (size_begins ?_ ?_ ?_)
  · exact funext fun v => hold_other h hs.inv (by simp [Runtime.Act.mover])
  · intro g hg
    rw [State.loc_place, Function.update_of_ne hg]
  · simp [Loc.ended]
  · exact hs.linked.spare r hunborn

/-- A handle is submitted, with its chain. -/
theorem effect_schedule (hl : (s.rt.task f).loc = .outside) :
    Effect T s (s.after T (.schedule f w) (s.rt.schedule f w) grow root)
      (.code (.schedule f w) grow root) := by
  have h : Moves T s.rt (.schedule f w) (s.rt.schedule f w) := .schedule hl
  refine .quiet rfl ?_ (size_after ?_)
  · exact funext fun v => hold_other h hs.inv (by simp [Runtime.Act.mover])
  · rw [State.loc_schedule]
    exact ended_update (by rw [show s.rt.loc f = .outside from hl]; rfl)

/-- A submitted task is resumed, on its own chain unless it was stolen. -/
theorem effect_resume {fs : List ℕ} (hpc : s.rt.pc w = .idle) (htodo : s.rt.todo w = f :: fs) :
    Effect T s (s.after T (.resume w) (s.rt.resume w f fs) grow root)
      (.code (.resume w) grow root) := by
  have h : Moves T s.rt (.resume w) (s.rt.resume w f fs) := .resume hpc htodo
  have hsub : s.rt.loc f = .submitted w := (hs.inv.placed.submitted w f).mp (by simp [htodo])
  have hended : ∀ g, ((s.rt.resume w f fs).loc g).ended = (s.rt.loc g).ended := by
    rw [State.loc_resume]
    exact ended_update (by rw [hsub]; rfl)
  have hpc' : (s.rt.resume w f fs).pc w = .run f := by simp
  have hsteals : (s.rt.resume w f fs).steals f = s.rt.steals f :=
    congrFun (State.steals_enter _ w f) f
  have hbare : s.hold T w = .bare := hold_eq_bare (.inl hpc)
  have heffect : s.effect T grow root (.resume w) =
      if s.rt.steals f = 0 then s.st.take w (s.st.mStacklet f) else s.st := by
    unfold State.effect
    simp only [htodo]
    rfl
  by_cases hz : s.rt.steals f = 0
  · refine takes_after h hs rfl (.submitted hpc htodo hz) hbare ?_ hpc' (hsteals.trans hz) hended
    rw [heffect, if_pos hz]
  · refine quiet_after h hs.inv rfl ?_ ?_ hended
    · rw [heffect, if_neg hz]
    · rw [hbare]
      exact hold_run_of_ne (s := s.after T _ _ _ _) hpc' (by simpa [hsteals] using hz)

/-- A thief takes a continuation, and no chain. -/
theorem effect_steal {v : ℕ} {q : List ℕ} (hpc : s.rt.pc w = .idle) (htodo : s.rt.todo w = [])
    (hq : s.rt.deque v = q ++ [f]) :
    Effect T s (s.after T (.steal w v) (s.rt.steal w v f q) grow root)
      (.code (.steal w v) grow root) := by
  have h : Moves T s.rt (.steal w v) (s.rt.steal w v f q) := .steal hpc htodo hq
  have hqueued : s.rt.loc f = .queued v := (hs.inv.placed.queued v f).mp (by simp [hq])
  refine quiet_after h hs.inv rfl rfl ?_ ?_
  · rw [hold_eq_bare (.inl hpc)]
    exact hold_eq_bare (s := s.after T _ _ _ _) (.inr (.inl ⟨f, by simp [State.steal]⟩))
  · have hloc : (s.rt.steal w v f q).loc = Function.update s.rt.loc f (.stolen w) := by
      simp [State.steal]
    rw [hloc]
    exact ended_update (by rw [hqueued]; rfl)

/-- A root returns, and takes its frame off. -/
theorem effect_retRoot (hstrict : s.Strict (.ret w)) (hpc : s.rt.pc w = .run f)
    (haw : (s.rt.task f).awaiting = none) (hscope : (s.rt.task f).scope = false)
    (ht : T.tag f = .root) :
    Effect T s (s.after T (.ret w) ((s.rt.place f .dead).goto w .idle) grow root)
      (.code (.ret w) grow root) := by
  have h : Moves T s.rt (.ret w) ((s.rt.place f .dead).goto w .idle) :=
    .retRoot hpc haw hscope ht
  obtain ⟨hw, hf⟩ := hold_of_ret hs hstrict hpc haw hscope
  refine .ends rfl hw hf (fun _ => rfl) (fun hne => absurd ht hne) rfl ?_ (size_ends ?_ ?_)
  · exact hold_after h hs.inv rfl (hold_eq_bare (s := s.after T _ _ _ _) (.inl (by simp)))
  · intro g hg
    rw [State.loc_goto, State.loc_place, Function.update_of_ne hg]
  · simp [Loc.ended]

/-- A called task returns to its caller, whose chain it is on unless the caller was stolen. -/
theorem effect_retCall (hstrict : s.Strict (.ret w)) (hpc : s.rt.pc w = .run f)
    (haw : (s.rt.task f).awaiting = none) (hscope : (s.rt.task f).scope = false)
    (ht : T.tag f = .call) :
    Effect T s (s.after T (.ret w) ((s.rt.place f .dead).enter w (T.parent f)) grow root)
      (.code (.ret w) grow root) := by
  have h : Moves T s.rt (.ret w) ((s.rt.place f .dead).enter w (T.parent f)) :=
    .retCall hpc haw hscope ht
  have hw := hold_of_ret hs hstrict hpc haw hscope
  have hcalling := hs.inv.calling ht (hs.inv.alive_of_code (w := w) (by rw [hpc]; rfl))
  have hne : f ≠ T.parent f := (T.parent_lt f (by simp [ht])).ne'
  refine effect_return h hs hw hpc (by simp [ht]) ?_ ?_ ?_
  · have hcalled := hs.linked.called _ f hcalling
    have hsteals : ((s.rt.place f .dead).enter w (T.parent f)).steals = s.rt.steals := by simp
    unfold State.under
    by_cases hz : s.rt.steals (T.parent f) = 0
    · rw [if_pos (hcalled.mpr hz)]
      exact hold_run (s := s.after T _ _ _ _) (by simp) ((congrFun hsteals _).trans hz)
    · rw [if_neg fun heq => hz (hcalled.mp heq)]
      exact hold_run_of_ne (s := s.after T _ _ _ _) (by simp) fun heq =>
        hz ((congrFun hsteals _).symm.trans heq)
  · intro g hg
    rw [State.loc_enter, State.loc_place, ended_update, Function.update_of_ne hg]
    rw [Function.update_of_ne hne.symm, hcalling]
    rfl
  · rw [State.loc_enter, State.loc_place, Function.update_of_ne hne, Function.update_self]
    rfl

/-- A forked task returns, and its worker keeps what is under it. -/
theorem effect_retFork (hstrict : s.Strict (.ret w)) (hpc : s.rt.pc w = .run f)
    (haw : (s.rt.task f).awaiting = none) (hscope : (s.rt.task f).scope = false)
    (ht : T.tag f = .fork) :
    Effect T s (s.after T (.ret w) ((s.rt.place f (.final w)).goto w (.final f)) grow root)
      (.code (.ret w) grow root) := by
  have h : Moves T s.rt (.ret w) ((s.rt.place f (.final w)).goto w (.final f)) :=
    .retFork hpc haw hscope ht
  have hw := hold_of_ret hs hstrict hpc haw hscope
  have halive := hs.inv.alive_of_code (w := w) (f := f) (by rw [hpc]; rfl)
  refine effect_return h hs hw hpc (by simp [ht]) ?_ ?_ ?_
  · rw [hold_returned (s := s.after T _ _ _ _) (c := f) (by simp [Pc.returned])]
    unfold State.under
    rw [home_after h (ne_unborn halive),
      home_after h (ne_unborn (hs.inv.alive_parent (by simp [ht]) halive))]
  · intro g hg
    rw [State.loc_goto, State.loc_place, Function.update_of_ne hg]
  · simp [Loc.ended]

/-- A task is switched out, and its chain goes with it unless it was stolen. -/
theorem effect_switch (hpc : s.rt.pc w = .run f) (haw : (s.rt.task f).awaiting = none) :
    Effect T s (s.after T (.switch w) (s.rt.switch w f) grow root)
      (.code (.switch w) grow root) := by
  have h : Moves T s.rt (.switch w) (s.rt.switch w f) := .switch hpc haw
  have hrun : s.rt.loc f = .run w := hs.inv.run_loc (by rw [hpc]; rfl)
  have hended : ∀ g, ((s.rt.switch w f).loc g).ended = (s.rt.loc g).ended := by
    simp only [State.switch, State.loc_takeHead, State.loc_goto, State.loc_place]
    exact ended_update (by rw [hrun]; rfl)
  have hnew : (s.after T (.switch w) (s.rt.switch w f) grow root).hold T w =
      if s.rt.steals f = 0 then .gone else .bare := by
    unfold State.hold
    simp [State.switch]
    rfl
  by_cases hz : s.rt.steals f = 0
  · rw [if_pos hz] at hnew
    exact .givesUp rfl (hold_run hpc hz) rfl (hold_after h hs.inv rfl hnew) (size_after hended)
  · rw [if_neg hz] at hnew
    exact quiet_after h hs.inv rfl rfl (hnew.trans (hold_run_of_ne hpc hz).symm) hended

/-- A join whose task was not stolen does not touch the stacks. -/
theorem effect_shortcut (hpc : s.rt.pc w = .run f) (haw : (s.rt.task f).awaiting = none)
    (hz : (s.rt.task f).frame.loadSteals = 0) :
    Effect T s (s.after T (.join w) (s.rt.modify f Task.leave) grow root)
      (.code (.join w) grow root) := by
  have h : Moves T s.rt (.join w) (s.rt.modify f Task.leave) := .shortcut hpc haw hz
  refine quiet_after h hs.inv rfl rfl ?_ (by simp)
  rw [hold_run hpc hz]
  exact hold_run (s := s.after T _ _ _ _) hpc ((congrFun (State.steals_leave ..) f).trans hz)

/-- A thief goes on with what it stole, on its own empty chain. -/
theorem effect_addSteal (hpc : s.rt.pc w = .stolen f) :
    Effect T s (s.after T (.step w) ((s.rt.modify f Task.addSteal).enter w f) grow root)
      (.code (.step w) grow root) := by
  have h : Moves T s.rt (.step w) ((s.rt.modify f Task.addSteal).enter w f) := .addSteal hpc
  have hstolen : s.rt.loc f = .stolen w := (hs.inv.placed.stolen w f).mp hpc
  have hlag : (s.rt.task f).phase.lag = 1 := by
    rw [Task.phase, show (s.rt.task f).loc = .stolen w from hstolen]
    rfl
  refine quiet_after h hs.inv rfl ?_ ?_ ?_
  · unfold State.effect State.stepEffect
    simp only [hpc]
  · rw [hold_eq_bare (.inr (.inl ⟨f, hpc⟩))]
    exact hold_run_of_ne (s := s.after T _ _ _ _) (f := f) (by simp)
      (by simpa using hs.inv.steals_succ hlag)
  · simp only [State.loc_enter, State.loc_addSteal]
    exact ended_update (by rw [hstolen]; rfl)

/-- A continuation passes its fork. -/
theorem effect_awaitResume (hpc : s.rt.pc w = .run f) (haw : (s.rt.task f).awaiting ≠ none) :
    Effect T s (s.after T (.step w) (s.rt.modify f fun t => { t with awaiting := none }) grow root)
      (.code (.step w) grow root) := by
  have h : Moves T s.rt (.step w) (s.rt.modify f fun t => { t with awaiting := none }) :=
    .awaitResume hpc haw
  refine quiet_after h hs.inv rfl ?_ ?_ (by simp)
  · unfold State.effect State.stepEffect
    simp only [hpc]
  · unfold State.hold
    simp [hpc]

/-- A forked child pops its parent: it is on the parent's chain unless the parent was stolen. -/
theorem effect_pop {d : ℕ} {q : List ℕ} (hpc : s.rt.pc w = .final c)
    (hq : s.rt.deque w = d :: q) :
    Effect T s (s.after T (.step w) ((((s.rt.setDeque w q).place c .dead).modify (T.parent c)
      (Task.popped · c)).enter w (T.parent c)) grow root) (.code (.step w) grow root) := by
  have h : Moves T s.rt (.step w) ((((s.rt.setDeque w q).place c .dead).modify (T.parent c)
      (Task.popped · c)).enter w (T.parent c)) := .pop hpc hq
  have hret : (s.rt.pc w).returned = some c := by rw [hpc]; rfl
  have ht := hs.inv.fork_of_returned hret
  have hline := hs.inv.lined w
  have hfresh := hs.inv.fresh w
  rw [hpc, hq] at hline hfresh
  obtain rfl : d = T.parent c := (lined_pop hline.1 hline.2).1
  obtain ⟨⟨k, hk, hchild, htaken⟩, -⟩ := List.isChain_cons_cons.mp hfresh
  rw [Tree.base_of_ne_call (by simp [ht])] at hchild
  subst hchild
  have hfinal : s.rt.loc k.child = .final w := (hs.inv.placed.final w k.child).mp hret
  have hqueued : s.rt.loc (T.parent k.child) = .queued w :=
    (hs.inv.placed.queued w _).mp (by simp [hq])
  have hne : T.parent k.child ≠ k.child := (T.parent_lt _ (by simp [ht])).ne
  have hforked := hs.linked.forked w _ k hqueued hk htaken
  have hpre := hs.inv.stealsPre_eq hqueued hk htaken
  refine quiet_after h hs.inv rfl ?_ ?_ ?_
  · unfold State.effect State.stepEffect
    simp only [hpc]
  · rw [hold_returned hret]
    unfold State.under
    have hsteals : ∀ g, ((((s.rt.setDeque w q).place k.child .dead).modify (T.parent k.child)
        (Task.popped · k.child)).enter w (T.parent k.child)).steals g = s.rt.steals g := by
      simp
    by_cases hz : s.rt.steals (T.parent k.child) = 0
    · rw [if_pos (hforked.mpr (hpre.trans hz))]
      exact hold_run (s := s.after T _ _ _ _) (by simp) ((hsteals _).trans hz)
    · rw [if_neg fun heq => hz (hpre.symm.trans (hforked.mp heq))]
      exact hold_run_of_ne (s := s.after T _ _ _ _) (by simp)
        fun heq => hz ((hsteals _).symm.trans heq)
  · simp only [State.loc_enter, State.loc_popped, State.loc_place, State.loc_setDeque]
    intro g
    rw [ended_update, ended_update]
    · rw [hfinal]
      rfl
    · rw [Function.update_of_ne hne, hqueued]
      rfl

/-- A forked child finds no parent in the deque, and looks for it. -/
theorem effect_popNone (hpc : s.rt.pc w = .final c) (hq : s.rt.deque w = []) :
    Effect T s (s.after T (.step w) (s.rt.goto w (.subJoin c)) grow root)
      (.code (.step w) grow root) := by
  have h : Moves T s.rt (.step w) (s.rt.goto w (.subJoin c)) := .popNone hpc hq
  have hret : (s.rt.pc w).returned = some c := by rw [hpc]; rfl
  have halive := hs.inv.alive_of_returned hret
  have ht : T.tag c ≠ .root := by simp [hs.inv.fork_of_returned hret]
  refine quiet_after h hs.inv rfl ?_ ?_ fun g => rfl
  · unfold State.effect State.stepEffect
    simp only [hpc]
  · rw [hold_returned (s := s) hret,
      hold_returned (s := s.after T _ _ _ _) (c := c) (by simp [Pc.returned])]
    unfold State.under
    rw [home_after h (ne_unborn halive), home_after h (ne_unborn (hs.inv.alive_parent ht halive))]

/-- A child that is not the last to join leaves its chain to the parent that is on it. -/
theorem effect_dec (hpc : s.rt.pc w = .subJoin c)
    (hold : (s.rt.task (T.parent c)).frame.loadJoins ≠ 1) :
    Effect T s (s.after T (.step w) (((s.rt.place c .dead).modify (T.parent c)
      (Task.decremented · c)).goto w (.lost c)) grow root) (.code (.step w) grow root) := by
  have h : Moves T s.rt (.step w) (((s.rt.place c .dead).modify (T.parent c)
      (Task.decremented · c)).goto w (.lost c)) := .dec hpc hold
  have hret : (s.rt.pc w).returned = some c := by rw [hpc]; rfl
  have hfinal : s.rt.loc c = .final w := (hs.inv.placed.final w c).mp hret
  have hlook : s.pStacklet w = s.cStacklet w ↔ s.home c = s.home (T.parent c) :=
    looked_iff hs hpc
  have hst : s.effect T grow root (.step w) = s.st := by
    unfold State.effect State.stepEffect
    simp only [hpc, hold, false_and, if_false]
  have hended : ∀ g, ((((s.rt.place c .dead).modify (T.parent c) (Task.decremented · c)).goto w
      (.lost c)).loc g).ended = (s.rt.loc g).ended := by
    simp only [State.loc_goto, State.loc_decremented, State.loc_place]
    exact ended_update (by rw [hfinal]; rfl)
  have hnew : ∀ rt' : Runtime.State, rt'.pc w = .lost c →
      (s.after T (.step w) rt' grow root).hold T w =
        if s.home c = s.home (T.parent c) then .gone else .bare := by
    intro rt' hpc'
    unfold State.hold State.after
    rw [s.look_eq T fun v c' hv => ?_]
    · simp only [hpc']
      exact if_congr hlook rfl rfl
    · cases hv
      simp [hpc]
  have hw := hold_returned (T := T) hret
  unfold State.under at hw
  by_cases hhome : s.home c = s.home (T.parent c)
  · rw [if_pos hhome] at hw
    refine .givesUp rfl hw hst (hold_after h hs.inv rfl ?_) (size_after hended)
    rw [hnew _ (by simp), if_pos hhome]
  · rw [if_neg hhome] at hw
    refine quiet_after h hs.inv rfl hst ?_ hended
    rw [hnew _ (by simp), if_neg hhome, hw]

/-- A worker that has given its chain up begins a new one, and else has the empty one it had. -/
theorem effect_yield (hroot : s.st.chain root = none) (hpc : s.rt.pc w = .lost c) :
    Effect T s (s.after T (.step w) (s.rt.goto w .idle) grow root)
      (.code (.step w) grow root) := by
  have h : Moves T s.rt (.step w) (s.rt.goto w .idle) := .yield hpc
  have hst : s.effect T grow root (.step w) =
      if s.pStacklet w = s.cStacklet w then s.st.release w root else s.st := by
    unfold State.effect State.stepEffect
    simp only [hpc]
  have hnew : (s.after T (.step w) (s.rt.goto w .idle) grow root).hold T w = .bare :=
    hold_eq_bare (s := s.after T _ _ _ _) (.inl (by simp))
  have hw : s.hold T w = if s.pStacklet w = s.cStacklet w then .gone else .bare := by
    unfold State.hold
    rw [hpc]
  split_ifs at hst hw with hsame
  · exact .renews rfl hw hroot hst (hold_after h hs.inv rfl hnew) (size_after fun g => rfl)
  · exact quiet_after h hs.inv rfl hst (hnew.trans hw.symm) fun g => rfl

/-- So does a worker that has switched its task out. -/
theorem effect_release {steals : BitVec 16} (hroot : s.st.chain root = none)
    (hpc : s.rt.pc w = .switched f steals) :
    Effect T s (s.after T (.step w) (s.rt.goto w .selfSteal) grow root)
      (.code (.step w) grow root) := by
  have h : Moves T s.rt (.step w) (s.rt.goto w .selfSteal) := .release hpc
  have hst : s.effect T grow root (.step w) =
      if steals = 0 then s.st.release w root else s.st := by
    unfold State.effect State.stepEffect
    simp only [hpc]
  have hnew : (s.after T (.step w) (s.rt.goto w .selfSteal) grow root).hold T w = .bare :=
    hold_eq_bare (s := s.after T _ _ _ _) (.inr (.inr (.inr (.inr (by simp)))))
  have hw : s.hold T w = if steals = 0 then .gone else .bare := by
    unfold State.hold
    rw [hpc]
  split_ifs at hst hw with hz
  · exact .renews rfl hw hroot hst (hold_after h hs.inv rfl hnew) (size_after fun g => rfl)
  · exact quiet_after h hs.inv rfl hst (hnew.trans hw.symm) fun g => rfl

/-- A join that is not ready goes on to its subtraction. -/
theorem effect_notReady (hstep : (Runtime.machine T).step s.rt (.step w) =
      some (s.rt.goto w (.joinSub f))) (hpc : s.rt.pc w = .joinLoad f) :
    Effect T s (s.after T (.step w) (s.rt.goto w (.joinSub f)) grow root)
      (.code (.step w) grow root) := by
  have hj : ¬ s.Joined f := by
    intro hj
    unfold Runtime.machine workerStep at hstep
    simp only [hpc] at hstep
    unfold State.Joined at hj
    rw [if_pos hj] at hstep
    have hpc' := congrArg (·.pc w) (Option.some.inj hstep)
    simp at hpc'
  refine quiet_after (moves_of_step hstep) hs.inv rfl ?_ ?_ fun g => rfl
  · unfold State.effect State.stepEffect
    simp only [hpc, if_neg hj]
  · rw [hold_eq_bare (.inr (.inr (.inl ⟨f, hpc⟩)))]
    exact hold_eq_bare (s := s.after T _ _ _ _) (.inr (.inr (.inr (.inl ⟨f, by simp⟩))))

/-- A join that gives up has no chain to leave: its task was stolen. -/
theorem effect_lose (hpc : s.rt.pc w = .joinSub f)
    (hne : (s.rt.task f).frame.loadSteals ≠ kU16Max - (s.rt.task f).frame.loadJoins) :
    Effect T s (s.after T (.step w) ((((s.rt.modify f fun t => { t with
      frame := t.frame.fetchSubJoins (kU16Max - (s.rt.task f).frame.loadSteals) }).place f
      .joining).goto w .selfSteal).takeHead w) grow root) (.code (.step w) grow root) := by
  have h := Moves.lose (T := T) hpc hne
  have hrun : s.rt.loc f = .run w := hs.inv.run_loc (by rw [hpc]; rfl)
  refine quiet_after h hs.inv rfl ?_ ?_ ?_
  · unfold State.effect State.stepEffect
    simp only [hpc]
    exact if_neg hne
  · rw [hold_eq_bare (.inr (.inr (.inr (.inl ⟨f, hpc⟩))))]
    exact hold_eq_bare (s := s.after T _ _ _ _) (.inr (.inr (.inr (.inr (by simp)))))
  · simp only [State.loc_takeHead, State.loc_goto, State.loc_place, State.loc_frame]
    exact ended_update (by rw [hrun]; rfl)

/-- A worker takes its own newest continuation back, and no chain with it. -/
theorem effect_selfPop {d : ℕ} {q : List ℕ} (hpc : s.rt.pc w = .selfSteal)
    (hq : s.rt.deque w = d :: q) :
    Effect T s (s.after T (.step w) (((s.rt.setDeque w q).modify d Task.addSteal).enter w d)
      grow root) (.code (.step w) grow root) := by
  have h : Moves T s.rt (.step w) (((s.rt.setDeque w q).modify d Task.addSteal).enter w d) :=
    .selfPop hpc hq
  have hqueued : s.rt.loc d = .queued w := (hs.inv.placed.queued w d).mp (by simp [hq])
  have hlag : (s.rt.task d).phase.lag = 1 := by
    have hfresh := hs.inv.fresh w
    rw [hpc, hq] at hfresh
    rw [Task.phase, show (s.rt.task d).loc = .queued w from hqueued]
    simp [hfresh.1 d rfl, Phase.lag]
  refine quiet_after h hs.inv rfl ?_ ?_ ?_
  · unfold State.effect State.stepEffect
    simp only [hpc]
  · rw [hold_eq_bare (.inr (.inr (.inr (.inr hpc))))]
    exact hold_run_of_ne (s := s.after T _ _ _ _) (f := d) (by simp)
      (by simpa using hs.inv.steals_succ hlag)
  · simp only [State.loc_enter, State.loc_addSteal, State.loc_setDeque]
    exact ended_update (by rw [hqueued]; rfl)

/-- A worker whose deque is empty after all is idle again. -/
theorem effect_selfNone (hpc : s.rt.pc w = .selfSteal) (hq : s.rt.deque w = []) :
    Effect T s (s.after T (.step w) (s.rt.goto w .idle) grow root)
      (.code (.step w) grow root) := by
  refine quiet_after (.selfNone hpc hq) hs.inv rfl ?_ ?_ fun g => rfl
  · unfold State.effect State.stepEffect
    simp only [hpc]
  · rw [hold_eq_bare (.inr (.inr (.inr (.inr hpc))))]
    exact hold_eq_bare (s := s.after T _ _ _ _) (.inl (by simp))

end Owned

/-! ### The effect of any step -/

/-- **The effect of a step of the workers.** -/
theorem effect_of_code (hstep : (Runtime.machine T).step s.rt b = some rt) (hs : Owned T s)
    (hroot : s.st.chain root = none) (hstrict : s.Strict b) :
    Effect T s (s.after T b rt grow root) (.code b grow root) := by
  have h := moves_of_step hstep
  have hmove := h
  cases hmove with
  | spawn hl ht => exact hs.effect_spawn hroot hl ht
  | schedule hl => exact hs.effect_schedule hl
  | popAll hpc htodo hq =>
    refine quiet_after h hs.inv rfl rfl ?_ fun g => rfl
    exact (hold_eq_bare (s := s.after T _ _ _ _) (.inl hpc)).trans (hold_eq_bare (.inl hpc)).symm
  | resume hpc htodo => exact hs.effect_resume hpc htodo
  | steal hpc htodo hq => exact hs.effect_steal hpc htodo hq
  | @fork w f c hpc haw hl ht hpar =>
    exact effect_invoke h hs rfl hpc hl (by simp [ht]) hpar rfl (by simp [State.fork])
      (by simp [State.fork]) (l := .queued w) (by simp [State.fork]) rfl
  | @call w f c hpc haw hl ht hpar =>
    exact effect_invoke h hs rfl hpc hl (by simp [ht]) hpar rfl (by simp [State.call])
      (by simp [State.call]) (l := .calling c) (by simp [State.call]) rfl
  | retRoot hpc haw hscope ht => exact hs.effect_retRoot hstrict hpc haw hscope ht
  | retCall hpc haw hscope ht => exact hs.effect_retCall hstrict hpc haw hscope ht
  | retFork hpc haw hscope ht => exact hs.effect_retFork hstrict hpc haw hscope ht
  | shortcut hpc haw hz => exact hs.effect_shortcut hpc haw hz
  | @joinCall w f hpc haw hz =>
    refine quiet_after h hs.inv rfl rfl ?_ fun g => rfl
    rw [hold_run_of_ne hpc hz]
    exact hold_eq_bare (s := s.after T _ _ _ _) (.inr (.inr (.inl ⟨f, by simp⟩)))
  | switch hpc haw => exact hs.effect_switch hpc haw
  | addSteal hpc => exact hs.effect_addSteal hpc
  | awaitResume hpc haw => exact hs.effect_awaitResume hpc haw
  | pop hpc hq => exact hs.effect_pop hpc hq
  | popNone hpc hq => exact hs.effect_popNone hpc hq
  | decLast hpc hold => exact effect_decLast h hs hpc hold (by simp) (by simp) (by simp)
  | dec hpc hold => exact hs.effect_dec hpc hold
  | yield hpc => exact hs.effect_yield hroot hpc
  | ready hpc heq => exact takes_of_join h hs (.inl hpc) heq (by simp) (by simp) (by simp)
  | notReady hpc => exact hs.effect_notReady hstep hpc
  | win hpc heq => exact takes_of_join h hs (.inr hpc) heq (by simp) (by simp) (by simp)
  | lose hpc hne => exact hs.effect_lose hpc hne
  | release hpc => exact hs.effect_release hroot hpc
  | selfPop hpc hq => exact hs.effect_selfPop hpc hq
  | selfNone hpc hq => exact hs.effect_selfNone hpc hq

end Libfork.Stacks
