import Libfork.Runtime.Ancestors

/-!
# Every handle is in one place

The ghost `Task.loc` says where the one handle to a task is. `Placed` says that the workers'
program counters, their deques and their lists agree with it; a move keeps this as long as it
takes each handle from where it is.

Source: as in the model.
-/

namespace Libfork.Runtime

open Libfork.Found

/-! ## Where the handles go -/

namespace Task

variable (t : Task) (c : ℕ)

@[simp] theorem take_loc : t.take.loc = t.loc := by
  unfold take
  split
  · rfl
  · split <;> rfl

@[simp] theorem addSteal_loc : t.addSteal.loc = t.loc := rfl
@[simp] theorem leave_loc : t.leave.loc = t.loc := rfl
@[simp] theorem reset_loc : t.reset.loc = t.loc := rfl
@[simp] theorem forks_loc : (t.forks c).loc = t.loc := rfl
@[simp] theorem popped_loc : (t.popped c).loc = t.loc := rfl
@[simp] theorem decremented_loc : (t.decremented c).loc = t.loc := rfl

end Task

namespace State

variable (s : State) (w v f c : ℕ) (pc : Pc) (q : List ℕ) (l : Loc) {h : Task → Task}

/-- Where the handle to a task is. -/
def loc (f : ℕ) : Loc := (s.task f).loc

@[simp] theorem loc_goto : (s.goto w pc).loc = s.loc := rfl
@[simp] theorem loc_setDeque : (s.setDeque w q).loc = s.loc := rfl

/-- What does not move the handle of a task moves none. -/
theorem loc_modify (hh : (h (s.task f)).loc = (s.task f).loc) : (s.modify f h).loc = s.loc := by
  funext g
  unfold loc
  by_cases hg : g = f
  · rw [hg, modify_self, hh]
  · rw [modify_of_ne _ _ _ _ hg]

@[simp] theorem loc_place : (s.place f l).loc = Function.update s.loc f l := by
  funext g
  unfold loc
  by_cases hg : g = f
  · rw [hg, place_self, Function.update_self]
  · rw [place_of_ne _ _ _ _ hg, Function.update_of_ne hg]

@[simp] theorem loc_enter : (s.enter w f).loc = Function.update s.loc f (.run w) := by
  unfold enter
  rw [loc_goto, loc_place]

@[simp] theorem loc_take : (s.modify f Task.take).loc = s.loc := s.loc_modify f (Task.take_loc _)
@[simp] theorem loc_addSteal : (s.modify f Task.addSteal).loc = s.loc := s.loc_modify f rfl
@[simp] theorem loc_leave : (s.modify f Task.leave).loc = s.loc := s.loc_modify f rfl
@[simp] theorem loc_reset : (s.modify f Task.reset).loc = s.loc := s.loc_modify f rfl
@[simp] theorem loc_forks : (s.modify f (Task.forks · c)).loc = s.loc := s.loc_modify f rfl
@[simp] theorem loc_popped : (s.modify f (Task.popped · c)).loc = s.loc := s.loc_modify f rfl

@[simp] theorem loc_decremented : (s.modify f (Task.decremented · c)).loc = s.loc :=
  s.loc_modify f rfl

@[simp] theorem loc_awaiting {k : Option Fork} :
    (s.modify f fun t => { t with awaiting := k }).loc = s.loc := s.loc_modify f rfl

@[simp] theorem loc_frame {fr : Task → Frame} :
    (s.modify f fun t => { t with frame := fr t }).loc = s.loc := s.loc_modify f rfl

@[simp] theorem loc_takeHead : (s.takeHead w).loc = s.loc := by
  unfold takeHead
  split
  · rfl
  · exact s.loc_take _

@[simp] theorem loc_schedule : (s.schedule f w).loc = Function.update s.loc f (.submitted w) :=
  s.loc_place f _

@[simp] theorem schedule_pc : (s.schedule f w).pc = s.pc := rfl
@[simp] theorem schedule_deque : (s.schedule f w).deque = s.deque := rfl
@[simp] theorem schedule_todo : (s.schedule f w).todo = s.todo := rfl

@[simp] theorem schedule_submit :
    (s.schedule f w).submit = Function.update s.submit w (s.submit w ++ [f]) := rfl

@[simp] theorem loc_popAll : (s.popAll w).loc = s.loc := rfl
@[simp] theorem popAll_pc : (s.popAll w).pc = s.pc := rfl
@[simp] theorem popAll_deque : (s.popAll w).deque = s.deque := rfl
@[simp] theorem popAll_todo : (s.popAll w).todo = Function.update s.todo w (s.submit w) := rfl
@[simp] theorem popAll_submit : (s.popAll w).submit = Function.update s.submit w [] := rfl

@[simp] theorem loc_resume : (s.resume w f q).loc = Function.update s.loc f (.run w) :=
  State.loc_enter _ w f

@[simp] theorem resume_pc : (s.resume w f q).pc = Function.update s.pc w (.run f) := rfl
@[simp] theorem resume_deque : (s.resume w f q).deque = s.deque := rfl
@[simp] theorem resume_todo : (s.resume w f q).todo = Function.update s.todo w q := rfl
@[simp] theorem resume_submit : (s.resume w f q).submit = s.submit := rfl

end State

/-! ## Agreement -/

variable {T : Tree} {s s' : State} {a : Act}

/-- The workers hold what they are said to hold. -/
structure Placed (s : State) : Prop where
  run : ∀ w f, (s.pc w).code = some f ↔ s.loc f = .run w
  stolen : ∀ w f, s.pc w = .stolen f ↔ s.loc f = .stolen w
  final : ∀ w c, (s.pc w).returned = some c ↔ s.loc c = .final w
  queued : ∀ w f, f ∈ s.deque w ↔ s.loc f = .queued w
  submitted : ∀ w f, f ∈ s.todo w ∨ f ∈ s.submit w ↔ s.loc f = .submitted w
  deque_nodup : ∀ w, (s.deque w).Nodup
  list_nodup : ∀ w, (s.todo w ++ s.submit w).Nodup

/-- A worker in the code of a task. -/
theorem Pc.code_eq_some {pc : Pc} {f : ℕ} :
    pc.code = some f ↔ pc = .run f ∨ pc = .joinLoad f ∨ pc = .joinSub f := by
  cases pc <;> simp [Pc.code]

/-- A worker that looks for a parent. -/
theorem Pc.returned_eq_some {pc : Pc} {c : ℕ} :
    pc.returned = some c ↔ pc = .final c ∨ pc = .subJoin c := by
  cases pc <;> simp [Pc.returned]

/-- Nothing is anywhere. -/
theorem placed_init : Placed .init where
  run w f := by simp [State.init, State.loc, Task.new, Pc.code]
  stolen w f := by simp [State.init, State.loc, Task.new]
  final w c := by simp [State.init, State.loc, Task.new, Pc.returned]
  queued w f := by simp [State.init, State.loc, Task.new]
  submitted w f := by simp [State.init, State.loc, Task.new]
  deque_nodup w := by simp [State.init]
  list_nodup w := by simp [State.init]

/-- A worker goes on, with the same task and the same deque. -/
theorem Placed.goto {w : ℕ} {pc : Pc} (hs : Placed s) (hpc : s'.pc = Function.update s.pc w pc)
    (hq : s'.deque = s.deque) (htodo : s'.todo = s.todo) (hsub : s'.submit = s.submit)
    (hloc : s'.loc = s.loc) (hcode : pc.code = (s.pc w).code)
    (hret : pc.returned = (s.pc w).returned) (hst : ∀ f, pc = .stolen f ↔ s.pc w = .stolen f) :
    Placed s' := by
  have hat : ∀ {α : Type} (g : Pc → α), g pc = g (s.pc w) → ∀ v, g (s'.pc v) = g (s.pc v) := by
    intro α g hg v
    rw [hpc]
    by_cases hv : v = w
    · rw [hv, Function.update_self, hg]
    · rw [Function.update_of_ne hv]
  constructor
  · intro v f
    rw [hat Pc.code hcode v, hloc]
    exact hs.run v f
  · intro v f
    rw [hat (· = .stolen f) (propext (hst f)) v, hloc]
    exact hs.stolen v f
  · intro v c
    rw [hat Pc.returned hret v, hloc]
    exact hs.final v c
  · rw [hq, hloc]
    exact hs.queued
  · rw [htodo, hsub, hloc]
    exact hs.submitted
  · rw [hq]
    exact hs.deque_nodup
  · rw [htodo, hsub]
    exact hs.list_nodup

/-! ### Each move -/

section moves

variable (hs : Placed s) {w v f c d p : ℕ} {q : List ℕ} {pc : Pc}

include hs

/-- A root gets its frame. -/
theorem Placed.spawn (hl : s.loc f = .unborn) :
    Placed (s.place f .outside) := by
  obtain ⟨hrun, hstolen, hfinal, hqueued, hsub, hnodup, hlist⟩ := hs
  constructor <;> intro u <;> simp <;>
    grind [Function.update_apply, Pc.code_eq_some, Pc.returned_eq_some]

/-- A handle is submitted. -/
theorem Placed.schedule (hl : s.loc f = .outside) :
    Placed (s.schedule f w) := by
  obtain ⟨hrun, hstolen, hfinal, hqueued, hsub, hnodup, hlist⟩ := hs
  constructor <;> intro u <;> simp <;>
    grind [Function.update_apply, Pc.code_eq_some, Pc.returned_eq_some]

/-- A worker takes its list. -/
theorem Placed.popAll (htodo : s.todo w = []) :
    Placed (s.popAll w) := by
  obtain ⟨hrun, hstolen, hfinal, hqueued, hsub, hnodup, hlist⟩ := hs
  constructor <;> intro u <;> simp <;>
    grind [Function.update_apply, Pc.code_eq_some, Pc.returned_eq_some]

/-- A submitted task is resumed. -/
theorem Placed.resume (hpc : s.pc w = .idle) (htodo : s.todo w = f :: q) :
    Placed (s.resume w f q) := by
  obtain ⟨hrun, hstolen, hfinal, hqueued, hsub, hnodup, hlist⟩ := hs
  have hf : s.loc f = .submitted w := (hsub w f).mp (by simp [htodo])
  constructor <;> intro u <;> simp <;>
    grind [Function.update_apply, Pc.code_eq_some, Pc.returned_eq_some]

/-- A thief takes the oldest continuation. -/
theorem Placed.steal (hpc : s.pc w = .idle) (hq : s.deque v = q ++ [f]) :
    Placed (s.steal w v f q) := by
  obtain ⟨hrun, hstolen, hfinal, hqueued, hsub, hnodup, hlist⟩ := hs
  have hf : s.loc f = .queued v := (hqueued v f).mp (by simp [hq])
  have hmem : ∀ g, g ∈ q ∨ g = f ↔ s.loc g = .queued v := by
    intro g
    rw [← hqueued v g, hq]
    simp
  have hv := hnodup v
  rw [hq] at hv
  constructor <;> intro u <;> simp [State.steal] <;>
    grind [Function.update_apply, Pc.code_eq_some, Pc.returned_eq_some]

/-- A task forks a child. -/
theorem Placed.fork (hpc : s.pc w = .run f) (hc : s.loc c = .unborn) :
    Placed (s.fork w f c) := by
  obtain ⟨hrun, hstolen, hfinal, hqueued, hsub, hnodup, hlist⟩ := hs
  have hf : s.loc f = .run w := (hrun w f).mp (by simp [hpc, Pc.code])
  constructor <;> intro u <;> simp [State.fork] <;>
    grind [Function.update_apply, Pc.code_eq_some, Pc.returned_eq_some]

/-- A task calls a child. -/
theorem Placed.call (hpc : s.pc w = .run f) (hc : s.loc c = .unborn) :
    Placed (s.call w f c) := by
  obtain ⟨hrun, hstolen, hfinal, hqueued, hsub, hnodup, hlist⟩ := hs
  have hf : s.loc f = .run w := (hrun w f).mp (by simp [hpc, Pc.code])
  constructor <;> intro u <;> simp [State.call] <;>
    grind [Function.update_apply, Pc.code_eq_some, Pc.returned_eq_some]

/-- A root returns. -/
theorem Placed.retRoot (hpc : s.pc w = .run f) :
    Placed ((s.place f .dead).goto w .idle) := by
  obtain ⟨hrun, hstolen, hfinal, hqueued, hsub, hnodup, hlist⟩ := hs
  have hf : s.loc f = .run w := (hrun w f).mp (by simp [hpc, Pc.code])
  constructor <;> intro u <;> simp <;>
    grind [Function.update_apply, Pc.code_eq_some, Pc.returned_eq_some]

/-- A called task returns. -/
theorem Placed.retCall (hpc : s.pc w = .run f) (hp : s.loc p = .calling f) :
    Placed ((s.place f .dead).enter w p) := by
  obtain ⟨hrun, hstolen, hfinal, hqueued, hsub, hnodup, hlist⟩ := hs
  have hf : s.loc f = .run w := (hrun w f).mp (by simp [hpc, Pc.code])
  constructor <;> intro u <;> simp <;>
    grind [Function.update_apply, Pc.code_eq_some, Pc.returned_eq_some]

/-- A forked task reaches its final suspend. -/
theorem Placed.retFork (hpc : s.pc w = .run f) :
    Placed ((s.place f (.final w)).goto w (.final f)) := by
  obtain ⟨hrun, hstolen, hfinal, hqueued, hsub, hnodup, hlist⟩ := hs
  have hf : s.loc f = .run w := (hrun w f).mp (by simp [hpc, Pc.code])
  constructor <;> intro u <;> simp <;>
    grind [Function.update_apply, Pc.code_eq_some, Pc.returned_eq_some]

/-- A task is switched out. -/
theorem Placed.switch (hpc : s.pc w = .run f) :
    Placed (s.switch w f) := by
  obtain ⟨hrun, hstolen, hfinal, hqueued, hsub, hnodup, hlist⟩ := hs
  have hf : s.loc f = .run w := (hrun w f).mp (by simp [hpc, Pc.code])
  constructor <;> intro u <;> simp [State.switch] <;>
    grind [Function.update_apply, Pc.code_eq_some, Pc.returned_eq_some]

/-- A thief goes on with what it stole. -/
theorem Placed.addSteal (hpc : s.pc w = .stolen f) :
    Placed ((s.modify f Task.addSteal).enter w f) := by
  obtain ⟨hrun, hstolen, hfinal, hqueued, hsub, hnodup, hlist⟩ := hs
  have hf : s.loc f = .stolen w := (hstolen w f).mp hpc
  constructor <;> intro u <;> simp <;>
    grind [Function.update_apply, Pc.code_eq_some, Pc.returned_eq_some]

/-- A child pops its parent. -/
theorem Placed.pop (hpc : s.pc w = .final c) (hq : s.deque w = p :: q) :
    Placed ((((s.setDeque w q).place c .dead).modify p (Task.popped · c)).enter w p) := by
  obtain ⟨hrun, hstolen, hfinal, hqueued, hsub, hnodup, hlist⟩ := hs
  have hc : s.loc c = .final w := (hfinal w c).mp (by simp [hpc, Pc.returned])
  have hp : s.loc p = .queued w := (hqueued w p).mp (by simp [hq])
  constructor <;> intro u <;> simp <;>
    grind [Function.update_apply, Pc.code_eq_some, Pc.returned_eq_some]

/-- The last child goes on with its parent. -/
theorem Placed.decLast (hpc : s.pc w = .subJoin c) (hp : s.loc p = .joining) :
    Placed ((((s.place c .dead).modify p (Task.decremented · c)).modify p
      Task.reset).enter w p) := by
  obtain ⟨hrun, hstolen, hfinal, hqueued, hsub, hnodup, hlist⟩ := hs
  have hc : s.loc c = .final w := (hfinal w c).mp (by simp [hpc, Pc.returned])
  constructor <;> intro u <;> simp <;>
    grind [Function.update_apply, Pc.code_eq_some, Pc.returned_eq_some]

/-- A child leaves its parent to others. -/
theorem Placed.dec (hpc : s.pc w = .subJoin c) :
    Placed (((s.place c .dead).modify p (Task.decremented · c)).goto w (.lost c)) := by
  obtain ⟨hrun, hstolen, hfinal, hqueued, hsub, hnodup, hlist⟩ := hs
  have hc : s.loc c = .final w := (hfinal w c).mp (by simp [hpc, Pc.returned])
  constructor <;> intro u <;> simp <;>
    grind [Function.update_apply, Pc.code_eq_some, Pc.returned_eq_some]

/-- A join gives up. -/
theorem Placed.lose (hpc : s.pc w = .joinSub f) {fr : Task → Frame} :
    Placed ((((s.modify f fun t => { t with frame := fr t }).place f .joining).goto w
      .selfSteal).takeHead w) := by
  obtain ⟨hrun, hstolen, hfinal, hqueued, hsub, hnodup, hlist⟩ := hs
  have hf : s.loc f = .run w := (hrun w f).mp (by simp [hpc, Pc.code])
  constructor <;> intro u <;> simp <;>
    grind [Function.update_apply, Pc.code_eq_some, Pc.returned_eq_some]

/-- A worker takes its own continuation back. -/
theorem Placed.selfPop (hpc : s.pc w = .selfSteal) (hq : s.deque w = d :: q) :
    Placed (((s.setDeque w q).modify d Task.addSteal).enter w d) := by
  obtain ⟨hrun, hstolen, hfinal, hqueued, hsub, hnodup, hlist⟩ := hs
  have hd : s.loc d = .queued w := (hqueued w d).mp (by simp [hq])
  constructor <;> intro u <;> simp <;>
    grind [Function.update_apply, Pc.code_eq_some, Pc.returned_eq_some]

end moves

/-- **The step lemma**, for a machine that resumes no task but one that waits for it. -/
theorem placed_of_moves (h : Moves T s a s') (hs : Placed s) (hl : AllLined T s)
    (hcall : ∀ w f, s.pc w = .run f → T.tag f = .call → s.loc (T.parent f) = .calling f)
    (hlast : ∀ w c, s.pc w = .subJoin c → (s.task (T.parent c)).frame.loadJoins = 1 →
      s.loc (T.parent c) = .joining) : Placed s' := by
  cases h with
  | spawn hl ht => exact hs.spawn hl
  | schedule hl => exact hs.schedule hl
  | popAll hpc htodo hq => exact hs.popAll htodo
  | resume hpc htodo => exact hs.resume hpc htodo
  | steal hpc htodo hq => exact hs.steal hpc hq
  | fork hpc haw hl ht hp => exact hs.fork hpc hl
  | call hpc haw hl ht hp => exact hs.call hpc hl
  | retRoot hpc haw hscope ht => exact hs.retRoot hpc
  | retCall hpc haw hscope ht => exact hs.retCall hpc (hcall _ _ hpc ht)
  | retFork hpc haw hscope ht => exact hs.retFork hpc
  | switch hpc haw => exact hs.switch hpc
  | addSteal hpc => exact hs.addSteal hpc
  | @pop w c d q hpc hq =>
      have hw := hl w
      rw [hpc, hq] at hw
      obtain rfl : d = T.parent c := (lined_pop hw.1 hw.2).1
      exact hs.pop hpc hq
  | decLast hpc hold => exact hs.decLast hpc (hlast _ _ hpc hold)
  | dec hpc hold => exact hs.dec hpc
  | lose hpc hne => exact hs.lose hpc
  | selfPop hpc hq => exact hs.selfPop hpc hq
  -- a worker that goes on with the same task, or with none
  | @shortcut w f hpc haw hz =>
      have hself : (s.modify f Task.leave).pc = Function.update s.pc w (s.pc w) := by simp
      apply hs.goto hself <;> simp
  | @awaitResume w f hpc haw =>
      have hself : (s.modify f fun t => { t with awaiting := none }).pc =
        Function.update s.pc w (s.pc w) := by simp
      apply hs.goto hself <;> simp
  | @joinCall w f hpc haw hz => apply hs.goto (w := w) rfl <;> simp [hpc, Pc.code, Pc.returned]
  | @popNone w c hpc hq => apply hs.goto (w := w) rfl <;> simp [hpc, Pc.code, Pc.returned]
  | @yield w c hpc => apply hs.goto (w := w) rfl <;> simp [hpc, Pc.code, Pc.returned]
  | @ready w f hpc heq => apply hs.goto (w := w) rfl <;> simp [hpc, Pc.code, Pc.returned]
  | @notReady w f hpc => apply hs.goto (w := w) rfl <;> simp [hpc, Pc.code, Pc.returned]
  | @win w f hpc heq => apply hs.goto (w := w) rfl <;> simp [hpc, Pc.code, Pc.returned]
  | @release w f steals hpc => apply hs.goto (w := w) rfl <;> simp [hpc, Pc.code, Pc.returned]
  | @selfNone w hpc hq => apply hs.goto (w := w) rfl <;> simp [hpc, Pc.code, Pc.returned]

/-! ## Finitely many tasks -/

/-- Only finitely many tasks were invoked. -/
def Bounded (loc : ℕ → Loc) : Prop := ∃ n, ∀ f, n ≤ f → loc f = .unborn

/-- One more task gets a place. -/
theorem Bounded.update {loc : ℕ → Loc} (h : Bounded loc) (f : ℕ) (l : Loc) :
    Bounded (Function.update loc f l) := by
  obtain ⟨n, hn⟩ := h
  refine ⟨max n (f + 1), fun g hg => ?_⟩
  rw [Function.update_of_ne (by omega)]
  exact hn g (by omega)

/-- A step moves at most two handles. -/
theorem bounded_of_moves (h : Moves T s a s') (hs : Bounded s.loc) : Bounded s'.loc := by
  cases h <;> simp [State.steal, State.fork, State.call, State.switch] <;>
    first
    | exact hs
    | exact hs.update ..
    | exact (hs.update ..).update ..

end Libfork.Runtime
