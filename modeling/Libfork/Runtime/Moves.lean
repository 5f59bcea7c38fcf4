import Libfork.Runtime.Model

/-!
# What a step can do

* Simp lemmas: what each update of a state leaves alone.
* **`moves_of_step`** — every step is one of `Moves`, a case for each way through the code.

Source: as in the model.
-/

namespace Libfork.Runtime

open Libfork.Found Libfork.Join

namespace State

variable (s : State) (w v f g : ℕ) (pc : Pc) (q : List ℕ) (l : Loc) (h : Task → Task)

/-! ## The tasks -/

@[simp] theorem goto_task : (s.goto w pc).task = s.task := rfl
@[simp] theorem setDeque_task : (s.setDeque w q).task = s.task := rfl
@[simp] theorem modify_self : (s.modify f h).task f = h (s.task f) := by simp [modify]

@[simp] theorem modify_of_ne (hg : g ≠ f) : (s.modify f h).task g = s.task g := by
  simp [modify, hg]

@[simp] theorem place_self : (s.place f l).task f = { s.task f with loc := l } := by simp [place]

@[simp] theorem place_of_ne (hg : g ≠ f) : (s.place f l).task g = s.task g := by simp [place, hg]

/-! ## The workers -/

@[simp] theorem goto_pc : (s.goto w pc).pc = Function.update s.pc w pc := rfl
@[simp] theorem modify_pc : (s.modify f h).pc = s.pc := rfl
@[simp] theorem place_pc : (s.place f l).pc = s.pc := rfl
@[simp] theorem setDeque_pc : (s.setDeque w q).pc = s.pc := rfl

/-! ## The lists -/

@[simp] theorem goto_deque : (s.goto w pc).deque = s.deque := rfl
@[simp] theorem modify_deque : (s.modify f h).deque = s.deque := rfl
@[simp] theorem place_deque : (s.place f l).deque = s.deque := rfl
@[simp] theorem setDeque_deque : (s.setDeque w q).deque = Function.update s.deque w q := rfl
@[simp] theorem goto_submit : (s.goto w pc).submit = s.submit := rfl
@[simp] theorem modify_submit : (s.modify f h).submit = s.submit := rfl
@[simp] theorem place_submit : (s.place f l).submit = s.submit := rfl
@[simp] theorem setDeque_submit : (s.setDeque w q).submit = s.submit := rfl
@[simp] theorem goto_todo : (s.goto w pc).todo = s.todo := rfl
@[simp] theorem modify_todo : (s.modify f h).todo = s.todo := rfl
@[simp] theorem place_todo : (s.place f l).todo = s.todo := rfl
@[simp] theorem setDeque_todo : (s.setDeque w q).todo = s.todo := rfl

/-! ## Entering a task -/

@[simp] theorem enter_pc : (s.enter w f).pc = Function.update s.pc w (.run f) := rfl
@[simp] theorem enter_deque : (s.enter w f).deque = s.deque := rfl
@[simp] theorem enter_submit : (s.enter w f).submit = s.submit := rfl
@[simp] theorem enter_todo : (s.enter w f).todo = s.todo := rfl

@[simp] theorem enter_self : (s.enter w f).task f = { s.task f with loc := .run w } := by
  simp [enter]

@[simp] theorem enter_of_ne (hg : g ≠ f) : (s.enter w f).task g = s.task g := by
  simp [enter, hg]

/-! ## Counting what is left in a deque as stolen -/

@[simp] theorem takeHead_pc : (s.takeHead w).pc = s.pc := by
  unfold takeHead
  split <;> rfl

@[simp] theorem takeHead_deque : (s.takeHead w).deque = s.deque := by
  unfold takeHead
  split <;> rfl

@[simp] theorem takeHead_submit : (s.takeHead w).submit = s.submit := by
  unfold takeHead
  split <;> rfl

@[simp] theorem takeHead_todo : (s.takeHead w).todo = s.todo := by
  unfold takeHead
  split <;> rfl

end State

/-! ## The cases of a step -/

variable {T : Tree} {s s' : State} {a : Act}

/-- What a step from `s` can do. -/
inductive Moves (T : Tree) (s : State) : Act → State → Prop
  | spawn {r : ℕ} (hl : (s.task r).loc = .unborn) (ht : T.tag r = .root) :
      Moves T s (.spawn r) (s.place r .outside)
  | schedule {f w : ℕ} (hl : (s.task f).loc = .outside) :
      Moves T s (.schedule f w) (s.schedule f w)
  | popAll {w : ℕ} (hpc : s.pc w = .idle) (htodo : s.todo w = []) (hq : s.submit w ≠ []) :
      Moves T s (.popAll w) (s.popAll w)
  | resume {w f : ℕ} {fs : List ℕ} (hpc : s.pc w = .idle) (htodo : s.todo w = f :: fs) :
      Moves T s (.resume w) (s.resume w f fs)
  | steal {w v f : ℕ} {q : List ℕ} (hpc : s.pc w = .idle) (htodo : s.todo w = [])
      (hq : s.deque v = q ++ [f]) : Moves T s (.steal w v) (s.steal w v f q)
  | fork {w f c : ℕ} (hpc : s.pc w = .run f) (haw : (s.task f).awaiting = none)
      (hl : (s.task c).loc = .unborn) (ht : T.tag c = .fork) (hp : T.parent c = f) :
      Moves T s (.fork w c) (s.fork w f c)
  | call {w f c : ℕ} (hpc : s.pc w = .run f) (haw : (s.task f).awaiting = none)
      (hl : (s.task c).loc = .unborn) (ht : T.tag c = .call) (hp : T.parent c = f) :
      Moves T s (.call w c) (s.call w f c)
  | retRoot {w f : ℕ} (hpc : s.pc w = .run f) (haw : (s.task f).awaiting = none)
      (hscope : (s.task f).scope = false) (ht : T.tag f = .root) :
      Moves T s (.ret w) ((s.place f .dead).goto w .idle)
  | retCall {w f : ℕ} (hpc : s.pc w = .run f) (haw : (s.task f).awaiting = none)
      (hscope : (s.task f).scope = false) (ht : T.tag f = .call) :
      Moves T s (.ret w) ((s.place f .dead).enter w (T.parent f))
  | retFork {w f : ℕ} (hpc : s.pc w = .run f) (haw : (s.task f).awaiting = none)
      (hscope : (s.task f).scope = false) (ht : T.tag f = .fork) :
      Moves T s (.ret w) ((s.place f (.final w)).goto w (.final f))
  | shortcut {w f : ℕ} (hpc : s.pc w = .run f) (haw : (s.task f).awaiting = none)
      (hz : (s.task f).frame.loadSteals = 0) : Moves T s (.join w) (s.modify f Task.leave)
  | joinCall {w f : ℕ} (hpc : s.pc w = .run f) (haw : (s.task f).awaiting = none)
      (hz : (s.task f).frame.loadSteals ≠ 0) : Moves T s (.join w) (s.goto w (.joinLoad f))
  | switch {w f : ℕ} (hpc : s.pc w = .run f) (haw : (s.task f).awaiting = none) :
      Moves T s (.switch w) (s.switch w f)
  | addSteal {w f : ℕ} (hpc : s.pc w = .stolen f) :
      Moves T s (.step w) ((s.modify f Task.addSteal).enter w f)
  | awaitResume {w f : ℕ} (hpc : s.pc w = .run f) (haw : (s.task f).awaiting ≠ none) :
      Moves T s (.step w) (s.modify f fun t => { t with awaiting := none })
  | pop {w c d : ℕ} {q : List ℕ} (hpc : s.pc w = .final c) (hq : s.deque w = d :: q) :
      Moves T s (.step w) ((((s.setDeque w q).place c .dead).modify (T.parent c)
        (Task.popped · c)).enter w (T.parent c))
  | popNone {w c : ℕ} (hpc : s.pc w = .final c) (hq : s.deque w = []) :
      Moves T s (.step w) (s.goto w (.subJoin c))
  | decLast {w c : ℕ} (hpc : s.pc w = .subJoin c)
      (hold : (s.task (T.parent c)).frame.loadJoins = 1) :
      Moves T s (.step w) ((((s.place c .dead).modify (T.parent c)
        (Task.decremented · c)).modify (T.parent c) Task.reset).enter w (T.parent c))
  | dec {w c : ℕ} (hpc : s.pc w = .subJoin c)
      (hold : (s.task (T.parent c)).frame.loadJoins ≠ 1) :
      Moves T s (.step w)
        (((s.place c .dead).modify (T.parent c) (Task.decremented · c)).goto w (.lost c))
  | yield {w c : ℕ} (hpc : s.pc w = .lost c) : Moves T s (.step w) (s.goto w .idle)
  | ready {w f : ℕ} (hpc : s.pc w = .joinLoad f)
      (heq : (s.task f).frame.loadSteals = kU16Max - (s.task f).frame.loadJoins) :
      Moves T s (.step w) ((s.modify f Task.reset).goto w (.run f))
  | notReady {w f : ℕ} (hpc : s.pc w = .joinLoad f) :
      Moves T s (.step w) (s.goto w (.joinSub f))
  | win {w f : ℕ} (hpc : s.pc w = .joinSub f)
      (heq : (s.task f).frame.loadSteals = kU16Max - (s.task f).frame.loadJoins) :
      Moves T s (.step w) (((s.modify f fun t => { t with
        frame := t.frame.fetchSubJoins (kU16Max - (s.task f).frame.loadSteals) }).modify f
        Task.reset).goto w (.run f))
  | lose {w f : ℕ} (hpc : s.pc w = .joinSub f)
      (hne : (s.task f).frame.loadSteals ≠ kU16Max - (s.task f).frame.loadJoins) :
      Moves T s (.step w) ((((s.modify f fun t => { t with
        frame := t.frame.fetchSubJoins (kU16Max - (s.task f).frame.loadSteals) }).place f
        .joining).goto w .selfSteal).takeHead w)
  | release {w f : ℕ} {steals : BitVec 16} (hpc : s.pc w = .switched f steals) :
      Moves T s (.step w) (s.goto w .selfSteal)
  | selfPop {w d : ℕ} {q : List ℕ} (hpc : s.pc w = .selfSteal) (hq : s.deque w = d :: q) :
      Moves T s (.step w) (((s.setDeque w q).modify d Task.addSteal).enter w d)
  | selfNone {w : ℕ} (hpc : s.pc w = .selfSteal) (hq : s.deque w = []) :
      Moves T s (.step w) (s.goto w .idle)

/-- A worker in the code of a task. -/
theorem running_eq_some {w f : ℕ} :
    s.running w = some f ↔ s.pc w = .run f ∧ (s.task f).awaiting = none := by
  unfold State.running
  split
  · next g hpc =>
    by_cases haw : (s.task g).awaiting = none
    · simp only [haw, if_true, hpc, Option.some.injEq, Pc.run.injEq]
      constructor
      · rintro rfl
        exact ⟨rfl, haw⟩
      · exact And.left
    · simp only [haw, if_false, hpc, Pc.run.injEq, reduceCtorEq, false_iff, not_and]
      rintro rfl
      exact haw
  · next hpc =>
    simp only [reduceCtorEq, false_iff, not_and]
    intro hrun
    exact absurd hrun (hpc f)

/-- A worker that goes on by itself. -/
theorem moves_of_workerStep {w : ℕ} (h : workerStep T s w = some s') :
    Moves T s (.step w) s' := by
  unfold workerStep at h
  split at h
  case h_1 => cases h
  case h_2 f hpc => cases h; exact .addSteal hpc
  case h_3 f hpc =>
    split_ifs at h with haw
    cases h
    exact .awaitResume hpc haw
  case h_4 c hpc =>
    split at h
    case h_1 hq => cases h; exact .popNone hpc hq
    case h_2 hq => cases h; exact .pop hpc hq
  case h_5 c hpc =>
    cases h
    unfold State.subJoin
    split_ifs with hold
    · exact .decLast hpc hold
    · exact .dec hpc hold
  case h_6 c hpc => cases h; exact .yield hpc
  case h_7 f hpc =>
    dsimp only at h
    split_ifs at h with heq
    · cases h; exact .ready hpc heq
    · cases h; exact .notReady hpc
  case h_8 f hpc =>
    cases h
    unfold State.joinSub
    dsimp only
    split_ifs with heq
    · exact .win hpc heq
    · exact .lose hpc heq
  case h_9 f steals hpc => cases h; exact .release hpc
  case h_10 hpc =>
    split at h
    case h_1 hq => cases h; exact .selfNone hpc hq
    case h_2 hq => cases h; exact .selfPop hpc hq

/-- Code that invokes a new task. -/
theorem invoke_eq_some {tag : Tag} {w c : ℕ} {next : ℕ → State} :
    invoke T s tag w c next = some s' ↔ ∃ f, s.pc w = .run f ∧ (s.task f).awaiting = none ∧
      (s.task c).loc = .unborn ∧ T.tag c = tag ∧ T.parent c = f ∧ next f = s' := by
  unfold invoke
  split
  · next hr =>
    constructor
    · intro h
      cases h
    · rintro ⟨f, hpc, haw, -⟩
      rw [running_eq_some.mpr ⟨hpc, haw⟩] at hr
      cases hr
  · next f hr =>
    obtain ⟨hpc, haw⟩ := running_eq_some.mp hr
    constructor
    · intro h
      split_ifs at h with hc
      cases h
      exact ⟨f, hpc, haw, hc.1, hc.2.1, hc.2.2, rfl⟩
    · rintro ⟨g, hg, -, hl, ht, hp, hnext⟩
      obtain rfl : f = g := by simpa [hpc] using hg
      rw [if_pos ⟨hl, ht, hp⟩, hnext]

/-- **Every step is one of the moves.** -/
theorem moves_of_step (h : (machine T).step s a = some s') : Moves T s a s' := by
  cases a with
  | spawn r =>
      simp only [machine] at h
      split_ifs at h with hc
      cases h
      exact .spawn hc.1 hc.2
  | schedule f w =>
      simp only [machine] at h
      split_ifs at h with hl
      cases h
      exact .schedule hl
  | popAll w =>
      simp only [machine] at h
      split_ifs at h with hc
      cases h
      exact .popAll hc.1 hc.2.1 hc.2.2
  | resume w =>
      simp only [machine] at h
      split at h
      · next hpc htodo =>
        cases h
        exact .resume hpc htodo
      · cases h
  | steal w v =>
      simp only [machine] at h
      split at h
      · next f hpc htodo hlast =>
        cases h
        obtain ⟨q, hq⟩ := List.getLast?_eq_some_iff.mp hlast
        rw [hq, List.dropLast_concat]
        exact .steal hpc htodo hq
      · cases h
  | fork w c =>
      obtain ⟨f, hpc, haw, hl, ht, hp, rfl⟩ := invoke_eq_some.mp h
      exact .fork hpc haw hl ht hp
  | call w c =>
      obtain ⟨f, hpc, haw, hl, ht, hp, rfl⟩ := invoke_eq_some.mp h
      exact .call hpc haw hl ht hp
  | ret w =>
      simp only [machine] at h
      split at h
      · next f hr =>
        obtain ⟨hpc, haw⟩ := running_eq_some.mp hr
        split_ifs at h with hscope
        cases h
        unfold ret
        split
        · next ht => exact .retRoot hpc haw hscope ht
        · next ht => exact .retCall hpc haw hscope ht
        · next ht => exact .retFork hpc haw hscope ht
      · cases h
  | join w =>
      obtain ⟨f, hr, rfl⟩ := Option.map_eq_some_iff.mp h
      obtain ⟨hpc, haw⟩ := running_eq_some.mp hr
      unfold join
      split_ifs with hz
      · exact .shortcut hpc haw hz
      · exact .joinCall hpc haw hz
  | switch w =>
      obtain ⟨f, hr, rfl⟩ := Option.map_eq_some_iff.mp h
      obtain ⟨hpc, haw⟩ := running_eq_some.mp hr
      exact .switch hpc haw
  | step w => exact moves_of_workerStep h

end Libfork.Runtime
