import Libfork.Join.Counters

/-!
# What one step logs

* `Emits s es` — the events that one step out of `s` may log, with what holds of `s` then.
* **`step_log`** — every step logs such events, and leaves the join only after it.
* `Logs J s` — every event of every scope is justified by the events before it in its scope;
  **`logs_step`** reduces it to the lists of `Emits`.
-/

namespace Libfork.Join

open Libfork.Found

variable {ε : Type} {s s' : State ε} {es : List (Event ε)}

/-- The events of one step. -/
inductive Emits (s : State ε) : List (Event ε) → Prop
  | silent : Emits s []
  | steal (c : ℕ) (hp : s.parent = .forked c) : Emits s [.steal c]
  | decrement (c : ℕ) (hc : s.child c = .sub) : Emits s [.decrement c s.frame.mJoin]
  | shortcut (hp : s.parent = .running) (hz : s.frame.mSteal = 0) :
      Emits s [.shortcut, .resume .worker s.frame.mSteal s.frame.mJoin]
  | joined (hp : s.parent = .joinLoad) (heq : s.frame.mSteal = kU16Max - s.frame.mJoin) :
      Emits s [.resume .worker 0 kU16Max]
  | last (hp : s.parent = .joinSub) (heq : s.frame.mSteal = kU16Max - s.frame.mJoin) :
      Emits s [.subtract, .resume .worker 0 kU16Max]
  | subtract (hp : s.parent = .joinSub) : Emits s [.subtract]
  | resume (c : ℕ) (hc : s.child c = .won) (hp : s.parent = .suspended) :
      Emits s [.resume (.child c) 0 kU16Max]
  | capture (e : ε) : Emits s [.capture e s.frame.mExcept]
  | throw (e : ε) (hp : s.parent = .rethrow) (he : s.frame.mEptr = .holds e) : Emits s [.throw e]
  | readInvalid (hp : s.parent = .rethrow) (he : ∀ e, s.frame.mEptr ≠ .holds e) :
      Emits s [.readInvalid]
  | pass (hp : s.parent = .resumed) (hf : s.frame.mExcept = false) : Emits s [.pass]

/-- Where the events of a step go. -/
inductive Wrote (s s' : State ε) (es : List (Event ε)) : Prop
  /-- The scope goes on. -/
  | stays (hnow : s'.now = s.now ++ es) (hpast : s'.past = s.past)
      (hclosed : s.parent.phase.closed = true → s'.parent.phase.closed = true)
  /-- The join is left. -/
  | leaves (hafter : s.parent.phase = .after) (hnow : s'.now = [])
      (hpast : s'.past = s.past ++ [s.now ++ es])

/-- A step may write nothing. -/
theorem Wrote.silent (hnow : s'.now = s.now) (hpast : s'.past = s.past)
    (hclosed : s.parent.phase.closed = true → s'.parent.phase.closed = true) : Wrote s s' [] :=
  .stays (by rw [hnow, List.append_nil]) hpast hclosed

/-- Nothing to show where the code of the scope still runs. -/
theorem closed_of_open {pc pc' : ParentPc ε} (h : pc = pc') (hopen : pc'.phase.closed = false) :
    pc.phase.closed = true → s'.parent.phase.closed = true := by
  rw [h, hopen]
  nofun

/-- What an access of the parent writes. -/
theorem parentStep_log (hstep : parentStep s = some s') : ∃ es, Emits s es ∧ Wrote s s' es := by
  unfold parentStep at hstep
  split at hstep
  case h_1 | h_2 | h_3 | h_4 => cases hstep
  case h_5 e hp =>
    cases hstep
    exact ⟨_, .capture e, .stays rfl rfl (closed_of_open hp rfl)⟩
  case h_6 e hp =>
    cases hstep
    exact ⟨_, .silent, .silent rfl rfl (closed_of_open hp rfl)⟩
  case h_7 hp =>
    cases hstep
    exact ⟨_, .silent, .silent rfl rfl (closed_of_open hp rfl)⟩
  case h_8 hp =>
    dsimp only at hstep
    split at hstep
    · rename_i heq
      cases hstep
      exact ⟨_, .joined hp heq, .stays rfl rfl (closed_of_open hp rfl)⟩
    · cases hstep
      exact ⟨_, .silent, .silent rfl rfl (closed_of_open hp rfl)⟩
  case h_9 hp =>
    dsimp only at hstep
    split at hstep
    · rename_i heq
      cases hstep
      exact ⟨_, .last hp heq, .stays (List.append_assoc _ _ _) rfl (closed_of_open hp rfl)⟩
    · cases hstep
      exact ⟨_, .subtract hp, .stays rfl rfl (closed_of_open hp rfl)⟩
  case h_10 hp =>
    dsimp only at hstep
    split at hstep
    · cases hstep
      exact ⟨_, .silent, .silent rfl rfl (fun _ => rfl)⟩
    · rename_i hf
      cases hstep
      exact ⟨_, .pass hp (Bool.eq_false_iff.mpr hf), .leaves (by rw [hp]; rfl) rfl rfl⟩
  case h_11 hp =>
    dsimp only at hstep
    split at hstep
    · rename_i e he
      cases hstep
      exact ⟨_, .throw e hp he, .stays rfl rfl (fun _ => rfl)⟩
    · rename_i he
      cases hstep
      exact ⟨_, .readInvalid hp (by rw [he]; nofun), .stays rfl rfl (fun _ => rfl)⟩
    · rename_i he
      cases hstep
      exact ⟨_, .readInvalid hp (by rw [he]; nofun), .stays rfl rfl (fun _ => rfl)⟩
  case h_12 hp =>
    cases hstep
    refine ⟨_, .silent, .leaves (by rw [hp]; rfl) rfl ?_⟩
    rw [List.append_nil]
    rfl

/-- What an access of a child writes. -/
theorem childStep_log {c : ℕ} (hstep : childStep s c = some s') :
    ∃ es, Emits s es ∧ Wrote s s' es := by
  unfold childStep at hstep
  split at hstep
  case h_1 | h_2 | h_3 => cases hstep
  case h_4 e hc =>
    cases hstep
    exact ⟨_, .capture e, .stays rfl rfl id⟩
  case h_5 e hc =>
    cases hstep
    exact ⟨_, .silent, .silent rfl rfl id⟩
  case h_6 hc =>
    cases hstep
    exact ⟨_, .decrement c hc, .stays rfl rfl id⟩
  case h_7 hc =>
    split at hstep
    · rename_i hp
      cases hstep
      exact ⟨_, .resume c hc hp, .stays rfl rfl (fun _ => rfl)⟩
    · cases hstep

/-- **Every step logs the events of `Emits`.** -/
theorem step_log {a : Act ε} (hstep : (machine ε).step s a = some s') :
    ∃ es, Emits s es ∧ Wrote s s' es := by
  cases a with
  | parent => exact parentStep_log hstep
  | child c => exact childStep_log hstep
  | join =>
    simp only [machine] at hstep
    split at hstep
    · rename_i hp
      cases hstep
      unfold joinCall
      split
      · rename_i hz
        exact ⟨_, .shortcut hp hz, .stays (List.append_assoc _ _ _) rfl
          (closed_of_open hp rfl)⟩
      · exact ⟨_, .silent, .silent rfl rfl (closed_of_open hp rfl)⟩
    · cases hstep
  | steal =>
    simp only [machine] at hstep
    split at hstep
    · rename_i c hp
      cases hstep
      exact ⟨_, .steal c hp, .stays rfl rfl (closed_of_open hp rfl)⟩
    · cases hstep
  | finish c =>
    simp only [machine] at hstep
    split at hstep
    · cases hstep
      unfold finish
      split
      · rename_i hruns
        refine ⟨_, .silent, .silent rfl rfl fun hclosed => ?_⟩
        rw [ParentPc.phase_of_runs hruns] at hclosed
        cases hclosed
      · exact ⟨_, .silent, .silent rfl rfl id⟩
    · cases hstep
  | fork c | call c | stash e =>
    simp only [machine] at hstep
    split at hstep
    · rename_i hp
      cases hstep
      exact ⟨_, .silent, .silent rfl rfl (closed_of_open (by assumption) rfl)⟩
    · cases hstep
  | capture c e =>
    simp only [machine] at hstep
    split at hstep
    · cases hstep
      exact ⟨_, .silent, .silent rfl rfl id⟩
    · cases hstep

/-! ## Justified logs -/

/-- Every event of every scope is justified. -/
def Logs (J : List (Event ε) → Event ε → Prop) (s : State ε) : Prop :=
  ∀ l ∈ s.now :: s.past, AllJustified J l

variable {J : List (Event ε) → Event ε → Prop}

/-- Nothing has been written at first. -/
theorem logs_new : Logs J (State.new : State ε) := by
  intro l hl
  rw [List.mem_singleton.mp hl]
  exact allJustified_nil

/-- The logs after a step are justified if its events are. -/
theorem logs_wrote (h : Logs J s) (hw : Wrote s s' es)
    (hes : AllJustified J s.now → AllJustified J (s.now ++ es)) : Logs J s' := by
  have hnow := hes (h s.now List.mem_cons_self)
  intro l hl
  cases hw with
  | stays hn hp _ =>
    rw [hn, hp] at hl
    rcases List.mem_cons.mp hl with rfl | hl
    · exact hnow
    · exact h l (List.mem_cons_of_mem _ hl)
  | leaves _ hn hp =>
    rw [hn, hp] at hl
    rcases List.mem_cons.mp hl with rfl | hl
    · exact allJustified_nil
    · rcases List.mem_append.mp hl with hl | hl
      · exact h l (List.mem_cons_of_mem _ hl)
      · rw [List.mem_singleton.mp hl]
        exact hnow

end Libfork.Join
