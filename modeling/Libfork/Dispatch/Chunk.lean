import Libfork.Dispatch.Swallow

/-!
# The chunk loops of `fold` and `scan`

With an asynchronous operator, the loops over a chunk dispatch one child for each application, by
`dispatch<call, eager_throw_outside>`, to a local accumulator, and have no join. They run on the
frame of a task that opens no fork-join scope before.

* `Chunk` — the loops, by what comes before them.
* `chunkLoop_run` — a loop is a run of the machine.
* **`never_propagates`** — no run propagates an exception that an eager dispatch has got, and no
  chunk an exception that its operator throws.

The projection returns.

Source: `fold.hpp`, `fold_overload_impl::operator()`; `scan.hpp`, `rise_sweep::operator()`,
`fall_sweep_impl::operator()`.
-/

namespace Libfork.Dispatch

open Libfork.Found Libfork.Join

variable {V ε : Type}

/-! ## The loops -/

/-- The asynchronous operator, and what a move leaves behind. -/
structure Args (V ε : Type) where
  /-- What the coroutine of an application ends with. -/
  bop : V → V → Except ε V
  moved : V → V

/-- The locals of a loop, and the frame of its task. -/
structure Locals (V ε : Type) where
  acc : V
  /-- What has been written to `*out`. -/
  out : List V
  self : Frame ε

/-- `*out = acc; ++out`, in the loops that write. -/
def Locals.written (l : Locals V ε) (writes : Bool) : Locals V ε :=
  { l with out := if writes then l.out ++ [l.acc] else l.out }

/-- What a chunk writes besides leaves its accumulator alone. -/
@[simp] theorem Locals.written_acc (l : Locals V ε) (writes : Bool) :
    (l.written writes).acc = l.acc := rfl

/-- It leaves the frame alone, too. -/
@[simp] theorem Locals.written_self (l : Locals V ε) (writes : Bool) :
    (l.written writes).self = l.self := rfl

/-- The child captures, nobody else. Source: `frame.hpp`, `capture_exception` -/
def captureException (self : Frame ε) (e : ε) : Frame ε :=
  if self.mExcept then self else { self with mExcept := true, mEptr := .holds e }

/-- `&acc` does not stash exceptions. -/
def accAddress : Address := ⟨.call, .eagerThrowOutside, false⟩

/-- What `co_await` makes of a child that has exited so. -/
def eagerCallOutside (self : Frame ε) (raised : Option ε) : Result ε × Frame ε :=
  match awaitTransform self accAddress.stash accAddress.tag accAddress.mod with
  | none => (.assertFails, self)
  | some awaitable => awaitable.awaitResume (raised.elim self (captureException self))

namespace Args

variable (A : Args V ε)

/-- `co_await eager_call_outside(&acc, bop)(std::move(acc), x)` -/
def apply (l : Locals V ε) (x : V) : Result ε × Locals V ε :=
  match A.bop l.acc x with
  | .ok acc =>
      let (r, self) := eagerCallOutside l.self none
      (r, { l with acc := acc, self := self })
  | .error e =>
      let (r, self) := eagerCallOutside l.self (some e)
      (r, { l with acc := A.moved l.acc, self := self })

/-- The loop over the projected elements `xs`; `some r` if it was left by an exception. -/
def chunkLoop (writes : Bool) : List V → Locals V ε → Option (Result ε) × Locals V ε
  | [], l => (none, l)
  | x :: xs, l =>
      match A.apply l x with
      | (.void, l) => chunkLoop writes xs (l.written writes)
      | (r, l) => (some r, l)

/-- Some application of the loop exits with an exception. -/
def throwsOn : List V → V → Bool
  | [], _ => false
  | x :: xs, acc => match A.bop acc x with
      | .ok acc => throwsOn xs acc
      | .error _ => true

end Args

/-- The chunk loops. `xs` are the projected elements that a loop goes over. -/
inductive Chunk (V : Type)
  /-- `fold`: the accumulator is the first element. -/
  | fold (x : V) (xs : List V)
  /-- `rise_sweep` as a fold: the accumulator is the first element. -/
  | riseFold (x : V) (xs : List V)
  /-- `rise_sweep` as a scan with a left sibling: the accumulator is `*(out - 1)`. -/
  | riseScanSibling (prev : V) (xs : List V)
  /-- `rise_sweep` as a scan with none: the accumulator is the first element. -/
  | riseScan (x : V) (xs : List V)
  /-- `fall_sweep_impl`: the accumulator is `*(out - 1)`. -/
  | fall (prev : V) (xs : List V)

/-- The elements the loop goes over. -/
def Chunk.elems : Chunk V → List V
  | .fold _ xs => xs
  | .riseFold _ xs => xs
  | .riseScanSibling _ xs => xs
  | .riseScan _ xs => xs
  | .fall _ xs => xs

/-- The loop writes what it accumulates. -/
def Chunk.writes : Chunk V → Bool
  | .fold _ _ => false
  | .riseFold _ _ => false
  | .riseScanSibling _ _ => true
  | .riseScan _ _ => true
  | .fall _ _ => true

/-- The locals before the loop, on a new frame. -/
def Chunk.start : Chunk V → Locals V ε
  | .fold x _ => ⟨x, [], .new⟩
  | .riseFold x _ => ⟨x, [], .new⟩
  | .riseScanSibling prev _ => ⟨prev, [], .new⟩
  | .riseScan x _ => ⟨x, [x], .new⟩
  | .fall prev _ => ⟨prev, [], .new⟩

/-- A task on a chunk: the exception it exits with, and its locals then. -/
def Args.runChunk (A : Args V ε) (c : Chunk V) : Option (Result ε) × Locals V ε :=
  A.chunkLoop c.writes c.elems c.start

/-! ## A loop is never left by an exception -/

section loop

variable (A : Args V ε) {writes : Bool} {xs : List V} {l : Locals V ε} {x : V}

/-- An eager call from outside captures what was raised and returns nothing. -/
theorem eagerCallOutside_eq (self : Frame ε) (raised : Option ε) :
    eagerCallOutside self raised = (.void, raised.elim self (captureException self)) := rfl

/-- An application returns nothing. -/
theorem apply_fst : (A.apply l x).1 = .void := by
  unfold Args.apply
  split <;> rfl

/-- The loop applies the operation to the first element and goes on with the others. -/
theorem chunkLoop_cons : A.chunkLoop writes (x :: xs) l =
    A.chunkLoop writes xs ((A.apply l x).2.written writes) := by
  have hvoid : A.apply l x = (.void, (A.apply l x).2) := Prod.ext (apply_fst A) rfl
  conv_lhs => unfold Args.chunkLoop
  rw [hvoid]

/-- The loop raises nothing. -/
theorem chunkLoop_fst : (A.chunkLoop writes xs l).1 = none := by
  induction xs generalizing l with
  | nil => rfl
  | cons x xs ih =>
    rw [chunkLoop_cons]
    exact ih

/-- A frame that captures has its flag set. -/
theorem captureException_mExcept (self : Frame ε) (e : ε) :
    (captureException self e).mExcept = true := by
  unfold captureException
  split
  · assumption
  · rfl

/-- The flag stays set. -/
theorem chunkLoop_mExcept (h : l.self.mExcept = true) :
    (A.chunkLoop writes xs l).2.self.mExcept = true := by
  induction xs generalizing l with
  | nil => exact h
  | cons x xs ih =>
    rw [chunkLoop_cons]
    apply ih
    unfold Args.apply
    split
    · exact h
    · exact captureException_mExcept _ _

/-- The flag is set in the end if it was before, or some application has thrown. -/
theorem chunkLoop_flag : (A.chunkLoop writes xs l).2.self.mExcept =
    (l.self.mExcept || A.throwsOn xs l.acc) := by
  induction xs generalizing l with
  | nil => simp [Args.chunkLoop, Args.throwsOn]
  | cons x xs ih =>
    rw [chunkLoop_cons]
    unfold Args.throwsOn
    cases hbop : A.bop l.acc x with
    | ok acc =>
      rw [ih]
      simp [Args.apply, hbop, eagerCallOutside_eq]
    | error e =>
      rw [chunkLoop_mExcept, Bool.or_true]
      simp [Args.apply, hbop, eagerCallOutside_eq, captureException_mExcept]

/-- Capturing leaves the counters of the frame alone. -/
theorem captureException_counters (self : Frame ε) (e : ε) :
    (captureException self e).mSteal = self.mSteal ∧
      (captureException self e).mJoin = self.mJoin := by
  unfold captureException
  split <;> exact ⟨rfl, rfl⟩

/-- So does the loop. -/
theorem chunkLoop_counters : (A.chunkLoop writes xs l).2.self.mSteal = l.self.mSteal ∧
    (A.chunkLoop writes xs l).2.self.mJoin = l.self.mJoin := by
  induction xs generalizing l with
  | nil => exact ⟨rfl, rfl⟩
  | cons x xs ih =>
    rw [chunkLoop_cons, ih.1, ih.2]
    cases hbop : A.bop l.acc x with
    | ok acc => simp [Args.apply, hbop, eagerCallOutside_eq]
    | error e => simp [Args.apply, hbop, eagerCallOutside_eq, captureException_counters]

/-- A chunk begins with a new frame. -/
theorem chunk_start_self (c : Chunk V) : (c.start : Locals V ε).self = .new := by
  cases c <;> rfl

/-- A task that is done with its chunk passes the assertions of `final_suspend` unless some
application has thrown. -/
theorem finalSuspend_runChunk (c : Chunk V) : finalSuspend (A.runChunk c).2.self =
    !A.throwsOn c.elems (c.start : Locals V ε).acc := by
  have hcounters : (A.runChunk c).2.self.mSteal = (c.start : Locals V ε).self.mSteal ∧
      (A.runChunk c).2.self.mJoin = (c.start : Locals V ε).self.mJoin := chunkLoop_counters A
  have hflag : (A.runChunk c).2.self.mExcept =
      ((c.start : Locals V ε).self.mExcept || A.throwsOn c.elems (c.start : Locals V ε).acc) :=
    chunkLoop_flag A
  rw [chunk_start_self] at hcounters hflag
  have hnew : (Frame.new : Frame ε).mExcept = false := rfl
  rw [hnew, Bool.false_or] at hflag
  unfold finalSuspend Frame.loadSteals Frame.loadJoins
  rw [hcounters.1, hcounters.2, hflag]
  simp [Frame.new]

end loop

/-! ## A loop is a run of the machine -/

section runs

variable {s : State ε} {c : ℕ}

/-- The code runs, on this frame, and the children from `c` on are new. -/
structure Ready (s : State ε) (f : Frame ε) (c : ℕ) : Prop where
  awaiting : s.awaiting = none
  final : s.final = none
  parent : s.scope.parent = .running
  frame : s.scope.frame = f
  fresh : ∀ d, c ≤ d → s.scope.child d = .absent

/-- The record of an application. -/
def record (raised : Option ε) : Await ε := ⟨accAddress, raised, true, .void⟩

/-- The code waits for the child `c` of an application, which is at `pc`. -/
def during (s : State ε) (c : ℕ) (f : Frame ε) (now : List (Event ε)) (pc : ChildPc ε)
    (raised : Option ε) : State ε :=
  { s.wait accAddress .call c with
    scope := { s.scope.goto c pc with parent := .called c, frame := f, now := now }
    raised := Function.update s.raised c raised }

/-- The child `c` is done, and the code is about to go on. -/
def done (s : State ε) (c : ℕ) (f : Frame ε) (now : List (Event ε)) (raised : Option ε) :
    State ε :=
  { s.wait accAddress .call c with
    scope := { s.scope.goto c .done with parent := .running, frame := f, now := now }
    raised := Function.update s.raised c raised
    synchronous := Function.update s.synchronous c true }

/-- The application is over. -/
def applied (s : State ε) (c : ℕ) (f : Frame ε) (now : List (Event ε)) (raised : Option ε) :
    State ε :=
  { done s c f now raised with
    awaiting := none
    awaits := s.awaits ++ [record raised] }

variable {f : Frame ε} {now : List (Event ε)} {raised : Option ε} {e : ε}

/-- A frame that is ready dispatches the next child, and the child works. -/
theorem dispatch_ready (h : Ready s f c) : (machine ε).step s (.dispatch accAddress c) =
    some (during s c f s.scope.now .working none) := by
  obtain ⟨hawaiting, hfinal, hparent, hframe, hfresh⟩ := h
  simp [machine, State.dispatch, State.free, hawaiting, hfinal, accAddress, awaitTransform,
    modifierFor, State.take, Join.machine, State.wait, hparent, hfresh c le_rfl, during,
    State.goto, hframe]

/-- The child raises. -/
theorem raise_during : (machine ε).step (during s c f now .working none) (.raise c e) =
    some (during s c f now (.exchange e) (some e)) := by
  simp [machine, during, State.unhandledException, State.wait, State.take, Join.machine,
    accAddress, State.goto]

/-- The child exchanges the flag. -/
theorem exchange_during : (machine ε).step (during s c f now (.exchange e) raised) (.child c) =
    some (during s c { f with mExcept := true } (now ++ [.capture e f.mExcept])
      (if f.mExcept then .working else .construct e) raised) := by
  simp [machine, during, State.take, Join.machine, childStep, exchangeFlag, State.goto,
    State.logged]

/-- The first child to do so stores its exception. -/
theorem construct_during : (machine ε).step (during s c f now (.construct e) raised) (.child c) =
    some (during s c { f with mEptr := .holds e } now .working raised) := by
  simp [machine, during, State.take, Join.machine, childStep, constructEptr, State.goto]

/-- The child is done. -/
theorem finish_during : (machine ε).step (during s c f now .working raised) (.finish c) =
    some (done s c f now raised) := by
  simp [machine, during, done, State.finish, State.take, Join.machine, Join.finish, State.wait,
    ParentPc.runs, State.goto]

/-- The code goes on. -/
theorem resume_done : (machine ε).step (done s c f now raised) .resume =
    some (applied s c f now raised) := by
  simp [machine, State.resume, done, applied, State.await, State.wait, record,
    Awaitable.awaitResume]

/-- It is ready for the next application. -/
theorem ready_applied (h : Ready s f' c) : Ready (applied s c f now raised) f (c + 1) := by
  refine ⟨rfl, h.final, rfl, rfl, fun d hd => ?_⟩
  exact (Function.update_of_ne (Nat.ne_of_gt hd) _ _).trans (h.fresh d (Nat.le_of_succ_le hd))

/-- The child captures its exception in the frame. -/
theorem capture_during : ∃ as now', (machine ε).Run Machine.free
    (during s c f now (.exchange e) raised) as
    (during s c (captureException f e) now' .working raised) := by
  obtain ⟨mEptr, mJoin, mSteal, mExcept⟩ := f
  cases mExcept with
  | true =>
    refine ⟨[.child c], now ++ [.capture e true], ?_⟩
    exact ⟨trivial, _, exchange_during, rfl⟩
  | false =>
    refine ⟨[.child c, .child c], now ++ [.capture e false], ?_⟩
    exact ⟨trivial, _, exchange_during, trivial, _, construct_during, rfl⟩

/-- Whether an application exits with an exception. -/
def raisedBy : Except ε V → Option ε
  | .ok _ => none
  | .error e => some e

/-- An application is a run, from one state in which the code runs to the next. -/
theorem apply_run (A : Args V ε) {l : Locals V ε} {x : V} (h : Ready s l.self c) :
    ∃ as now, (machine ε).Run Machine.free s as
      (applied s c (A.apply l x).2.self now (raisedBy (A.bop l.acc x))) := by
  unfold Args.apply
  cases A.bop l.acc x with
  | ok acc =>
    exact ⟨[.dispatch accAddress c, .finish c, .resume], s.scope.now, trivial, _,
      dispatch_ready h, trivial, _, finish_during, trivial, _, resume_done, rfl⟩
  | error e =>
    obtain ⟨as, now, hcapture⟩ : ∃ as now, (machine ε).Run Machine.free
        (during s c l.self s.scope.now (.exchange e) (some e)) as
        (during s c (captureException l.self e) now .working (some e)) := capture_during
    refine ⟨[.dispatch accAddress c, .raise c e] ++ (as ++ [.finish c, .resume]), now, ?_⟩
    refine Machine.run_append.mpr ⟨_, ⟨trivial, _, dispatch_ready h, trivial, _, raise_during, rfl⟩,
      Machine.run_append.mpr ⟨_, hcapture, trivial, _, finish_during, trivial, _, resume_done, rfl⟩⟩

/-- **A loop is a run of the machine**, and an application that throws is one whose exception the
frame has captured. -/
theorem chunkLoop_run (A : Args V ε) {writes : Bool} {xs : List V} {l : Locals V ε}
    (h : Ready s l.self c) : ∃ as s', (machine ε).Run Machine.free s as s' ∧
      Ready s' (A.chunkLoop writes xs l).2.self (c + xs.length) ∧ s.awaits ⊆ s'.awaits ∧
      (A.throwsOn xs l.acc = true → ∃ a ∈ s'.awaits, a.Captured) := by
  induction xs generalizing l s c with
  | nil => exact ⟨[], s, rfl, h, List.Subset.refl _, nofun⟩
  | cons x xs ih =>
    obtain ⟨as, now, hrun⟩ := apply_run A h (x := x)
    have happlied : Ready (applied s c (A.apply l x).2.self now (raisedBy (A.bop l.acc x)))
        ((A.apply l x).2.written writes).self (c + 1) := ready_applied h
    obtain ⟨bs, s', hrun', hready, hsub, hthrows⟩ := ih happlied
    rw [chunkLoop_cons, List.length_cons, Nat.add_comm xs.length, ← Nat.add_assoc]
    refine ⟨as ++ bs, s', Machine.run_append.mpr ⟨_, hrun, hrun'⟩, hready,
      List.Subset.trans (List.subset_append_left _ _) hsub, fun hthrow => ?_⟩
    unfold Args.throwsOn at hthrow
    cases hbop : A.bop l.acc x with
    | ok acc =>
      rw [hbop] at hthrow
      apply hthrows
      simpa [Args.apply, hbop] using hthrow
    | error e =>
      -- the frame has captured the exception of this application
      refine ⟨record (some e), hsub ?_, nofun, rfl, nofun, rfl⟩
      rw [hbop]
      exact List.mem_append_right _ (List.mem_singleton_self _)

end runs

/-! ## No exception is propagated -/

/-- **An eager dispatch never propagates the exception that its child has captured in the frame.**
The expression goes on, a synchronous fork as one whose child has returned; and a chunk loop ends
with a value, to fail the assertion of `final_suspend` if its operator has thrown. -/
theorem never_propagates (as : List (Act ε)) (s : State ε)
    (h : (machine ε).Run Machine.free State.new as s) (A : Args V ε) (k : Chunk V) :
    (∀ a ∈ s.awaits, a.Captured → ¬ a.Throws ∧
      (a.address.tag = .fork → a.result = .ready true)) ∧
    ((∃ a ∈ s.awaits, a.Captured) → ¬ Propagates s) ∧
    (A.runChunk k).1 = none ∧
    (A.throwsOn k.elems (k.start : Locals V ε).acc = true →
      finalSuspend (A.runChunk k).2.self = false) := by
  have hquiet := quiet_of_run h
  refine ⟨fun a ha hcap => ?_, ?_, chunkLoop_fst A, fun hthrow => ?_⟩
  · have hsilent := hquiet.silent a ha hcap
    exact ⟨hsilent.not_throws, hsilent.fork⟩
  · rintro ⟨a, ha, hcap⟩ hprop
    exact (hquiet.silent a ha hcap).not_throws (hprop.throws a ha hcap)
  · rw [finalSuspend_runChunk, hthrow]
    rfl

/-- The called child of an eager dispatch exits with an exception, and the code goes on to its
end. -/
def lostRun : List (Act Unit) :=
  [.dispatch accAddress 0, .raise 0 (), .child 0, .child 0, .finish 0, .resume, .coReturn]

/-- What `lostRun` leaves: the expression has returned, and the flag is set in the end. -/
theorem lostRun_state : ∃ s, (machine Unit).Run Machine.free State.new lostRun s ∧
    s.awaits = [record (some ())] ∧ ∃ f, s.final = some f ∧ f.mExcept = true := by
  refine ⟨_, ⟨trivial, _, rfl, trivial, _, rfl, trivial, _, rfl, trivial, _, rfl, trivial, _, rfl,
    trivial, _, rfl, trivial, _, rfl, rfl⟩, rfl, _, rfl, rfl⟩

/-- The fold of one element whose application throws ends as if it had not. -/
theorem never_propagates_lostRun : ∃ s, (machine Unit).Run Machine.free State.new lostRun s ∧
    (∃ a ∈ s.awaits, a.Captured ∧ ¬ a.Throws) ∧ ¬ Propagates s ∧
    (Args.runChunk ⟨fun _ _ => .error (), id⟩ (.fold 0 [1]) :
      Option (Result Unit) × Locals ℕ Unit).1 = none ∧
    finalSuspend (Args.runChunk ⟨fun _ _ => .error (), id⟩ (.fold 0 [1]) :
      Option (Result Unit) × Locals ℕ Unit).2.self = false := by
  obtain ⟨s, hrun, hawaits, -⟩ := lostRun_state
  obtain ⟨hsilent, hlost, hchunk, hfinal⟩ := never_propagates lostRun s hrun
    ⟨fun _ _ => .error (), id⟩ (.fold 0 [1] : Chunk ℕ)
  have hmem : record (some ()) ∈ s.awaits := hawaits ▸ List.mem_singleton_self _
  have hcap : (record (some ())).Captured := ⟨nofun, rfl, nofun, rfl⟩
  exact ⟨s, hrun, ⟨_, hmem, hcap, (hsilent _ hmem hcap).1⟩, hlost ⟨_, hmem, hcap⟩, hchunk,
    hfinal rfl⟩

/-- The exception of an eager call is neither thrown by the expression nor gone when the coroutine
ends. -/
theorem exception_lost : ¬ ∀ (as : List (Act Unit)) (s : State Unit),
    (machine Unit).Run Machine.free State.new as s → Propagates s := by
  intro hall
  obtain ⟨s, hrun, hawaits, f, hfinal, hflag⟩ := lostRun_state
  have hprop := hall lostRun s hrun
  exact absurd (hflag.symm.trans (hprop.final f hfinal)) nofun

end Libfork.Dispatch
