import Libfork.Runtime.SyncFork

/-!
# The event loops of `unit_pool` and `busy_pool`

The workers of a pool run an event loop around the runtime: until they are told to stop they look
for submitted handles and for tasks to steal, then they look for submitted handles only. The
workers of a `busy_pool` do not destroy their contexts before each of them is past its loop.

* `Kind` — which pool, and how many workers it has.
* `Pc` — where a worker stands in `busy_work`, or in `unit_pool::work`.
* `State.scheduled`, `State.resumed` — ghosts: the handles that were scheduled on a worker, and
  those that it passed to `resume`.

The pool is there already: every worker has initialised its context.

Source: `busy_pool.hpp`, `busy_work`, `busy_pool`; `unit_pool.hpp`, `unit_pool`;
`numa_context.hpp`.
-/

namespace Libfork.Pool

open Libfork.Found

/-- Which pool. -/
inductive Kind
  /-- `unit_pool` -/
  | unit
  /-- `busy_pool` with so many workers. -/
  | busy (n : ℕ)
deriving DecidableEq, Repr

/-- Source: `busy_pool.hpp`, `m_num_threads` -/
def Kind.numThreads : Kind → ℕ
  | .unit => 1
  | .busy n => n

/-- The workers steal from each other, and stop together. -/
def Kind.steals : Kind → Bool
  | .unit => false
  | .busy _ => true

/-- The next access of a worker's event loop. -/
inductive Pc
  /-- `while (!stop.test())` -/
  | test
  /-- The loop's `try_pop_all()`. -/
  | popAll
  /-- The loop's `try_steal()`. -/
  | trySteal
  /-- In `resume`, called from the loop. -/
  | resuming
  /-- The `try_pop_all()` after the loop. -/
  | drain
  /-- In `resume`, called after the loop. -/
  | draining
  /-- `stop.test_and_set()` -/
  | setStop
  /-- `latch_stop.arrive_and_wait()`, the first half. -/
  | arrive
  /-- `latch_stop.arrive_and_wait()`, the second half. -/
  | wait
  /-- `finalize` -/
  | finalize
  /-- The thread is over. -/
  | exited
deriving DecidableEq, Repr

/-- The worker runs tasks. -/
def Pc.inResume : Pc → Bool
  | .resuming => true
  | .draining => true
  | _ => false

/-- The worker has reached the latch. -/
def Pc.arrived : Pc → Bool
  | .wait => true
  | .finalize => true
  | .exited => true
  | _ => false

/-- The worker is past both loops. -/
def Pc.drained : Pc → Bool
  | .setStop => true
  | .arrive => true
  | .wait => true
  | .finalize => true
  | .exited => true
  | _ => false

/-- How far the destructor has come. -/
inductive Destroyer
  /-- It was not called. -/
  | running
  /-- `stop` is set; the threads are joined. -/
  | joining
  /-- It has returned. -/
  | returned
deriving DecidableEq, Repr

structure State where
  /-- What the workers run. -/
  rt : Runtime.State
  loop : ℕ → Pc
  /-- Source: `busy_pool.hpp`, `busy_vars::stop`; `unit_pool.hpp`, `m_stop` -/
  stop : Bool
  /-- How many have arrived. Source: `busy_pool.hpp`, `busy_vars::latch_stop` -/
  latch : ℕ
  destroyer : Destroyer
  /-- Ghost: the handles scheduled on each worker. -/
  scheduled : ℕ → List ℕ
  /-- Ghost: the handles that each worker has passed to `resume`. -/
  resumed : ℕ → List ℕ

/-- The pool is there, and idle. -/
def State.init : State where
  rt := .init
  loop := fun _ => .test
  stop := false
  latch := 0
  destroyer := .running
  scheduled := fun _ => []
  resumed := fun _ => []

inductive Act
  /-- A root task is created. -/
  | spawn (r : ℕ)
  /-- `schedule` is called with the handle of `f`, and picks the worker `w`. -/
  | schedule (f w : ℕ)
  /-- A worker goes on inside `resume`. -/
  | code (a : Runtime.Act)
  /-- `w` goes on in its event loop. A `try_steal` finds nothing. -/
  | loop (w : ℕ)
  /-- The `try_steal` of `w` takes a task from `v`. -/
  | steal (w v : ℕ)
  /-- The destructor is called. -/
  | destroy
  /-- The destructor returns. -/
  | joined
deriving DecidableEq, Repr

/-- The worker that goes on inside `resume`. -/
def worker : Runtime.Act → Option ℕ
  | .resume w => some w
  | .fork w _ => some w
  | .call w _ => some w
  | .ret w => some w
  | .join w => some w
  | .switch w => some w
  | .step w => some w
  | _ => none

namespace State

variable (s : State)

/-- Move a worker's event loop on. -/
def goto (w : ℕ) (pc : Pc) : State := { s with loop := Function.update s.loop w pc }

/-- Ghost: `resume(submit_handle)` goes to the next of its list. -/
def logResume : Runtime.Act → State
  | .resume w => { s with
      resumed := Function.update s.resumed w (s.resumed w ++ (s.rt.todo w).take 1) }
  | _ => s

end State

section steps

variable (K : Kind) (T : Runtime.Tree)

/-- `try_pop_all()`, and `resume` if there is anything to resume. -/
def popAll (s : State) (w : ℕ) (found empty : Pc) : Option State :=
  if s.rt.submit w = [] then some (s.goto w empty)
  else ((Runtime.machine T).step s.rt (.popAll w)).map fun rt => { s with rt := rt }.goto w found

/-- One access of an event loop. Source: `busy_pool.hpp`, `busy_work`; `unit_pool.hpp`, `work` -/
def loopStep (s : State) (w : ℕ) : Option State :=
  match s.loop w with
  | .test => some (s.goto w (if s.stop then .drain else .popAll))
  | .popAll => popAll T s w .resuming (if K.steals then .trySteal else .test)
  | .trySteal => some (s.goto w .test)
  | .resuming => if s.rt.pc w = .idle ∧ s.rt.todo w = [] then some (s.goto w .test) else none
  | .drain => popAll T s w .draining (if K.steals then .setStop else .finalize)
  | .draining => if s.rt.pc w = .idle ∧ s.rt.todo w = [] then some (s.goto w .drain) else none
  | .setStop => some ({ s with stop := true }.goto w .arrive)
  | .arrive => some ({ s with latch := s.latch + 1 }.goto w .wait)
  | .wait => if s.latch = K.numThreads then some (s.goto w .finalize) else none
  | .finalize => some (s.goto w .exited)
  | .exited => none

/-- The pool, its workers, and whoever uses it. -/
def machine : Machine State Act where
  step s
    | .spawn r => ((Runtime.machine T).step s.rt (.spawn r)).map fun rt => { s with rt := rt }
    | .schedule f w =>
        if w < K.numThreads then
          ((Runtime.machine T).step s.rt (.schedule f w)).map fun rt =>
            { s with rt := rt, scheduled := Function.update s.scheduled w (s.scheduled w ++ [f]) }
        else none
    | .code a => match worker a with
        | some w =>
            if w < K.numThreads ∧ (s.loop w).inResume then
              ((Runtime.machine T).step s.rt a).map fun rt => { s.logResume a with rt := rt }
            else none
        | none => none
    | .loop w => if w < K.numThreads then loopStep K T s w else none
    | .steal w v =>
        if w < K.numThreads ∧ v < K.numThreads ∧ v ≠ w ∧ s.loop w = .trySteal then
          ((Runtime.machine T).step s.rt (.steal w v)).map fun rt =>
            { s with rt := rt }.goto w .resuming
        else none
    | .destroy =>
        if s.destroyer = .running then some { s with stop := true, destroyer := .joining }
        else none
    | .joined =>
        if s.destroyer = .joining ∧ ∀ w < K.numThreads, s.loop w = .exited then
          some { s with destroyer := .returned }
        else none

/-- Nobody schedules anything once the destructor has begun, or a worker has told the others to
stop. -/
def NoLateSchedule (s : State) : Act → Prop
  | .schedule _ _ => s.stop = false
  | _ => True

instance (s : State) (a : Act) : Decidable (NoLateSchedule s a) :=
  match a with
  | .schedule _ _ => inferInstanceAs (Decidable (s.stop = false))
  | .spawn _ => isTrue trivial
  | .code _ => isTrue trivial
  | .loop _ => isTrue trivial
  | .steal _ _ => isTrue trivial
  | .destroy => isTrue trivial
  | .joined => isTrue trivial

/-- No continuation is taken 65535 times in one scope. -/
def FewSteals (s : State) (a : Act) : Prop :=
  ∀ s', (machine K T).step s a = some s' → ∀ f, (s'.rt.task f).taken < 65535

end steps

end Libfork.Pool
