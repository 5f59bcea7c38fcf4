import Libfork.Found.Machine
import Libfork.Found.Shared

/-!
# Futures

The threads that call `schedule` and hold futures, and the workers that run the root tasks. Each
access to a shared state is one step, and the steps of all of them interleave in any order.

* `SharedState` — a `future_shared_state`: the result, the semaphore and the status.
* `Holder` — the shared pointers to one: a future, the local `share_state` of the call of
  `schedule` that made it, and the return address, first of the combinator and then of the
  promise.
* `CallPc`, `TaskPc`, `FuturePc` — where a call of `schedule`, a root task and a future stand. A
  call may throw at every step before the scheduler has accepted the task. Operations on one
  future do not overlap, those on different futures do.
* `State.accesses` — the shared state that the next step of somebody reads or writes.
* `State.ended`, `State.log` — ghosts: what the tasks ended with, and what `wait` and `get` gave.

Source: `sync_wait.hpp`, `future_shared_state`, `future`, `schedule`; `eventually.hpp`,
`basic_eventually`; `combinate.hpp`, `y_combinate`; `promise.hpp`, `final_awaitable`,
`unhandled_exception`; `return.hpp`, `return_result`.
-/

namespace Libfork.Future

open Libfork.Found

/-! ## The shared state -/

/-- Source: `sync_wait.hpp`, `future_state` -/
inductive FutureState
  /-- Wait has not been called. -/
  | noWait
  /-- The result is ready. -/
  | ready
  /-- The result has been retrieved. -/
  | retrievd
deriving DecidableEq, Repr

/-- How the body of a root task ends. -/
inductive Ended (R E : Type)
  | value (r : R)
  /-- `co_return` in a `task<void>`. -/
  | void
  | exception (e : E)
deriving DecidableEq, Repr

/-- A `try_eventually<R>`. What has been moved out of it is `none`.
Source: `eventually.hpp`, `basic_eventually` -/
inductive Eventually (R E : Type)
  | empty
  | value (mValue : Option R)
  | exception (mException : Option E)
deriving DecidableEq, Repr

/-- What a call of `wait` or `get` gives. -/
inductive Answer (R E : Type)
  /-- A value, `none` where there was none to move out. -/
  | value (r : Option R)
  | void
  /-- A rethrown exception, `none` for a null `exception_ptr`. -/
  | rethrown (e : Option E)
  | emptyFuture
  | brokenFuture
deriving DecidableEq, Repr

section result

variable {R E : Type}

/-- The types of the language: a `task<void>` returns no value, another task returns one. -/
def Ended.fits (isVoid : Bool) : Ended R E → Bool
  | .value _ => !isVoid
  | .void => isVoid
  | .exception _ => true

/-- The end of a root task, stored through its return address. Source: `return.hpp`,
`return_value`, `return_void`; `promise.hpp`, `unhandled_exception` -/
def Ended.store : Ended R E → Eventually R E → Eventually R E
  | .value r, _ => .value (some r)
  | .void, dest => dest
  | .exception e, _ => .exception (some e)

/-- Without a value the state is the exception pointer itself. Source: `eventually.hpp`,
`empty`, `implicit_state` -/
def Eventually.isEmpty (isVoid : Bool) : Eventually R E → Bool
  | .empty => true
  | .value _ => false
  | .exception e => isVoid && e.isNone

/-- Source: `eventually.hpp`, `has_exception` -/
def Eventually.hasException (isVoid : Bool) : Eventually R E → Bool
  | .exception e => !isVoid || e.isSome
  | _ => false

/-- What `get` moves out, and what it leaves. Source: `sync_wait.hpp`, `get`, its last lines -/
def Eventually.take (isVoid : Bool) (result : Eventually R E) : Answer R E × Eventually R E :=
  if result.hasException isVoid then
    match result with
    | .exception e => (.rethrown e, .exception none)
    | _ => (.rethrown none, result)
  else if isVoid then (.void, result)
  else
    match result with
    | .value r => (.value r, .value none)
    | _ => (.value none, result)

/-- What `get` should give for a task that ended so. -/
def Ended.answer : Ended R E → Answer R E
  | .value r => .value (some r)
  | .void => .void
  | .exception e => .rethrown (some e)

end result

/-- Source: `sync_wait.hpp`, `future_shared_state` -/
structure SharedState (R E : Type) where
  isVoid : Bool
  result : Eventually R E
  sem : ℕ
  status : FutureState

/-- What `make_shared` constructs. -/
def SharedState.new {R E : Type} (isVoid : Bool) : SharedState R E where
  isVoid := isVoid
  result := .empty
  sem := 0
  status := .noWait

/-! ## The parties -/

/-- The shared pointers. -/
inductive Holder
  /-- `m_heap` of a future. -/
  | future (k : ℕ)
  /-- `share_state` in the call of `schedule` that made the state. -/
  | shareState (i : ℕ)
  /-- `ret` of the combinator of that call. -/
  | combinator (i : ℕ)
  /-- `m_ret` of the promise of the root task. -/
  | promise (i : ℕ)
deriving DecidableEq, Repr

/-- The next step of a call of `schedule`. -/
inductive CallPc
  | uncalled
  /-- `combinate(share_state, fun)`. -/
  | combine
  /-- `std::move(combinator)(args...)` builds the coroutine. -/
  | create
  /-- `thread_stack->release()`, then `node.construct(...)`. -/
  | release
  /-- `sch.schedule(node)`. -/
  | publish
  /-- `return future{std::move(share_state)}`. -/
  | handOver
  | finished
deriving DecidableEq, Repr

/-- The next step of a root task. -/
inductive TaskPc
  /-- There is no frame. -/
  | absent
  /-- The frame belongs to the call of `schedule`. -/
  | suspended
  /-- The scheduler has the submission node. -/
  | submitted
  /-- The body runs, and then stores what it ended with. -/
  | running
  /-- `semaphore()->release()` increments the counter. -/
  | returned
  /-- `semaphore()->release()` wakes a thread that waits. -/
  | released
  /-- `child.destroy()`. -/
  | notified
  | gone
deriving DecidableEq, Repr

/-- The task has incremented the semaphore. -/
def TaskPc.over : TaskPc → Bool
  | .released => true
  | .notified => true
  | .gone => true
  | _ => false

/-- The operations on a future that may block. -/
inductive Op
  | wait
  | get
  /-- `~future()`. -/
  | destroy
deriving DecidableEq, Repr

/-- The next step of an operation on a future. -/
inductive FuturePc
  /-- Not constructed, or destroyed. -/
  | dead
  | idle
  /-- `m_heap->sem.acquire()`. -/
  | acquiring (op : Op)
  /-- What follows the `acquire`. -/
  | acquired (op : Op)
deriving DecidableEq, Repr

/-- The shared pointers, the shared states, where everybody stands, and the ghosts. -/
structure State (R E : Type) where
  mem : Shared Holder ℕ
  cell : ℕ → SharedState R E
  call : ℕ → CallPc
  task : ℕ → TaskPc
  pc : ℕ → FuturePc
  /-- Ghost: what the tasks ended with. -/
  ended : ℕ → Option (Ended R E)
  /-- Ghost: what `wait` threw and what `get` threw or returned, with the state it was about. -/
  log : List (Option ℕ × Answer R E)

/-- Nothing has been scheduled. -/
def State.init {R E : Type} : State R E where
  mem := .empty
  cell := fun _ => .new true
  call := fun _ => .uncalled
  task := fun _ => .absent
  pc := fun _ => .dead
  ended := fun _ => none
  log := []

/-- Who takes the next step. The states are numbered as `make_shared` makes them. -/
inductive Act (R E : Type)
  /-- `schedule` is called, for a task with or without a value, and makes the state `i`. -/
  | schedule (i : ℕ) (isVoid : Bool)
  /-- The call of `schedule` goes on, or throws. -/
  | call (i : ℕ) (throws : Bool)
  /-- The call of `schedule` returns the future `k`. -/
  | handOver (i k : ℕ)
  /-- The scheduler reads or writes the links of the submission node. -/
  | touch (i : ℕ)
  /-- A worker reads the submission node and resumes the root task. -/
  | resume (i : ℕ)
  /-- The body of the root task ends. -/
  | finish (i : ℕ) (e : Ended R E)
  /-- The root task goes on at its final suspend. -/
  | final (i : ℕ)
  /-- An operation on the future `k` is called. -/
  | start (k : ℕ) (op : Op)
  /-- The operation goes on. -/
  | goOn (k : ℕ)
  | detach (k : ℕ)
  /-- `future k'{std::move(k)}`. -/
  | moveConstruct (k k' : ℕ)
  /-- `k' = std::move(k)`. -/
  | moveAssign (k k' : ℕ)
deriving DecidableEq, Repr

/-! ## The steps -/

section steps

variable {R E : Type}

/-- Source: `sync_wait.hpp`, `schedule`, `make_shared` -/
def schedule (s : State R E) (i : ℕ) (isVoid : Bool) : Option (State R E) :=
  if s.call i = .uncalled then some { s with
    mem := s.mem.make (.shareState i) i
    cell := Function.update s.cell i (.new isVoid)
    call := Function.update s.call i .combine }
  else none

/-- An exception leaves `schedule`: `await`, `combinator` and `share_state` are destroyed. -/
def unwind (s : State R E) (i : ℕ) : State R E := { s with
  mem := ((s.mem.reset (.promise i)).reset (.combinator i)).reset (.shareState i)
  call := Function.update s.call i .finished
  task := Function.update s.task i .absent }

/-- Source: `sync_wait.hpp`, `schedule`; `combinate.hpp`, `combinate`, `y_combinate` -/
def callStep (s : State R E) (i : ℕ) (throws : Bool) : Option (State R E) :=
  match s.call i, throws with
  | .combine, false => some { s with
      mem := s.mem.copy (.shareState i) (.combinator i)
      call := Function.update s.call i .create }
  | .create, false => some { s with
      mem := s.mem.move (.combinator i) (.promise i)
      call := Function.update s.call i .release
      task := Function.update s.task i .suspended }
  | .release, false => some { s with call := Function.update s.call i .publish }
  | .publish, false => some { s with
      call := Function.update s.call i .handOver
      task := Function.update s.task i .submitted }
  | .combine, true => some (unwind s i)
  | .create, true => some (unwind s i)
  | .release, true => some (unwind s i)
  | .publish, true => some (unwind s i)
  | _, _ => none

/-- Source: `sync_wait.hpp`, `schedule`, its last line; `future(future_shared_state_ptr &&)` -/
def handOver (s : State R E) (i k : ℕ) : Option (State R E) :=
  if s.call i = .handOver ∧ s.pc k = .dead then some { s with
    mem := s.mem.move (.shareState i) (.future k)
    call := Function.update s.call i .finished
    pc := Function.update s.pc k .idle }
  else none

/-- The body ends and stores how. Source: `return.hpp`; `promise.hpp`, `unhandled_exception` -/
def finish (s : State R E) (i : ℕ) (e : Ended R E) : Option (State R E) :=
  if s.task i = .running ∧ e.fits (s.cell i).isVoid = true then some { s with
    cell := Function.update s.cell i { s.cell i with result := e.store (s.cell i).result }
    task := Function.update s.task i .returned
    ended := Function.update s.ended i (some e) }
  else none

/-- Source: `promise.hpp`, `final_awaitable`, the branch of a root task -/
def final (s : State R E) (i : ℕ) : Option (State R E) :=
  match s.task i with
  | .returned => some { s with
      cell := Function.update s.cell i { s.cell i with sem := (s.cell i).sem + 1 }
      task := Function.update s.task i .released }
  | .released => some { s with task := Function.update s.task i .notified }
  | .notified => some { s with
      mem := s.mem.reset (.promise i)
      task := Function.update s.task i .gone }
  | _ => none

/-- What is left of an operation when `wait` has nothing to wait for. Source: `sync_wait.hpp`,
`wait`, `get`, `~future` -/
def conclude (s : State R E) (k i : ℕ) : Op → State R E
  | .wait => { s with pc := Function.update s.pc k .idle }
  | .get =>
      if (s.cell i).status = .retrievd then { s with
        pc := Function.update s.pc k .idle
        log := s.log ++ [(some i, .emptyFuture)] }
      else
        { s with
          cell := Function.update s.cell i { s.cell i with
            status := .retrievd
            result := ((s.cell i).result.take (s.cell i).isVoid).2 }
          pc := Function.update s.pc k .idle
          log := s.log ++ [(some i, ((s.cell i).result.take (s.cell i).isVoid).1)] }
  | .destroy => { s with
      mem := s.mem.reset (.future k)
      pc := Function.update s.pc k .dead }

/-- An operation on a future without a shared state. -/
def startNull (s : State R E) (k : ℕ) : Op → State R E
  | .wait => { s with log := s.log ++ [(none, .brokenFuture)] }
  | .get => { s with log := s.log ++ [(none, .brokenFuture)] }
  | .destroy => { s with pc := Function.update s.pc k .dead }

/-- An operation is called. Source: `sync_wait.hpp`, `wait`, `get`, `~future` -/
def start (s : State R E) (k : ℕ) (op : Op) : Option (State R E) :=
  if s.pc k = .idle then
    match s.mem.ptr (.future k) with
    | none => some (startNull s k op)
    | some i =>
        if (s.cell i).status = .noWait then some { s with
          pc := Function.update s.pc k (.acquiring op) }
        else some (conclude s k i op)
  else none

/-- `m_heap->status = ready`, where an operation does so after it has waited. -/
def markReady (s : State R E) (i : ℕ) : Op → State R E
  | .destroy => s
  | _ => { s with cell := Function.update s.cell i { s.cell i with status := .ready } }

/-- An operation goes on. Source: `sync_wait.hpp`, `wait`, `get`, `~future` -/
def goOn (s : State R E) (k : ℕ) : Option (State R E) :=
  match s.pc k, s.mem.ptr (.future k) with
  | .acquiring op, some i =>
      if (s.cell i).sem = 0 then none
      else some { s with
        cell := Function.update s.cell i { s.cell i with sem := (s.cell i).sem - 1 }
        pc := Function.update s.pc k (.acquired op) }
  | .acquired op, some i => some (conclude (markReady s i op) k i op)
  | _, _ => none

/-- Source: `sync_wait.hpp`, `detach` -/
def detach (s : State R E) (k : ℕ) : Option (State R E) :=
  if s.pc k = .idle then some { s with mem := s.mem.reset (.future k) } else none

/-- Source: `sync_wait.hpp`, `future(future &&)` -/
def moveConstruct (s : State R E) (k k' : ℕ) : Option (State R E) :=
  if s.pc k = .idle ∧ s.pc k' = .dead then some { s with
    mem := s.mem.move (.future k) (.future k')
    pc := Function.update s.pc k' .idle }
  else none

/-- Source: `sync_wait.hpp`, `operator=(future &&)` -/
def moveAssign (s : State R E) (k k' : ℕ) : Option (State R E) :=
  if s.pc k = .idle ∧ s.pc k' = .idle then some { s with
    mem := s.mem.assign (.future k) (.future k') }
  else none

/-- The root task goes from `p` to `q` and writes nothing. -/
def moveTask (s : State R E) (i : ℕ) (p q : TaskPc) : Option (State R E) :=
  if s.task i = p then some { s with task := Function.update s.task i q } else none

/-- The machine of the futures. -/
def machine (R E : Type) : Machine (State R E) (Act R E) where
  step s
    | .schedule i isVoid => schedule s i isVoid
    | .call i throws => callStep s i throws
    | .handOver i k => handOver s i k
    | .touch i => moveTask s i .submitted .submitted
    | .resume i => moveTask s i .submitted .running
    | .finish i e => finish s i e
    | .final i => final s i
    | .start k op => start s k op
    | .goOn k => goOn s k
    | .detach k => detach s k
    | .moveConstruct k k' => moveConstruct s k k'
    | .moveAssign k k' => moveAssign s k k'

/-- The shared state that a step reads or writes, its count included. -/
def State.accesses (s : State R E) : Act R E → Option ℕ
  | .schedule .. => none
  | .call i _ => some i
  | .handOver .. => none
  | .touch i => some i
  | .resume i => some i
  | .finish i _ => some i
  | .final i => some i
  | .start k _ => s.mem.ptr (.future k)
  | .goOn k => s.mem.ptr (.future k)
  | .detach k => s.mem.ptr (.future k)
  | .moveConstruct .. => none
  | .moveAssign _ k' => s.mem.ptr (.future k')

end steps

end Libfork.Future
