import Libfork.Found.Log
import Libfork.Found.Machine
import Mathlib.Algebra.Ring.Int.Defs
import Mathlib.Algebra.Ring.Nat
import Mathlib.Logic.Function.Basic

/-!
# The join protocol of one frame

A frame runs any sequence of fork-join scopes. In a scope its code forks and calls children,
stashes exceptions, and joins; thieves take its continuation; children capture exceptions in the
frame and decrement its join counter. Every access to `m_join`, to the exception flag and to the
exception pointer is one step of the machine, as is every move of the continuation between a
deque and a worker, and the steps of the frame's own code and of its children interleave in any
order.

* `Frame ε` — the control block; `ε` are the exceptions.
* `ParentPc`, `ChildPc` — where the frame's code and each child stand. What a child does besides
  is not modelled: it may capture in the parent any number of times, by calling
  `stash_exception` or by exiting with an exception, before it finishes.
* `State.now`, `State.past` — ghosts: the events of the current scope, and those of each
  scope whose join has been left.

Source: `frame.hpp`; `awaitables.hpp`, `join_awaitable`; `promise.hpp`, `final_await_suspend`,
`unhandled_exception`; `resume.hpp`, `resume(task_handle)`.
-/

namespace Libfork.Join

open Libfork.Found

/-! ## The control block -/

/-- Source: `utility.hpp`, `k_u16_max` -/
def kU16Max : BitVec 16 := 65535

/-- `manual_lifetime<std::exception_ptr>`. Source: `frame.hpp`, `m_eptr` -/
inductive Eptr (ε : Type)
  /-- Not constructed. -/
  | raw
  /-- Constructed, and null. -/
  | null
  /-- Constructed, and holds `e`. -/
  | holds (e : ε)
deriving DecidableEq, Repr

/-- The counters and the exception of a frame. Source: `frame.hpp`, class `frame` -/
structure Frame (ε : Type) where
  mEptr : Eptr ε
  mJoin : BitVec 16
  mSteal : BitVec 16
  mExcept : Bool
deriving DecidableEq, Repr

namespace Frame

variable {ε : Type} (f : Frame ε)

/-- A new frame. Source: `frame.hpp`, the member initialisers -/
def new : Frame ε where
  mEptr := .raw
  mJoin := kU16Max
  mSteal := 0
  mExcept := false

/-- Source: `frame.hpp`, `load_joins` -/
def loadJoins : BitVec 16 := f.mJoin

/-- The previous value is `loadJoins`. Source: `frame.hpp`, `fetch_sub_joins` -/
def fetchSubJoins (val : BitVec 16) : Frame ε := { f with mJoin := f.mJoin - val }

/-- Source: `frame.hpp`, `load_steals` -/
def loadSteals : BitVec 16 := f.mSteal

/-- Source: `frame.hpp`, `fetch_add_steal` -/
def fetchAddSteal : Frame ε := { f with mSteal := f.mSteal + 1 }

/-- Source: `frame.hpp`, `reset` -/
def reset : Frame ε := { f with mSteal := 0, mJoin := kU16Max }

end Frame

/-! ## The threads -/

/-- The next access of the frame's own code, or where its continuation is. -/
inductive ParentPc (ε : Type)
  /-- The code runs. -/
  | running
  /-- `stash_exception`: `m_except.exchange(true)`. -/
  | exchange (e : ε)
  /-- `stash_exception`: `m_eptr.construct(e)`. -/
  | construct (e : ε)
  /-- The child `c` was called and runs; the continuation is nowhere else. -/
  | called (c : ℕ)
  /-- The child `c` was forked and runs; the continuation is in its worker's deque. -/
  | forked (c : ℕ)
  /-- A thief has taken the continuation; `resume(task_handle)`: `fetch_add_steal()`. -/
  | stolen
  /-- `await_ready`: `load_joins()`. -/
  | joinLoad
  /-- `await_suspend`: `fetch_sub_joins(k_u16_max - steals)`. -/
  | joinSub
  /-- Suspended at the join, having lost the race. -/
  | suspended
  /-- `await_resume`: `if (m_except)`. -/
  | resumed
  /-- `rethrow`: `std::exchange(*m_eptr, nullptr)`. -/
  | rethrow
  /-- `rethrow`: `m_eptr.destroy(); m_except = false;`. -/
  | clear
deriving DecidableEq, Repr

/-- The child that runs in place of the frame's code. -/
def ParentPc.runs {ε : Type} : ParentPc ε → Option ℕ
  | .called c => some c
  | .forked c => some c
  | _ => none

/-- The next access of a child. -/
inductive ChildPc (ε : Type)
  /-- Not yet forked or called. -/
  | absent
  /-- The child's code runs. -/
  | working
  /-- `capture_exception` on the parent: `m_except.exchange(true)`. -/
  | exchange (e : ε)
  /-- `capture_exception` on the parent: `m_eptr.construct(e)`. -/
  | construct (e : ε)
  /-- `final_await_suspend`, the parent was stolen: `parent->fetch_sub_joins(1)`. -/
  | sub
  /-- `final_await_suspend`, the last to join: `parent->reset()`, then resume the parent. -/
  | won
  /-- Destroyed. -/
  | done
deriving DecidableEq, Repr

/-- Who resumes the frame after a join. -/
inductive Resumer
  /-- The worker that ran the frame up to the join. -/
  | worker
  /-- The worker that ran the child `c`. -/
  | child (c : ℕ)
deriving DecidableEq, Repr

/-- What happens in a scope. -/
inductive Event (ε : Type)
  /-- A thief takes the continuation from under the child `c`. -/
  | steal (c : ℕ)
  /-- The child `c` decrements the join counter, which was `old`. -/
  | decrement (c : ℕ) (old : BitVec 16)
  /-- `await_ready` finds no steals. -/
  | shortcut
  /-- `await_suspend` subtracts `k_u16_max - steals`. -/
  | subtract
  /-- The code after the join runs, on counters with these values. -/
  | resume (r : Resumer) (steals joins : BitVec 16)
  /-- `capture_exception` exchanges the flag, which was `prev`. -/
  | capture (e : ε) (prev : Bool)
  /-- The join throws. -/
  | throw (e : ε)
  /-- `rethrow` reads an exception pointer that holds no exception. -/
  | readInvalid
  /-- The join returns without throwing. -/
  | pass
deriving DecidableEq, Repr

/-- The frame, its code, its children, and the ghosts. -/
structure State (ε : Type) where
  frame : Frame ε
  parent : ParentPc ε
  child : ℕ → ChildPc ε
  /-- Ghost: the events of the current scope. -/
  now : List (Event ε)
  /-- Ghost: the events of the scopes whose join has been left. -/
  past : List (List (Event ε))

/-- A frame that is about to run its code. -/
def State.new {ε : Type} : State ε where
  frame := Frame.new
  parent := .running
  child := fun _ => .absent
  now := []
  past := []

/-- Who takes the next step, and what it starts. -/
inductive Act (ε : Type)
  /-- The code forks the child `c`. -/
  | fork (c : ℕ)
  /-- The code calls the child `c`. -/
  | call (c : ℕ)
  /-- The code calls `stash_exception` while handling `e`. -/
  | stash (e : ε)
  /-- The code awaits a join. -/
  | join
  /-- A thief takes the continuation from the deque. -/
  | steal
  /-- The frame's code goes on. -/
  | parent
  /-- The child `c` calls `capture_exception` on the frame while handling `e`. -/
  | capture (c : ℕ) (e : ε)
  /-- The child `c` reaches its final suspend point. -/
  | finish (c : ℕ)
  /-- The child `c` goes on. -/
  | child (c : ℕ)
deriving DecidableEq, Repr

/-! ## The steps -/

section steps

variable {ε : Type}

namespace State

variable (s : State ε)

/-- Log an event of the current scope. -/
def logged (e : Event ε) : State ε := { s with now := s.now ++ [e] }

/-- Move a child on. -/
def goto (c : ℕ) (pc : ChildPc ε) : State ε := { s with child := Function.update s.child c pc }

/-- The code after the join runs. -/
def resumeBy (r : Resumer) : State ε :=
  { s with parent := .resumed }.logged (.resume r s.frame.mSteal s.frame.mJoin)

/-- The join is left: the next scope begins. -/
def leave : State ε := { s with parent := .running, past := s.past ++ [s.now], now := [] }

end State

/-- `co_await join` up to its first access. Source: `awaitables.hpp`, `await_ready` -/
def joinCall (s : State ε) : State ε :=
  if s.frame.loadSteals = 0 then (s.logged .shortcut).resumeBy .worker
  else { s with parent := .joinLoad }

/-- `m_except.exchange(true)`. Source: `frame.hpp`, `capture_exception` -/
def exchangeFlag (s : State ε) (e : ε) : State ε :=
  { s with frame := { s.frame with mExcept := true } }.logged (.capture e s.frame.mExcept)

/-- `m_eptr.construct(std::current_exception())`. Source: `frame.hpp`, `capture_exception` -/
def constructEptr (s : State ε) (e : ε) : State ε :=
  { s with frame := { s.frame with mEptr := .holds e } }

/-- One access of the frame's code, `none` where it waits for somebody else. -/
def parentStep (s : State ε) : Option (State ε) :=
  let f := s.frame
  match s.parent with
  | .running => none
  | .called _ => none
  | .forked _ => none
  | .suspended => none
  | .exchange e =>
      some { exchangeFlag s e with parent := if f.mExcept then .running else .construct e }
  | .construct e => some { constructEptr s e with parent := .running }
  | .stolen => some { s with frame := f.fetchAddSteal, parent := .running }
  | .joinLoad =>
      let joined := kU16Max - f.loadJoins
      if f.loadSteals = joined then some ({ s with frame := f.reset }.resumeBy .worker)
      else some { s with parent := .joinSub }
  | .joinSub =>
      let steals := f.loadSteals
      let joined := f.loadJoins
      let f := f.fetchSubJoins (kU16Max - steals)
      let s := s.logged .subtract
      if steals = kU16Max - joined then some ({ s with frame := f.reset }.resumeBy .worker)
      else some { s with frame := f, parent := .suspended }
  | .resumed =>
      if f.mExcept then some { s with parent := .rethrow } else some (s.logged .pass).leave
  | .rethrow =>
      let s' := { s with frame := { f with mEptr := .null }, parent := .clear }
      match f.mEptr with
      | .holds e => some (s'.logged (.throw e))
      | .null => some (s'.logged .readInvalid)
      | .raw => some (s'.logged .readInvalid)
  | .clear => some { s with frame := { f with mEptr := .raw, mExcept := false } }.leave

/-- The child `c` reaches its final suspend point: it gives control back to the parent that
called it, or pops the continuation, or finds that it was stolen. Source: `promise.hpp`,
`final_awaitable::await_suspend`, `final_await_suspend` -/
def finish (s : State ε) (c : ℕ) : State ε :=
  if s.parent.runs = some c then { s.goto c .done with parent := .running }
  else s.goto c .sub

/-- One access of the child `c`. Resuming a coroutine that is not suspended is undefined, so there
the machine stops. -/
def childStep (s : State ε) (c : ℕ) : Option (State ε) :=
  let f := s.frame
  match s.child c with
  | .absent => none
  | .working => none
  | .done => none
  | .exchange e =>
      some ((exchangeFlag s e).goto c (if f.mExcept then .working else .construct e))
  | .construct e => some ((constructEptr s e).goto c .working)
  | .sub =>
      let old := f.loadJoins
      some (({ s with frame := f.fetchSubJoins 1 }.logged (.decrement c old)).goto c
        (if old = 1 then .won else .done))
  | .won =>
      match s.parent with
      | .suspended => some (({ s with frame := f.reset }.goto c .done).resumeBy (.child c))
      | _ => none

/-- The machine of one frame. -/
def machine (ε : Type) : Machine (State ε) (Act ε) where
  step s
    | .fork c => match s.parent, s.child c with
        | .running, .absent => some { s.goto c .working with parent := .forked c }
        | _, _ => none
    | .call c => match s.parent, s.child c with
        | .running, .absent => some { s.goto c .working with parent := .called c }
        | _, _ => none
    | .stash e => match s.parent with
        | .running => some { s with parent := .exchange e }
        | _ => none
    | .join => match s.parent with
        | .running => some (joinCall s)
        | _ => none
    | .steal => match s.parent with
        | .forked c => some { s.logged (.steal c) with parent := .stolen }
        | _ => none
    | .parent => parentStep s
    | .capture c e => match s.child c with
        | .working => some (s.goto c (.exchange e))
        | _ => none
    | .finish c => match s.child c with
        | .working => some (finish s c)
        | _ => none
    | .child c => childStep s c

end steps

end Libfork.Join
