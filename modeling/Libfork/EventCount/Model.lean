import Libfork.EventCount.Word
import Libfork.Found.Log
import Libfork.Found.Machine
import Mathlib.Logic.Function.Basic

/-!
# `event_count` as a machine of atomic steps

Any number of threads call `prepare_wait` followed by `cancel_wait` or `wait`, `notify_one`,
`notify_all` and `await`. Every access to `m_val` is one step of the machine, and the steps of the
threads interleave in any order.

* `wait` on the epoch is that of C++20: it compares, and returns if the epoch is not the key;
  otherwise it blocks, at once. A blocked thread that is unblocked compares again. `notify_all`
  unblocks every thread that blocked before the `fetch_add` of the notifier, `notify_one` at least
  one of them if there are any, and threads may be unblocked spuriously.
* `Pc` — where a thread stands. The condition of an `await` is up to the environment, and so is
  how often it is called with which result.
* `Bounds` — the guard: there are fewer than `2 ^ 32` waiters, and fewer than `2 ^ 32`
  notifications between a `prepare_wait` and each comparison of its `wait`.
* `State.log`, and what a thread remembers besides its key, are ghosts.

Source: `event_count.hpp`, class `event_count`.
-/

namespace Libfork.EventCount

open Libfork.Found

/-! ## The state -/

/-- What a call of the condition does. -/
inductive Result
  | yes
  | no
  | throws
deriving DecidableEq, Repr

/-- The next access of a thread. `since` is the number of notifications before its last
`prepare_wait`. -/
inductive Pc
  | idle
  /-- After `prepare_wait`, with the key. In an `await`, the condition is called next. -/
  | prepared (await : Bool) (key : BitVec 32) (since : ℕ)
  /-- `wait`: the epoch is compared with the key. -/
  | check (await : Bool) (key : BitVec 32) (since : ℕ)
  /-- `wait`: blocked, when there had been `seen` notifications. -/
  | blocked (await : Bool) (key : BitVec 32) (since seen : ℕ)
  /-- `wait`: `m_val.fetch_add(k_sub_waiter)`. -/
  | leave (await : Bool)
  /-- `notify_one`, `notify_all`: the epoch is notified, after `k` other notifications. -/
  | wake (all : Bool) (k : ℕ)
  /-- `await`: the condition is called, before the loop. -/
  | awaitCond
  /-- `await`: `prepare_wait`. -/
  | awaitPrepare
  /-- `await`: `cancel_wait`, after the condition returned `true` or `threw`. -/
  | awaitCancel (threw : Bool)
deriving DecidableEq, Repr

/-- What has happened. -/
inductive Event
  /-- `prepare_wait` counts `t`. -/
  | prepared (t : ℕ)
  /-- `cancel_wait` or `wait` stops counting `t`. -/
  | left (t : ℕ)
  /-- `notify_one` or `notify_all` increments the epoch. -/
  | notified (t : ℕ)
  /-- The call of `notify_all` that incremented the epoch after `k` others is finished. -/
  | finished (t k : ℕ)
  /-- The condition of an `await`. -/
  | cond (t : ℕ) (r : Result)
  /-- `await` returns. -/
  | returned (t : ℕ)
  /-- `await` rethrows. -/
  | threw (t : ℕ)
deriving DecidableEq, Repr

/-- The event count and its threads. -/
structure State where
  mVal : BitVec 64
  pc : ℕ → Pc
  /-- The threads that are blocked on the epoch. -/
  queue : List ℕ
  /-- Ghost: what has happened so far. -/
  log : List Event

/-- A new event count that no thread is using. Source: `event_count.hpp`, `m_val` -/
def State.new : State where
  mVal := 0
  pc := fun _ => .idle
  queue := []
  log := []

/-- An increment of the epoch. -/
def Event.isNotified : Event → Bool
  | .notified _ => true
  | _ => false

/-- The number of notifications. -/
def notified (log : List Event) : ℕ := log.countP Event.isNotified

/-- A thread that starts being counted. -/
def Event.isPrepared : Event → Bool
  | .prepared _ => true
  | _ => false

/-- A thread that stops being counted. -/
def Event.isLeft : Event → Bool
  | .left _ => true
  | _ => false

/-- The number of threads that have prepared and not yet left. -/
def waiters (log : List Event) : ℕ := log.countP Event.isPrepared - log.countP Event.isLeft

/-- Who takes the next step, and what it starts. -/
inductive Act
  /-- `t` calls `prepare_wait`. -/
  | prepare (t : ℕ)
  /-- `t` calls `cancel_wait`. -/
  | cancel (t : ℕ)
  /-- `t` calls `wait` with its key. -/
  | wait (t : ℕ)
  /-- `t` calls `notify_all`, or `notify_one`. -/
  | notify (t : ℕ) (all : Bool)
  /-- `t` calls `await`. -/
  | await (t : ℕ)
  /-- The condition of the `await` of `t` is called. -/
  | cond (t : ℕ) (r : Result)
  /-- The call of `t` goes on. -/
  | step (t : ℕ)
  /-- The `notify_one` of `t` unblocks `u`, or finds nobody to unblock. -/
  | wakeOne (t : ℕ) (u : Option ℕ)
  /-- `t` is unblocked for no reason. -/
  | spurious (t : ℕ)
deriving DecidableEq, Repr

/-! ## The steps -/

namespace State

variable (s : State)

/-- `m_val.fetch_add(n)`; the previous value is `s.mVal`. -/
def fetchAdd (n : BitVec 64) : State := { s with mVal := s.mVal + n }

/-- The thread `t` goes on. -/
def goto (t : ℕ) (pc : Pc) : State := { s with pc := Function.update s.pc t pc }

/-- Events are logged. -/
def logged (es : List Event) : State := { s with log := s.log ++ es }

variable (t : ℕ) (pc : Pc) (es : List Event) (n : BitVec 64)

/-- `fetch_add` adds to the word. -/
@[simp] theorem fetchAdd_mVal : (s.fetchAdd n).mVal = s.mVal + n := rfl

/-- It moves no thread. -/
@[simp] theorem fetchAdd_pc : (s.fetchAdd n).pc = s.pc := rfl

/-- It is not on the log. -/
@[simp] theorem fetchAdd_log : (s.fetchAdd n).log = s.log := rfl

/-- A thread that goes on leaves the word alone. -/
@[simp] theorem goto_mVal : (s.goto t pc).mVal = s.mVal := rfl

/-- The thread goes on. -/
@[simp] theorem goto_pc : (s.goto t pc).pc = Function.update s.pc t pc := rfl

/-- The log stays as it is. -/
@[simp] theorem goto_log : (s.goto t pc).log = s.log := rfl

/-- The log does not change the word. -/
@[simp] theorem logged_mVal : (s.logged es).mVal = s.mVal := rfl

/-- Nor does it move a thread. -/
@[simp] theorem logged_pc : (s.logged es).pc = s.pc := rfl

/-- What is logged comes last. -/
@[simp] theorem logged_log : (s.logged es).log = s.log ++ es := rfl

/-- Nothing is logged. -/
@[simp] theorem logged_nil : s.logged [] = s := by
  rw [logged, List.append_nil]

end State

/-- `m_val.fetch_add(k_add_waiter)`. Source: `event_count.hpp`, `prepare_wait` -/
def prepareWait (s : State) (t : ℕ) (await : Bool) : State :=
  let key := epoch s.mVal
  ((s.fetchAdd kAddWaiter).goto t
    (.prepared await key (notified s.log))).logged [.prepared t]

/-- `m_val.fetch_add(k_sub_waiter)`. Source: `event_count.hpp`, `cancel_wait`, `wait` -/
def subWaiter (s : State) (t : ℕ) (pc : Pc) (es : List Event) : State :=
  ((s.fetchAdd kSubWaiter).goto t pc).logged (.left t :: es)

section fields

variable (s : State) (t : ℕ) (await : Bool) (pc : Pc) (es : List Event)

/-- `prepare_wait` adds a waiter. -/
@[simp] theorem prepareWait_mVal : (prepareWait s t await).mVal = s.mVal + kAddWaiter := by
  rw [prepareWait, State.logged_mVal, State.goto_mVal, State.fetchAdd_mVal]

/-- The thread keeps the epoch for its key. -/
@[simp] theorem prepareWait_pc : (prepareWait s t await).pc =
    Function.update s.pc t (.prepared await (epoch s.mVal) (notified s.log)) := by
  rw [prepareWait, State.logged_pc, State.goto_pc, State.fetchAdd_pc]

/-- It is on the log. -/
@[simp] theorem prepareWait_log : (prepareWait s t await).log = s.log ++ [.prepared t] := by
  rw [prepareWait, State.logged_log, State.goto_log, State.fetchAdd_log]

/-- Leaving takes the waiter off. -/
@[simp] theorem subWaiter_mVal : (subWaiter s t pc es).mVal = s.mVal + kSubWaiter := by
  rw [subWaiter, State.logged_mVal, State.goto_mVal, State.fetchAdd_mVal]

/-- The thread goes on. -/
@[simp] theorem subWaiter_pc : (subWaiter s t pc es).pc = Function.update s.pc t pc := by
  rw [subWaiter, State.logged_pc, State.goto_pc, State.fetchAdd_pc]

/-- Leaving is on the log. -/
@[simp] theorem subWaiter_log : (subWaiter s t pc es).log = s.log ++ .left t :: es := by
  rw [subWaiter, State.logged_log, State.goto_log, State.fetchAdd_log]

end fields

/-- `m_val.fetch_add(k_add_epoch)`; the notification is skipped if there is no waiter.
Source: `event_count.hpp`, `notify_one`, `notify_all` -/
def notifyAdd (s : State) (t : ℕ) (all : Bool) : State :=
  let k := notified s.log
  let s' := (s.fetchAdd kAddEpoch).logged [.notified t]
  if hasWaiters s.mVal then s'.goto t (.wake all k)
  else if all then s'.logged [.finished t k]
  else s'

/-- The thread is blocked since before the notification that `k` others came before. -/
def Pc.eligible (k : ℕ) : Pc → Bool
  | .blocked _ _ _ seen => seen ≤ k
  | _ => false

/-- A blocked thread compares again. -/
def Pc.unblocked : Pc → Pc
  | .blocked await key since _ => .check await key since
  | pc => pc

/-- `epoch()->notify_all()`. -/
def wakeAll (s : State) (k : ℕ) : State :=
  { s with
    pc := fun u => if (s.pc u).eligible k then (s.pc u).unblocked else s.pc u
    queue := s.queue.filter fun u => !(s.pc u).eligible k }

/-- One blocked thread is unblocked. -/
def unblock (s : State) (u : ℕ) : State :=
  { s.goto u (s.pc u).unblocked with queue := s.queue.filter (· ≠ u) }

/-- `epoch()->notify_one()`, which has to unblock somebody if it can. -/
def wakeOne (s : State) (k : ℕ) : Option ℕ → Option State
  | some u => if (s.pc u).eligible k then some (unblock s u) else none
  | none => if s.queue.any fun u => (s.pc u).eligible k then none else some s

/-- The condition of an `await` is called. Source: `event_count.hpp`, `await` -/
def condStep (s : State) (t : ℕ) (r : Result) : Option State :=
  match s.pc t with
  | .awaitCond => match r with
      | .yes => some ((s.goto t .idle).logged [.cond t r, .returned t])
      | .no => some ((s.goto t .awaitPrepare).logged [.cond t r])
      | .throws => some ((s.goto t .idle).logged [.cond t r, .threw t])
  | .prepared true key since => match r with
      | .yes => some ((s.goto t (.awaitCancel false)).logged [.cond t r])
      | .no => some ((s.goto t (.check true key since)).logged [.cond t r])
      | .throws => some ((s.goto t (.awaitCancel true)).logged [.cond t r])
  | _ => none

/-- The call of `t` goes on. Source: `event_count.hpp`, `wait`, `notify_all`, `await` -/
def threadStep (s : State) (t : ℕ) : Option State :=
  match s.pc t with
  | .check await key since =>
      if epoch s.mVal = key then
        some { s.goto t (.blocked await key since (notified s.log)) with queue := s.queue ++ [t] }
      else some (s.goto t (.leave await))
  | .leave await => some (subWaiter s t (if await then .awaitPrepare else .idle) [])
  | .wake true k => some (((wakeAll s k).goto t .idle).logged [.finished t k])
  | .awaitPrepare => some (prepareWait s t true)
  | .awaitCancel threw =>
      some (subWaiter s t .idle [if threw then .threw t else .returned t])
  | _ => none

/-- `t` calls `cancel_wait`. -/
def cancelCall (s : State) (t : ℕ) : Option State :=
  match s.pc t with
  | .prepared false _ _ => some (subWaiter s t .idle [])
  | _ => none

/-- `t` calls `wait` with its key. -/
def waitCall (s : State) (t : ℕ) : Option State :=
  match s.pc t with
  | .prepared false key since => some (s.goto t (.check false key since))
  | _ => none

/-- The `notify_one` of `t` unblocks `u`. -/
def wakeOneStep (s : State) (t : ℕ) (u : Option ℕ) : Option State :=
  match s.pc t with
  | .wake false k => (wakeOne s k u).map fun s' => s'.goto t .idle
  | _ => none

/-- `t` is unblocked for no reason. -/
def spuriousStep (s : State) (t : ℕ) : Option State :=
  match s.pc t with
  | .blocked _ _ _ _ => some (unblock s t)
  | _ => none

/-- What `t` does when it is not in a call. -/
def idleCall (s : State) (t : ℕ) (s' : State) : Option State :=
  match s.pc t with
  | .idle => some s'
  | _ => none

/-- The machine of one event count. -/
def machine : Machine State Act where
  step s
    | .prepare t => idleCall s t (prepareWait s t false)
    | .cancel t => cancelCall s t
    | .wait t => waitCall s t
    | .notify t all => idleCall s t (notifyAdd s t all)
    | .await t => idleCall s t (s.goto t .awaitCond)
    | .cond t r => condStep s t r
    | .step t => threadStep s t
    | .wakeOne t u => wakeOneStep s t u
    | .spurious t => spuriousStep s t

/-! ## The guard -/

/-- With `w` waiters and after `n` notifications, the access at `pc` keeps the bounds. -/
def Pc.InBounds (w n : ℕ) : Pc → Prop
  | .awaitPrepare => w + 1 < 2 ^ 32
  | .check _ _ since => n - since < 2 ^ 32
  | _ => True

instance (w n : ℕ) : ∀ pc : Pc, Decidable (pc.InBounds w n)
  | .awaitPrepare => inferInstanceAs (Decidable (_ < _))
  | .check _ _ _ => inferInstanceAs (Decidable (_ < _))
  | .idle => inferInstanceAs (Decidable True)
  | .prepared _ _ _ => inferInstanceAs (Decidable True)
  | .blocked _ _ _ _ => inferInstanceAs (Decidable True)
  | .leave _ => inferInstanceAs (Decidable True)
  | .wake _ _ => inferInstanceAs (Decidable True)
  | .awaitCond => inferInstanceAs (Decidable True)
  | .awaitCancel _ => inferInstanceAs (Decidable True)

/-- A thread may prepare only if there is room for one more waiter, and it compares only while
fewer than `2 ^ 32` notifications have followed its `prepare_wait`. -/
def Bounds (s : State) : Act → Prop
  | .prepare _ => waiters s.log + 1 < 2 ^ 32
  | .step t => (s.pc t).InBounds (waiters s.log) (notified s.log)
  | _ => True

instance (s : State) (a : Act) : Decidable (Bounds s a) := by
  cases a with
  | prepare t => exact inferInstanceAs (Decidable (_ < _))
  | step t => exact inferInstanceAs (Decidable ((s.pc t).InBounds _ _))
  | _ => exact inferInstanceAs (Decidable True)

end Libfork.EventCount
