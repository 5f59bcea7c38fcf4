import Libfork.EventCount.Word
import Libfork.Found.Machine
import Libfork.Found.Tally
import Mathlib.Logic.Function.Basic

/-!
# The workers of `lazy_pool` as a machine of atomic steps

The event loop `lazy_work` with `thief_work_sleep`, the event count of every NUMA domain, any
number of threads that call `schedule`, and the destructor. Every access to a counter, to an event
count, to a submission list or to `stop` is one step, and the steps interleave in any order.

* `Pc` — where a worker stands. What `try_steal` finds and when `resume` returns is up to the
  environment.
* Waiting on the epoch is that of C++20: the thread compares, and blocks at once if the epoch is
  the key; once unblocked it compares again. `notify_all` unblocks every thread that blocked before
  the `fetch_add` of the notifier, `notify_one` at least one of them if there are any, and threads
  may be unblocked spuriously.
* `Bounds` — the guard: fewer than `2 ^ 32` notifications between a `prepare_wait` and each
  comparison of its `wait`.
* `State.notified`, and what a thread remembers besides its key, are ghosts.

The pool is there already, all its workers are past `latch_start`. The counters `thief` and
`active` never exceed the number of worker threads, which is a `size_t`; they are natural numbers.

Source: `lazy_pool.hpp`; `event_count.hpp`; `context.hpp`, `schedule`, `try_pop_all`.
-/

namespace Libfork.Lazy

open Libfork.Found Libfork.EventCount

/-! ## The state -/

/-- The pool that was constructed. -/
structure Config where
  /-- Source: `lazy_pool.hpp`, `m_num_threads` -/
  numThreads : ℕ
  /-- The domain of each worker. Source: `numa.hpp`, `numa` -/
  node : ℕ → ℕ
  /-- Source: `lazy_pool.hpp`, `num_numa` -/
  numNuma : ℕ
  node_lt : ∀ w < numThreads, node w < numNuma

/-- The next access of a worker. `since` is the number of notifications of its domain before its
last `prepare_wait`. -/
inductive Pc
  /-- `thief.fetch_add(1)` -/
  | wakeUp
  /-- The first `try_pop_all()`. -/
  | tryPop
  | trySteal
  /-- `prepare_wait()` -/
  | prepare
  /-- The second `try_pop_all()`. -/
  | popAgain (key : BitVec 32) (since : ℕ)
  /-- `cancel_wait()` after the second `try_pop_all()` found something. -/
  | popCancel
  /-- `stop.test()` -/
  | testStop (key : BitVec 32) (since : ℕ)
  /-- The stop is honoured: `cancel_wait()`. -/
  | stopCancel
  /-- `notify_all()`: the `fetch_add`. -/
  | stopNotify
  /-- `notify_all()`: the epoch is notified, after `k` other notifications. -/
  | stopWake (k : ℕ)
  /-- `thief.fetch_sub(1)` before the return. -/
  | stopSub
  /-- `stop.test_and_set()` on the way out. -/
  | stopSet
  /-- The worker waits on `latch_stop`, or is over. -/
  | exited
  /-- `thief.fetch_sub(1)` before sleeping. -/
  | sleep (key : BitVec 32) (since : ℕ)
  /-- `active.load()` -/
  | loadActive (key : BitVec 32) (since : ℕ)
  /-- `cancel_wait()` of the last thief. -/
  | sleepCancel
  /-- `wait`: the epoch is compared with the key. -/
  | check (key : BitVec 32) (since : ℕ)
  /-- `wait`: blocked, when there had been `seen` notifications. -/
  | blocked (key : BitVec 32) (since seen : ℕ)
  /-- `wait`: `m_val.fetch_add(k_sub_waiter)`. -/
  | leave
  /-- `thief_work_sleep`: `thief.fetch_sub(1)`. -/
  | workSub
  /-- The last thief's `notify_one()`: the `fetch_add`. -/
  | lastNotify
  /-- The last thief's `notify_one()`: the epoch is notified. -/
  | lastWake (k : ℕ)
  /-- `active.fetch_add(1)` -/
  | activate
  /-- The first active: `domain.thief.load()` of domain `j`. -/
  | loop (j : ℕ)
  /-- The first active: `notify_one()` on domain `j`, the `fetch_add`. -/
  | loopNotify (j : ℕ)
  /-- The first active: `notify_one()` on domain `j`, the epoch is notified. -/
  | loopWake (j k : ℕ)
  /-- Inside `resume(handle)`. -/
  | resume
  /-- `active.fetch_sub(1)` -/
  | deactivate
deriving DecidableEq, Repr

/-- A thread that calls `schedule`. -/
inductive Caller
  | idle
  /-- It has pushed onto the list of `w`, and calls `notify_all`: the `fetch_add`. -/
  | notify (w : ℕ)
  /-- `notify_all`: the epoch is notified. -/
  | wake (w k : ℕ)
deriving DecidableEq, Repr

/-- How far the destructor has come. -/
inductive Destroyer
  /-- It was not called. -/
  | running
  /-- `notify_all()` on domain `j`: the `fetch_add`. -/
  | notify (j : ℕ)
  /-- `notify_all()` on domain `j`: the epoch is notified. -/
  | wake (j k : ℕ)
  /-- The threads are joined. -/
  | joining
deriving DecidableEq, Repr

structure State where
  /-- Source: `lazy_pool.hpp`, `fat_counters::thief` -/
  thief : ℕ → ℕ
  /-- Source: `lazy_pool.hpp`, `fat_counters::notifier`; `event_count.hpp`, `m_val` -/
  mVal : ℕ → BitVec 64
  /-- Source: `lazy_pool.hpp`, `lazy_vars::active` -/
  active : ℕ
  /-- Source: `busy_pool.hpp`, `busy_vars::stop` -/
  stop : Bool
  /-- Source: `context.hpp`, `m_submit` -/
  submit : ℕ → List ℕ
  worker : ℕ → Pc
  caller : ℕ → Caller
  destroyer : Destroyer
  /-- Ghost: the number of notifications of each domain. -/
  notified : ℕ → ℕ

/-- The pool is there, and idle. -/
def State.init : State where
  thief := fun _ => 0
  mVal := fun _ => 0
  active := 0
  stop := false
  submit := fun _ => []
  worker := fun _ => .wakeUp
  caller := fun _ => .idle
  destroyer := .running
  notified := fun _ => 0

inductive Act
  /-- `w` goes on. A `try_steal` finds nothing. -/
  | step (w : ℕ)
  /-- The `try_steal` of `w` finds a task. -/
  | steal (w : ℕ)
  /-- The `notify_one` of `w` unblocks `u`, or finds nobody to unblock. -/
  | wakeOne (w : ℕ) (u : Option ℕ)
  /-- `w` is unblocked for no reason. -/
  | spurious (w : ℕ)
  /-- Thread `c` schedules `h` on worker `w`: the push. -/
  | schedule (c w h : ℕ)
  /-- The `schedule` of `c` goes on. -/
  | call (c : ℕ)
  /-- The destructor is called: `stop.test_and_set()`. -/
  | destroy
  /-- The destructor goes on. -/
  | destroying
deriving DecidableEq, Repr

/-! ## The steps -/

namespace State

variable (s : State)

/-- The worker `w` goes on. -/
def goto (w : ℕ) (pc : Pc) : State := { s with worker := Function.update s.worker w pc }

/-- The counter `thief` of domain `i` becomes `n`. -/
def setThief (i n : ℕ) : State := { s with thief := Function.update s.thief i n }

/-- `m_val.fetch_add(n)` in domain `i`; the previous value is `s.mVal i`. -/
def fetchAdd (i : ℕ) (n : BitVec 64) : State :=
  { s with mVal := Function.update s.mVal i (s.mVal i + n) }

/-- `m_val.fetch_add(k_add_epoch)` in domain `i`. -/
def notify (i : ℕ) : State :=
  { s.fetchAdd i kAddEpoch with notified := Function.update s.notified i (s.notified i + 1) }

/-- `try_pop_all()` of `w` empties its list. -/
def popAll (w : ℕ) : State := { s with submit := Function.update s.submit w [] }

def setActive (n : ℕ) : State := { s with active := n }

def setStop : State := { s with stop := true }

def setCaller (c : ℕ) (p : Caller) : State := { s with caller := Function.update s.caller c p }

def setDestroyer (d : Destroyer) : State := { s with destroyer := d }

end State

/-- The worker is blocked since before the notification that `k` others came before. -/
def Pc.eligible (k : ℕ) : Pc → Bool
  | .blocked _ _ seen => seen ≤ k
  | _ => false

def Pc.isBlocked : Pc → Bool
  | .blocked _ _ _ => true
  | _ => false

/-- A blocked worker compares again. -/
def Pc.unblocked : Pc → Pc
  | .blocked key since _ => .check key since
  | pc => pc

section steps

variable (K : Config)

/-- `epoch()->notify_all()` in domain `i`. -/
def wakeAll (s : State) (i k : ℕ) : State :=
  { s with
    worker := fun u =>
      if K.node u = i ∧ (s.worker u).eligible k = true then (s.worker u).unblocked
      else s.worker u }

/-- One blocked worker is unblocked. -/
def unblock (s : State) (u : ℕ) : State := s.goto u (s.worker u).unblocked

/-- `epoch()->notify_one()` in domain `i`, which has to unblock somebody if it can. -/
def wakeOne (s : State) (i k : ℕ) : Option ℕ → Option State
  | some u =>
      if u < K.numThreads ∧ K.node u = i ∧ (s.worker u).eligible k = true then some (unblock s u)
      else none
  | none =>
      if ∃ u < K.numThreads, K.node u = i ∧ (s.worker u).eligible k = true then none else some s

/-- The first active goes on to the next domain, or into `resume`. -/
def afterDomain (j : ℕ) : Pc := if j + 1 < K.numNuma then .loop (j + 1) else .resume

/-- A worker goes on. Source: `lazy_pool.hpp`, `lazy_work`, `thief_work_sleep`;
`event_count.hpp`, `prepare_wait`, `cancel_wait`, `wait`, `notify_all`, `notify_one` -/
def workerStep (s : State) (w : ℕ) : Option State :=
  let i := K.node w
  match s.worker w with
  | .wakeUp => some ((s.setThief i (s.thief i + 1)).goto w .tryPop)
  | .tryPop =>
      if s.submit w = [] then some (s.goto w .trySteal) else some ((s.popAll w).goto w .workSub)
  | .trySteal => some (s.goto w .prepare)
  | .prepare =>
      some ((s.fetchAdd i kAddWaiter).goto w (.popAgain (epoch (s.mVal i)) (s.notified i)))
  | .popAgain key since =>
      if s.submit w = [] then some (s.goto w (.testStop key since))
      else some ((s.popAll w).goto w .popCancel)
  | .popCancel => some ((s.fetchAdd i kSubWaiter).goto w .workSub)
  | .testStop key since => some (s.goto w (if s.stop then .stopCancel else .sleep key since))
  | .stopCancel => some ((s.fetchAdd i kSubWaiter).goto w .stopNotify)
  | .stopNotify =>
      some ((s.notify i).goto w
        (if hasWaiters (s.mVal i) then .stopWake (s.notified i) else .stopSub))
  | .stopWake k => some ((wakeAll K s i k).goto w .stopSub)
  | .stopSub => some ((s.setThief i (s.thief i - 1)).goto w .stopSet)
  | .stopSet => some (s.setStop.goto w .exited)
  | .sleep key since =>
      some ((s.setThief i (s.thief i - 1)).goto w
        (if s.thief i = 1 then .loadActive key since else .check key since))
  | .loadActive key since =>
      some (s.goto w (if s.active > 0 then .sleepCancel else .check key since))
  | .sleepCancel => some ((s.fetchAdd i kSubWaiter).goto w .wakeUp)
  | .check key since =>
      some (s.goto w (if epoch (s.mVal i) = key then .blocked key since (s.notified i) else .leave))
  | .leave => some ((s.fetchAdd i kSubWaiter).goto w .wakeUp)
  | .workSub =>
      some ((s.setThief i (s.thief i - 1)).goto w
        (if s.thief i = 1 then .lastNotify else .activate))
  | .lastNotify =>
      some ((s.notify i).goto w
        (if hasWaiters (s.mVal i) then .lastWake (s.notified i) else .activate))
  | .activate =>
      some ((s.setActive (s.active + 1)).goto w (if s.active = 0 then .loop 0 else .resume))
  | .loop j => some (s.goto w (if s.thief j = 0 then .loopNotify j else afterDomain K j))
  | .loopNotify j =>
      some ((s.notify j).goto w
        (if hasWaiters (s.mVal j) then .loopWake j (s.notified j) else afterDomain K j))
  | .resume => some (s.goto w .deactivate)
  | .deactivate => some ((s.setActive (s.active - 1)).goto w .wakeUp)
  | .blocked _ _ _ | .exited | .lastWake _ | .loopWake _ _ => none

/-- The `notify_one` of `w` unblocks `u`. -/
def wakeOneStep (s : State) (w : ℕ) (u : Option ℕ) : Option State :=
  match s.worker w with
  | .lastWake k => (wakeOne K s (K.node w) k u).map fun s' => s'.goto w .activate
  | .loopWake j k => (wakeOne K s j k u).map fun s' => s'.goto w (afterDomain K j)
  | _ => none

/-- A `schedule` goes on. Source: `context.hpp`, `schedule`; `lazy_pool.hpp`, `notify` -/
def callerStep (s : State) (c : ℕ) : Option State :=
  match s.caller c with
  | .idle => none
  | .notify w =>
      let i := K.node w
      some ((s.notify i).setCaller c
        (if hasWaiters (s.mVal i) then .wake w (s.notified i) else .idle))
  | .wake w k => some ((wakeAll K s (K.node w) k).setCaller c .idle)

/-- The destructor goes on to domain `j`, or to the threads. -/
def nextDomain (j : ℕ) : Destroyer := if j < K.numNuma then .notify j else .joining

/-- The destructor goes on. Source: `lazy_pool.hpp`, `~lazy_pool` -/
def destroyerStep (s : State) : Option State :=
  match s.destroyer with
  | .running | .joining => none
  | .notify j =>
      some ((s.notify j).setDestroyer
        (if hasWaiters (s.mVal j) then .wake j (s.notified j) else nextDomain K (j + 1)))
  | .wake j k => some ((wakeAll K s j k).setDestroyer (nextDomain K (j + 1)))

/-- The pool and whoever uses it. -/
def machine : Machine State Act where
  step s
    | .step w => if w < K.numThreads then workerStep K s w else none
    | .steal w =>
        if w < K.numThreads ∧ s.worker w = .trySteal then some (s.goto w .workSub) else none
    | .wakeOne w u => if w < K.numThreads then wakeOneStep K s w u else none
    | .spurious w =>
        if w < K.numThreads ∧ (s.worker w).isBlocked = true then
          some (unblock s w)
        else none
    | .schedule c w h =>
        if w < K.numThreads ∧ s.caller c = .idle then
          some ({ s with submit := Function.update s.submit w (h :: s.submit w) }.setCaller c
            (.notify w))
        else none
    | .call c => callerStep K s c
    | .destroy =>
        if s.destroyer = .running then some (s.setStop.setDestroyer (nextDomain K 0)) else none
    | .destroying => destroyerStep K s

/-! ## The guards -/

/-- After `n` notifications, fewer than `2 ^ 32` of them have followed the `prepare_wait` of a
worker that compares. -/
def Pc.InBounds (n : ℕ) : Pc → Prop
  | .check _ since => n - since < 2 ^ 32
  | _ => True

/-- A worker compares only while fewer than `2 ^ 32` notifications have followed its
`prepare_wait`. -/
def Bounds (s : State) : Act → Prop
  | .step w => (s.worker w).InBounds (s.notified (K.node w))
  | _ => True

/-- The guard, as a test. -/
def Pc.inBounds (n : ℕ) : Pc → Bool
  | .check _ since => n - since < 2 ^ 32
  | _ => true

/-- The test decides the guard. -/
theorem inBounds_iff {n : ℕ} {pc : Pc} : pc.inBounds n = true ↔ pc.InBounds n := by
  cases pc with
  | check => exact decide_eq_true_iff
  | _ => exact iff_of_true rfl trivial

instance : ∀ (s : State) (a : Act), Decidable (Bounds K s a)
  | s, .step w => decidable_of_iff ((s.worker w).inBounds (s.notified (K.node w)) = true)
      inBounds_iff
  | _, .steal _ => isTrue trivial
  | _, .wakeOne _ _ => isTrue trivial
  | _, .spurious _ => isTrue trivial
  | _, .schedule _ _ _ => isTrue trivial
  | _, .call _ => isTrue trivial
  | _, .destroy => isTrue trivial
  | _, .destroying => isTrue trivial

/-- No domain has `2 ^ 32` workers. -/
def Config.Small : Prop :=
  ∀ i, tally K.numThreads (fun _ j => decide (j = i)) K.node < 2 ^ 32

end steps

end Libfork.Lazy
