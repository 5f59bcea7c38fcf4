import Libfork.Found.Machine
import Libfork.Join.Model
import Mathlib.Data.Finset.Card

/-!
# Workers running a strict fork-join program

Any number of workers, each with a deque of stealable continuations and a list of submitted
handles, run the tasks of a program. A task forks and calls others, joins before it returns if it
forked, and hands itself over to the outside at any point, by awaiting a `context_switcher`; the
outside schedules the handles it holds onto whichever workers it likes. Which task does what and
when is left open, so that a result about the machine is about every strict program and every
interleaving.

* `Tree` — how each task is invoked, and by which. It is fixed in advance; what exists when, and
  where it runs, is the machine's business.
* `Task` — a frame, its control block and the awaitable it is suspended in.
* `Pc` — where a worker stands. Accesses to what another worker may touch are steps of their own.
* `Task.loc`, `Task.owed`, `Task.paid`, `Task.taken`, `Fork.taken` — ghosts: no step reads them
  but to say which handles the outside holds, and which tasks are new.

A deque is atomic here, and its newest element comes first.

Source: `promise.hpp`, `final_await_suspend`, `final_awaitable`; `awaitables.hpp`; `resume.hpp`;
`context.hpp`.
-/

namespace Libfork.Runtime

open Libfork.Found Libfork.Join

/-! ## Tasks -/

/-- Source: `tag.hpp`, `tag` -/
inductive Tag
  /-- From `sync_wait`, or scheduled from outside. -/
  | root
  /-- Invoked by `call`. -/
  | call
  /-- Invoked by `fork`. -/
  | fork
deriving DecidableEq, Repr

/-- The tasks of a program's run: how each is invoked, and by which. -/
structure Tree where
  tag : ℕ → Tag
  parent : ℕ → ℕ
  /-- A task is younger than the one that invokes it. -/
  parent_lt : ∀ c, tag c ≠ .root → parent c < c

/-- The control block of a frame. No task throws here. Source: `frame.hpp`, class `frame` -/
abbrev Frame := Join.Frame Empty

/-- What `await_resume` will need once a fork's continuation goes on. Source: `awaitables.hpp`,
`sync_fork_awaitable` -/
structure Fork where
  child : ℕ
  stealsPre : BitVec 16
  /-- Ghost: the continuation was stolen or effectively stolen from under the child. -/
  taken : Bool
deriving DecidableEq, Repr

/-- Where the one handle to a task is. -/
inductive Loc
  /-- The task has not been invoked. -/
  | unborn
  /-- The worker `w` runs it. -/
  | run (w : ℕ)
  /-- The worker `w` has stolen it. -/
  | stolen (w : ℕ)
  /-- It has returned, and `w` looks for its parent. -/
  | final (w : ℕ)
  /-- In the deque of `w`. -/
  | queued (w : ℕ)
  /-- Suspended in the call of `c`. -/
  | calling (c : ℕ)
  /-- Suspended at a join, having lost the race. -/
  | joining
  /-- Held by the outside. -/
  | outside
  /-- Scheduled on `w`, which has not resumed it. -/
  | submitted (w : ℕ)
  /-- Destroyed. -/
  | dead
deriving DecidableEq, Repr

/-- A frame. -/
structure Task where
  frame : Frame
  /-- The fork it is suspended in, until its `await_resume`. -/
  awaiting : Option Fork
  /-- It has forked since its last join. -/
  scope : Bool
  /-- Ghost. -/
  loc : Loc
  /-- Ghost: the forked children that have not finished. -/
  owed : Finset ℕ
  /-- Ghost: the forked children that have decremented the join counter since the last join. -/
  paid : Finset ℕ
  /-- Ghost: how often the continuation was stolen, or effectively stolen, since the last join. -/
  taken : ℕ
deriving DecidableEq

namespace Task

/-- A task that was not invoked yet. -/
def new : Task where
  frame := Frame.new
  awaiting := none
  scope := false
  loc := .unborn
  owed := ∅
  paid := ∅
  taken := 0

variable (t : Task)

/-- Source: `frame.hpp`, `fetch_add_steal` -/
def addSteal : Task := { t with frame := t.frame.fetchAddSteal }

/-- The join is left. -/
def leave : Task := { t with scope := false, owed := ∅, paid := ∅, taken := 0 }

/-- The join is left, by whoever won it. Source: `frame.hpp`, `reset` -/
def reset : Task := { t.leave with frame := t.frame.reset }

/-- Ghost: the continuation is taken from under the child forked last. -/
def take : Task :=
  match t.awaiting with
  | none => t
  | some k => if k.taken then t
      else { t with awaiting := some { k with taken := true }, taken := t.taken + 1 }

/-- The child `c` is forked. -/
def forks (c : ℕ) : Task :=
  { t with awaiting := some ⟨c, t.frame.loadSteals, false⟩, scope := true, owed := insert c t.owed }

/-- The child `c` finishes, popping the continuation. -/
def popped (c : ℕ) : Task := { t with owed := t.owed.erase c }

/-- The child `c` decrements the join counter. -/
def decremented (c : ℕ) : Task :=
  { t with frame := t.frame.fetchSubJoins 1, owed := t.owed.erase c, paid := insert c t.paid }

end Task

/-! ## Workers -/

/-- The next access of a worker. -/
inductive Pc
  /-- Outside any `resume`, or between two of a list's. -/
  | idle
  /-- `resume(task_handle)`: `fetch_add_steal()`. -/
  | stolen (f : ℕ)
  /-- The code of `f`, or the `await_resume` before it. -/
  | run (f : ℕ)
  /-- `final_await_suspend`, of the parent of `c`: `context->pop()`. -/
  | final (c : ℕ)
  /-- `final_await_suspend`: `parent->fetch_sub_joins(1)`. -/
  | subJoin (c : ℕ)
  /-- `final_await_suspend`, not the last to join: `tls_stack->release()` or nothing. -/
  | lost (c : ℕ)
  /-- `join_awaitable::await_ready`: `load_joins()`. -/
  | joinLoad (f : ℕ)
  /-- `join_awaitable::await_suspend`: `fetch_sub_joins(k_u16_max - steals)`. -/
  | joinSub (f : ℕ)
  /-- `context_switch_awaitable::await_suspend`, `f` handed over: `release()` or nothing. -/
  | switched (f : ℕ) (steals : BitVec 16)
  /-- `try_self_stealing`: `context()->pop()`. -/
  | selfSteal
deriving DecidableEq, Repr

/-- The task whose code a worker is in. -/
def Pc.code : Pc → Option ℕ
  | .run f => some f
  | .joinLoad f => some f
  | .joinSub f => some f
  | _ => none

/-- The task that has returned, until its parent knows. -/
def Pc.returned : Pc → Option ℕ
  | .final c => some c
  | .subJoin c => some c
  | _ => none

structure State where
  task : ℕ → Task
  pc : ℕ → Pc
  /-- Newest first. Source: `context.hpp`, `m_tasks` -/
  deque : ℕ → List ℕ
  /-- Oldest first. Source: `context.hpp`, `m_submit` -/
  submit : ℕ → List ℕ
  /-- The rest of the list that `resume(submit_handle)` goes through. -/
  todo : ℕ → List ℕ

/-- No task was invoked, and every worker waits. -/
def State.init : State where
  task := fun _ => Task.new
  pc := fun _ => .idle
  deque := fun _ => []
  submit := fun _ => []
  todo := fun _ => []

namespace State

variable (s : State)

/-- Move a worker on. -/
def goto (w : ℕ) (pc : Pc) : State := { s with pc := Function.update s.pc w pc }

/-- Change one task. -/
def modify (f : ℕ) (g : Task → Task) : State :=
  { s with task := Function.update s.task f (g (s.task f)) }

/-- Ghost: move the handle of a task. -/
def place (f : ℕ) (l : Loc) : State := s.modify f fun t => { t with loc := l }

/-- Change a deque. -/
def setDeque (w : ℕ) (q : List ℕ) : State := { s with deque := Function.update s.deque w q }

/-- The worker `w` goes on with `f`. -/
def enter (w f : ℕ) : State := (s.place f (.run w)).goto w (.run f)

/-- Ghost: what is left in the deque of `w` counts as stolen, the newest of it first. -/
def takeHead (w : ℕ) : State :=
  match s.deque w with
  | [] => s
  | d :: _ => s.modify d Task.take

end State

/-! ## Steps -/

/-- Who takes the next step, and what it starts. -/
inductive Act
  /-- A root task is created; the outside holds its handle. -/
  | spawn (r : ℕ)
  /-- The outside calls `schedule` on the context of `w`, with the handle of `f`. -/
  | schedule (f w : ℕ)
  /-- `w` calls `try_pop_all`, and `resume(submit_handle)` on what it gets. -/
  | popAll (w : ℕ)
  /-- `resume(submit_handle)` goes to the next handle of its list. -/
  | resume (w : ℕ)
  /-- `w` calls `try_steal` on the context of `v`, and `resume(task_handle)` on what it gets. -/
  | steal (w v : ℕ)
  /-- The code that `w` runs forks `c`. -/
  | fork (w c : ℕ)
  /-- The code that `w` runs calls `c`. -/
  | call (w c : ℕ)
  /-- The code that `w` runs returns. -/
  | ret (w : ℕ)
  /-- The code that `w` runs awaits a join. -/
  | join (w : ℕ)
  /-- The code that `w` runs awaits a `context_switcher`. -/
  | switch (w : ℕ)
  /-- `w` goes on. -/
  | step (w : ℕ)
deriving DecidableEq, Repr

namespace State

variable (s : State)

/-- The task whose code `w` may run: its fork's `await_resume` is behind it. -/
def running (w : ℕ) : Option ℕ :=
  match s.pc w with
  | .run f => if (s.task f).awaiting = none then some f else none
  | _ => none

/-- `schedule`. Source: `context.hpp`, `worker_context::schedule` -/
def schedule (f w : ℕ) : State :=
  { s.place f (.submitted w) with submit := Function.update s.submit w (s.submit w ++ [f]) }

/-- `try_pop_all`. Source: `context.hpp`, `worker_context::try_pop_all` -/
def popAll (w : ℕ) : State :=
  { s with todo := Function.update s.todo w (s.submit w), submit := Function.update s.submit w [] }

/-- Source: `resume.hpp`, `resume(submit_handle)` -/
def resume (w f : ℕ) (fs : List ℕ) : State :=
  { s with todo := Function.update s.todo w fs }.enter w f

/-- The oldest element `f` of the deque of `v`, over `q`, goes to the thief `w`. -/
def steal (w v f : ℕ) (q : List ℕ) : State :=
  (((s.setDeque v q).modify f Task.take).place f (.stolen w)).goto w (.stolen f)

/-- `parent->fetch_sub_joins(1)`, and what follows where it returned 1. Source: `promise.hpp`,
`final_await_suspend` -/
def subJoin (p w c : ℕ) : State :=
  let s' := (s.place c .dead).modify p (Task.decremented · c)
  if (s.task p).frame.loadJoins = 1 then (s'.modify p Task.reset).enter w p
  else s'.goto w (.lost c)

/-- `fetch_sub_joins(k_u16_max - steals)`, and what follows. Source: `awaitables.hpp`,
`join_awaitable::await_suspend` -/
def joinSub (w f : ℕ) : State :=
  let steals := (s.task f).frame.loadSteals
  let joined := (s.task f).frame.loadJoins
  let s' := s.modify f fun t => { t with frame := t.frame.fetchSubJoins (kU16Max - steals) }
  if steals = kU16Max - joined then (s'.modify f Task.reset).goto w (.run f)
  else ((s'.place f .joining).goto w .selfSteal).takeHead w

/-- Source: `awaitables.hpp`, `fork_awaitable::await_suspend`, `sync_fork_awaitable` -/
def fork (w f c : ℕ) : State :=
  (((s.setDeque w (f :: s.deque w)).modify f (Task.forks · c)).place f (.queued w)).enter w c

/-- Source: `awaitables.hpp`, `call_awaitable::await_suspend` -/
def call (w f c : ℕ) : State := (s.place f (.calling c)).enter w c

/-- Source: `awaitables.hpp`, `context_switch_awaitable::await_suspend` -/
def switch (w f : ℕ) : State :=
  ((s.place f .outside).goto w (.switched f (s.task f).frame.loadSteals)).takeHead w

end State

section steps

variable (T : Tree) (s : State)

/-- Source: `promise.hpp`, `final_awaitable::await_suspend` -/
def ret (w f : ℕ) : State :=
  match T.tag f with
  | .root => (s.place f .dead).goto w .idle
  | .call => (s.place f .dead).enter w (T.parent f)
  | .fork => (s.place f (.final w)).goto w (.final f)

/-- Source: `awaitables.hpp`, `join_awaitable::await_ready` -/
def join (w f : ℕ) : State :=
  if (s.task f).frame.loadSteals = 0 then s.modify f Task.leave else s.goto w (.joinLoad f)

/-- One access of a worker, `none` where the code is free to choose, or the worker is idle. -/
def workerStep (w : ℕ) : Option State :=
  match s.pc w with
  | .idle => none
  | .stolen f => some ((s.modify f Task.addSteal).enter w f)
  | .run f =>
      if (s.task f).awaiting = none then none
      else some (s.modify f fun t => { t with awaiting := none })
  | .final c =>
      match s.deque w with
      | [] => some (s.goto w (.subJoin c))
      | _ :: q =>
          let p := T.parent c
          some ((((s.setDeque w q).place c .dead).modify p (Task.popped · c)).enter w p)
  | .subJoin c => some (s.subJoin (T.parent c) w c)
  | .lost _ => some (s.goto w .idle)
  | .joinLoad f =>
      let joined := kU16Max - (s.task f).frame.loadJoins
      if (s.task f).frame.loadSteals = joined then some ((s.modify f Task.reset).goto w (.run f))
      else some (s.goto w (.joinSub f))
  | .joinSub f => some (s.joinSub w f)
  | .switched _ _ => some (s.goto w .selfSteal)
  | .selfSteal =>
      match s.deque w with
      | [] => some (s.goto w .idle)
      | d :: q => some (((s.setDeque w q).modify d Task.addSteal).enter w d)

/-- Invoke the new task `c` from the code that `w` runs. -/
def invoke (tag : Tag) (w c : ℕ) (next : ℕ → State) : Option State :=
  match s.running w with
  | none => none
  | some f =>
      if (s.task c).loc = .unborn ∧ T.tag c = tag ∧ T.parent c = f then some (next f) else none

/-- The machine of all workers, and of the outside. -/
def machine (T : Tree) : Machine State Act where
  step s
    | .spawn r =>
        if (s.task r).loc = .unborn ∧ T.tag r = .root then some (s.place r .outside) else none
    | .schedule f w => if (s.task f).loc = .outside then some (s.schedule f w) else none
    | .popAll w =>
        if s.pc w = .idle ∧ s.todo w = [] ∧ s.submit w ≠ [] then some (s.popAll w) else none
    | .resume w => match s.pc w, s.todo w with
        | .idle, f :: fs => some (s.resume w f fs)
        | _, _ => none
    | .steal w v => match s.pc w, s.todo w, (s.deque v).getLast? with
        | .idle, [], some f => some (s.steal w v f (s.deque v).dropLast)
        | _, _, _ => none
    | .fork w c => invoke T s .fork w c fun f => s.fork w f c
    | .call w c => invoke T s .call w c fun f => s.call w f c
    | .ret w => match s.running w with
        | some f => if (s.task f).scope = false then some (ret T s w f) else none
        | none => none
    | .join w => (s.running w).map fun f => join s w f
    | .switch w => (s.running w).map fun f => s.switch w f
    | .step w => workerStep T s w

end steps

end Libfork.Runtime
