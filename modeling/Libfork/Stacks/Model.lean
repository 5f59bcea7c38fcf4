import Libfork.Runtime.SyncFork

/-!
# The stacks of the workers

Each worker has a stack of its own in a thread-local, on which it allocates the frames of the
tasks it invokes. A stack is a chain of stacklets, and the chains change hands: a worker that has
nothing left to do on the chain it has releases it, and one that goes on with a suspended task
takes the chain over that the task is on, where nobody else has it.

* `Chains` — the chains, the stack of each worker and the stacklet that each frame remembers.
* `State` — the workers of a strict program, with their stacks. What the code holds in two local
  variables of `final_await_suspend` stands beside them.
* `Asserts` — what the assertions on stacks check in a step.

A chain is named by its root. No allocation fails; which stacklet it comes from, the top one or
the one after it, is up to the environment, and so is where a new chain begins.

Source: `stack.hpp`; `promise.hpp`, `promise_base`, `final_await_suspend`; `awaitables.hpp`;
`resume.hpp`; `co_alloc.hpp`; `frame.hpp`, `m_stacklet`; `sync_wait.hpp`, `schedule`.
-/

namespace Libfork.Stacks

open Libfork.Found Libfork.Join Libfork.Runtime

/-! ## Chains -/

/-- A stacklet: the root of its chain, and how many stacklets it is away from there. -/
structure Stacklet where
  root : ℕ
  depth : ℕ
deriving DecidableEq, Repr

/-- A block in use. -/
structure Block where
  /-- Ghost: the task it was allocated for. -/
  task : ℕ
  /-- How far the stacklet that it is in is away from the root. -/
  depth : ℕ
deriving DecidableEq, Repr

/-- The chains, and who points where on them. -/
structure Chains where
  /-- The blocks in use on the chain with this root, newest first, if there is one. -/
  chain : ℕ → Option (List Block)
  /-- Source: `stack.hpp`, `m_fib` -/
  mFib : ℕ → Stacklet
  /-- Source: `frame.hpp`, `m_stacklet` -/
  mStacklet : ℕ → Stacklet

namespace Chains

variable (st : Chains) (w f root : ℕ) (p : Stacklet) (grow : Bool)

/-- Source: `stack.hpp`, `stacklet::empty` -/
def vacant : Bool := (st.chain p.root).any fun bs => bs.all (·.depth != p.depth)

/-- What comes after it is a cached stacklet at most. Source: `stack.hpp`, `stacklet::is_top` -/
def isTop : Bool := (st.chain p.root).any fun bs => bs.all (·.depth ≤ p.depth)

/-- The stack of `w` has no blocks. Source: `stack.hpp`, `stack::empty` -/
def empty : Bool := st.vacant (st.mFib w) && (st.mFib w).depth == 0

/-- Source: `stack.hpp`, `stack::top` -/
def top : Stacklet := st.mFib w

/-- The stacklet that the next block on the stack of `w` comes from. -/
def next : Stacklet :=
  if grow then ⟨(st.mFib w).root, (st.mFib w).depth + 1⟩ else st.mFib w

/-- A block for `f` on the stack of `w`. Source: `stack.hpp`, `stack::allocate` -/
def allocate : Chains :=
  { st with
    chain := Function.update st.chain (st.mFib w).root
      ((st.chain (st.mFib w).root).map (⟨f, (st.next w grow).depth⟩ :: ·))
    mFib := Function.update st.mFib w (st.next w grow) }

/-- `m_fib->m_sp = ptr`: the newest block of the stack of `w` goes. -/
def setSp : Chains :=
  { st with
    chain := Function.update st.chain (st.mFib w).root ((st.chain (st.mFib w).root).map List.tail) }

/-- An empty stacklet that is not the root is left. Source: `stack.hpp`, `stack::deallocate` -/
def deallocate : Chains :=
  if (st.setSp w).vacant (st.mFib w) then
    { st.setSp w with
      mFib := Function.update st.mFib w ⟨(st.mFib w).root, (st.mFib w).depth - 1⟩ }
  else st.setSp w

/-- The frame of `f` remembers the top of the stack of `w`. Source: `frame.hpp`, `reset_stacklet` -/
def record : Chains := { st with mStacklet := Function.update st.mStacklet f (st.top w) }

/-- The frame of a new task. Source: `promise.hpp`, `promise_base::operator new`,
`promise::promise` -/
def newFrame : Chains := (st.allocate w f grow).record w f

/-- Source: `awaitables.hpp`, `alloc_awaitable::await_resume` -/
def coNew : Chains := (st.allocate w f grow).record w f

/-- Source: `co_alloc.hpp`, `stack_allocated::~stack_allocated` -/
def coDelete : Chains := (st.deallocate w).record w f

/-- `*tls_stack = stack{p}`: what the stack of `w` was is freed. Source: `stack.hpp`,
`stack::operator=`, `stack::~stack` -/
def take : Chains :=
  { st with
    chain := Function.update st.chain (st.mFib w).root none
    mFib := Function.update st.mFib w p }

/-- The stack of `w` begins anew, at `root`. Source: `stack.hpp`, `stack::release` -/
def release : Chains :=
  { st with
    chain := Function.update st.chain root (some [])
    mFib := Function.update st.mFib w ⟨root, 0⟩ }

/-- The frame of a root task, on a stack that the outside has begun at `root`, and releases.
Source: `sync_wait.hpp`, `schedule` -/
def plant : Chains :=
  { st with
    chain := Function.update st.chain root (some [⟨f, grow.toNat⟩])
    mStacklet := Function.update st.mStacklet f ⟨root, grow.toNat⟩ }

end Chains

/-! ## Workers -/

structure State where
  /-- What the workers run. -/
  rt : Runtime.State
  st : Chains
  /-- How many blocks from `co_new` a task has not given back. -/
  allocs : ℕ → ℕ
  /-- Source: `promise.hpp`, `final_await_suspend`, `p_stacklet` -/
  pStacklet : ℕ → Stacklet
  /-- Source: `promise.hpp`, `final_await_suspend`, `c_stacklet` -/
  cStacklet : ℕ → Stacklet

/-- Every worker has an empty stack. There is room for more. -/
def State.init : State where
  rt := .init
  st := {
    chain := fun k => if k % 2 = 0 then some [] else none
    mFib := fun w => ⟨2 * w, 0⟩
    mStacklet := fun _ => ⟨0, 0⟩ }
  allocs := fun _ => 0
  pStacklet := fun _ => ⟨0, 0⟩
  cStacklet := fun _ => ⟨0, 0⟩

inductive Act
  /-- A step of the workers, or of the outside. A new frame is given a new stacklet where `grow`
  says so, and a new chain begins at `root`. -/
  | code (a : Runtime.Act) (grow : Bool) (root : ℕ)
  /-- The code that `w` runs awaits a `co_new`, outside its scopes. -/
  | coNew (w : ℕ) (grow : Bool)
  /-- The code that `w` runs destroys what it was given last, outside its scopes. -/
  | coDelete (w : ℕ)
deriving DecidableEq, Repr

section steps

variable (T : Tree) (s : State)

namespace State

/-- The blocks from `co_new` that a task was given are gone before it returns. -/
def Strict : Runtime.Act → Prop
  | .ret w => ∀ f, s.rt.running w = some f → s.allocs f = 0
  | _ => True

instance (a : Runtime.Act) : Decidable (s.Strict a) :=
  match a with
  | .ret w => match h : s.rt.running w with
      | some f => decidable_of_iff (s.allocs f = 0)
          ⟨fun hf _ hg => Option.some.inj (h.symm.trans hg) ▸ hf, fun hs => hs f h⟩
      | none => isTrue fun _ hg => absurd (h.symm.trans hg) (Option.some_ne_none _).symm
  | .spawn _ => isTrue trivial
  | .schedule _ _ => isTrue trivial
  | .popAll _ => isTrue trivial
  | .resume _ => isTrue trivial
  | .steal _ _ => isTrue trivial
  | .fork _ _ => isTrue trivial
  | .call _ _ => isTrue trivial
  | .join _ => isTrue trivial
  | .switch _ => isTrue trivial
  | .step _ => isTrue trivial

/-- The join that `f` awaits finds all its children. -/
def Joined (f : ℕ) : Prop :=
  (s.rt.task f).frame.loadSteals = kU16Max - (s.rt.task f).frame.loadJoins

instance (f : ℕ) : Decidable (s.Joined f) := inferInstanceAs (Decidable (_ = _))

/-- What a worker that goes on by itself does to the stacks. Source: `promise.hpp`,
`final_await_suspend`; `awaitables.hpp`, `join_awaitable`, `take_stack_reset_frame`,
`context_switch_awaitable` -/
def stepEffect (w root : ℕ) : Chains :=
  match s.rt.pc w with
  | .subJoin c =>
      if (s.rt.task (T.parent c)).frame.loadJoins = 1 ∧ s.pStacklet w ≠ s.cStacklet w then
        s.st.take w (s.pStacklet w)
      else s.st
  | .lost _ => if s.pStacklet w = s.cStacklet w then s.st.release w root else s.st
  | .joinLoad f => if s.Joined f then s.st.take w (s.st.mStacklet f) else s.st
  | .joinSub f => if s.Joined f then s.st.take w (s.st.mStacklet f) else s.st
  | .switched _ steals => if steals = 0 then s.st.release w root else s.st
  | _ => s.st

/-- What a step does to the stacks. -/
def effect (grow : Bool) (root : ℕ) : Runtime.Act → Chains
  | .spawn r => s.st.plant r root grow
  | .resume w => match s.rt.todo w with
      | f :: _ =>
          if (s.rt.task f).frame.loadSteals = 0 then s.st.take w (s.st.mStacklet f) else s.st
      | [] => s.st
  | .fork w c => s.st.newFrame w c grow
  | .call w c => s.st.newFrame w c grow
  | .ret w => s.st.deallocate w
  | .step w => s.stepEffect T w root
  | _ => s.st

/-- `final_await_suspend` looks at the stacks, where its `pop()` finds nothing. -/
def look : Runtime.Act → State
  | .step w => match s.rt.pc w, s.rt.deque w with
      | .final c, [] => { s with
          pStacklet := Function.update s.pStacklet w (s.st.mStacklet (T.parent c))
          cStacklet := Function.update s.cStacklet w (s.st.top w) }
      | _, _ => s
  | _ => s

/-- A task that may use `co_new`: it is outside its scopes. -/
def outside (w : ℕ) : Option ℕ := (s.rt.running w).filter fun f => !(s.rt.task f).scope

end State

/-- The machine of all workers and their stacks. -/
def machine : Machine State Act where
  step s
    | .code a grow root =>
        if s.st.chain root = none ∧ s.Strict a then
          ((Runtime.machine T).step s.rt a).map fun rt =>
            { s.look T a with rt := rt, st := s.effect T grow root a }
        else none
    | .coNew w grow => (s.outside w).map fun f => { s with
        st := s.st.coNew w f grow
        allocs := Function.update s.allocs f (s.allocs f + 1) }
    | .coDelete w => ((s.outside w).filter fun f => 0 < s.allocs f).map fun f => { s with
        st := s.st.coDelete w f
        allocs := Function.update s.allocs f (s.allocs f - 1) }

/-- No continuation is taken 65535 times in one scope. -/
def FewSteals (a : Act) : Prop :=
  ∀ s', (machine T).step s a = some s' → ∀ f, (s'.rt.task f).taken < 65535

/-! ## Assertions -/

namespace State

/-- What the assertions in `take_stack_reset_frame`, before it, and in the `await_resume` of the
join check, where `f` goes on at `w`. `s'` is the state after it. -/
def TakeAsserts (s' : State) (w f : ℕ) : Prop :=
  (s.rt.task f).frame.loadSteals ≠ 0 ∧ s.st.empty w = true ∧ s.st.isTop (s.st.mStacklet f) = true ∧
    s'.st.mStacklet f = s'.st.top w

/-- What the assertions check where a worker goes on by itself. -/
def StepAsserts (s' : State) (w : ℕ) : Prop :=
  match s.rt.pc w with
  -- `resume(task_handle)`, before the task
  | .stolen _ => s.st.empty w = true
  | .subJoin c =>
      (s.rt.task (T.parent c)).frame.loadJoins = 1 →
        (s.pStacklet w ≠ s.cStacklet w →
          s.st.empty w = true ∧ s.st.isTop (s.pStacklet w) = true) ∧
        s'.st.mStacklet (T.parent c) = s'.st.top w
  -- `resume`, after the task
  | .lost _ => s'.st.empty w = true
  | .joinLoad f => s.Joined f → s.TakeAsserts s' w f
  | .joinSub f => s.Joined f → s.TakeAsserts s' w f
  | .switched _ _ => s'.st.empty w = true
  -- `resume`, after the task
  | .selfSteal => s'.rt.pc w = .idle → s'.st.empty w = true
  | _ => True

/-- What the assertions on stacks check in a step from `s` to `s'`. -/
def Asserts (s' : State) : Act → Prop
  | .code (.resume w) _ _ => ∀ f ∈ (s.rt.todo w).head?,
      s.st.empty w = true ∧
        ((s.rt.task f).frame.loadSteals = 0 → s.st.isTop (s.st.mStacklet f) = true)
  | .code (.ret w) _ _ => ∀ f, s.rt.running w = some f →
      s.st.top w = s.st.mStacklet f ∧ (T.tag f = .root → s'.st.empty w = true)
  | .code (.join w) _ _ => ∀ f, s.rt.running w = some f →
      (s.rt.task f).frame.loadSteals = 0 → s.st.mStacklet f = s.st.top w
  | .code (.switch w) _ _ => ∀ f, s.rt.running w = some f →
      ((s.rt.task f).frame.loadSteals = 0 ↔ s.st.mStacklet f = s.st.top w)
  | .code (.step w) _ _ => s.StepAsserts T s' w
  | .code _ _ _ => True
  | .coNew w _ => ∀ f, s.rt.running w = some f → s.st.top w = s.st.mStacklet f
  | .coDelete w => ∀ f, s.rt.running w = some f → s.st.mStacklet f = s.st.top w

end State

end steps

end Libfork.Stacks
