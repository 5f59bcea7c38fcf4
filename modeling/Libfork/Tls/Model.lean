import Libfork.Found.Object
import Libfork.SegmentedStack.Model

/-!
# The thread-local variables

What `worker_init`, `finalize` and `schedule` do to the thread-local variables of one thread, to
its stacklets and to the coroutine that `schedule` builds.

* `ManualLifetime T` — raw storage for one object, with the flag that says whether one is alive
  kept elsewhere.
* `Thread N` — the variables of `impl::tls`, and the memory in which the stacklets are. The stack
  object is its `m_fib`, the context object the notification function it was built from.
* `Env` — what is up to the environment in a call of `schedule`: what `malloc` returns, and which
  of the steps throws.
* `Thread.workerInit`, `Thread.finalize`, `Thread.schedule` — the calls; `thread` is the object
  they make up. A call in which `malloc` would return memory that is in use is not made.

The exceptions that the calls of the user's code throw are one, `Exception.user`. Assertions are
not checked; `Note.destroyed` records what the one in `~promise_base` compares.

Source: `tls.hpp`, `sync_wait.hpp`, `manual_lifetime.hpp`, `stack.hpp`, `promise.hpp`.
-/

namespace Libfork.Tls

open Libfork.Found
open Libfork.SegmentedStack

/-! ## Storage -/

/-- Storage for one object. Source: `manual_lifetime.hpp`, class `manual_lifetime` -/
structure ManualLifetime (T : Type) where
  /-- The object, while one is alive. -/
  object : Option T
  /-- Ghost: how often an object was destroyed or used when none was alive. -/
  faults : ℕ
deriving DecidableEq, Repr

namespace ManualLifetime

variable {T : Type} (m : ManualLifetime T)

/-- Storage without an object. -/
def new : ManualLifetime T := ⟨none, 0⟩

/-- Source: `manual_lifetime.hpp`, `manual_lifetime::construct` -/
def construct (x : T) : ManualLifetime T := { m with object := some x }

/-- Source: `manual_lifetime.hpp`, `manual_lifetime::destroy` -/
def destroy : ManualLifetime T :=
  match m.object with
  | some _ => { m with object := none }
  | none => { m with faults := m.faults + 1 }

/-- A use of an object that is not alive. -/
def misuse : ManualLifetime T := { m with faults := m.faults + 1 }

/-- An object is alive. -/
def alive : Bool := m.object.isSome

end ManualLifetime

/-! ## The stack object -/

/-- The stack gives up its stacklets and goes on with a new one; without memory for it the stack
keeps what it has. Source: `stack.hpp`, `stack::release` -/
def release (s : Stack) (got : Option ℕ) : Option Stack :=
  match s.store.nextStacklet kFibreInitSize none got with
  | (none, _) => none
  | (some next, st) => some ⟨st, next⟩

/-- Source: `stack.hpp`, `stack::~stack` -/
def destroyStack (s : Stack) : Store := (s.store.setNext s.mFib none).free (some s.mFib)

/-! ## The thread -/

/-- What happens to the coroutine that `schedule` builds. -/
inductive Note
  /-- `operator new` returns `ptr`, in the stacklet `top`. -/
  | allocated (ptr top : ℕ)
  /-- The promise is constructed, with `m_stacklet`. -/
  | built (ptr mStacklet : ℕ)
  /-- `~promise_base` runs, with the top of the thread's stack. -/
  | destroyed (ptr mStacklet top : ℕ)
  /-- `operator delete`, on the stack with this top. -/
  | deallocated (ptr top : ℕ)
deriving DecidableEq, Repr

/-- Source: `tls.hpp`, namespace `impl::tls` -/
structure Thread (N : Type) where
  /-- The memory of the stacklets. -/
  store : Store
  hasStack : Bool
  threadStack : ManualLifetime ℕ
  hasContext : Bool
  threadContext : ManualLifetime N
  /-- The address of `thread_context`. -/
  contextAddr : ℕ
  /-- Ghost: what has happened to coroutines. -/
  log : List Note

/-- What the calls throw. -/
inductive Exception
  | runtimeError (what : String)
  | scheduleInWorker
  | badAlloc
  /-- The user's code has thrown. -/
  | user
deriving DecidableEq, Repr

/-- How a call ends. -/
inductive Result
  /-- It returns nothing that matters here. -/
  | returned
  /-- It returns the address of a context. -/
  | context (addr : ℕ)
  | threw (e : Exception)
deriving DecidableEq, Repr

/-- What is up to the environment in a call of `schedule`. -/
structure Env where
  /-- The `malloc` of the constructor of the stack. -/
  first : Option ℕ
  /-- `std::make_shared` throws. -/
  sharedThrows : Bool
  /-- `combinate` throws, while it copies the function. -/
  combineThrows : Bool
  /-- The copy of the function for the first argument throws. -/
  argumentThrows : Bool
  /-- The size of the coroutine frame. -/
  size : Size
  /-- The `malloc` in `operator new`, if there is one. -/
  grown : Option ℕ
  /-- Moving the arguments into the coroutine frame throws. -/
  parametersThrow : Bool
  /-- The `malloc` of `release`. -/
  second : Option ℕ
  /-- The scheduler's `schedule` throws. -/
  refuses : Bool
deriving DecidableEq, Repr

namespace Thread

variable {N : Type} (t : Thread N)

/-- A thread that has done nothing. -/
def new (store : Store) (contextAddr : ℕ) : Thread N where
  store := store
  hasStack := false
  threadStack := .new
  hasContext := false
  threadContext := .new
  contextAddr := contextAddr
  log := []

/-- The stack object is now `s`. -/
def withStack (s : Stack) : Thread N :=
  { t with store := s.store, threadStack := { t.threadStack with object := some s.mFib } }

/-- A use of the stack after its end. -/
def misuse : Thread N := { t with threadStack := t.threadStack.misuse }

/-- One more note. -/
def noted (n : Note) : Thread N := { t with log := t.log ++ [n] }

/-- `thread_stack.construct()`, `none` where it throws `std::bad_alloc`.
Source: `stack.hpp`, `stack::stack` -/
def constructStack (got : Option ℕ) : Option (Thread N) :=
  match t.store.nextStacklet kFibreInitSize none got with
  | (none, _) => none
  | (some next, st) => some { t with store := st, threadStack := t.threadStack.construct next }

/-- `thread_stack.destroy()`. -/
def destroyStack : Thread N :=
  match t.threadStack.object with
  | none => { t with threadStack := t.threadStack.destroy }
  | some fib =>
      { t with store := Tls.destroyStack ⟨t.store, fib⟩, threadStack := t.threadStack.destroy }

/-- `tls::stack()->allocate(size)`, `none` where it throws `std::bad_alloc`.
Source: `promise.hpp`, `promise_base::operator new` -/
def operatorNew (size : Size) (got : Option ℕ) : Option ℕ × Thread N :=
  match t.threadStack.object with
  | none => (none, t.misuse)
  | some fib =>
      match (⟨t.store, fib⟩ : Stack).allocate size got with
      | (none, s) => (none, t.withStack s)
      | (some ptr, s) => (some ptr, (t.withStack s).noted (.allocated ptr s.top))

/-- `tls::stack()->deallocate(ptr)`. Source: `promise.hpp`, `promise_base::operator delete` -/
def operatorDelete (ptr : ℕ) : Thread N :=
  match t.threadStack.object with
  | none => t.misuse
  | some fib =>
      (t.withStack ((⟨t.store, fib⟩ : Stack).deallocate ptr)).noted (.deallocated ptr fib)

/-- `tls::stack()->top()`. -/
def top : ℕ := t.threadStack.object.getD 0

/-- The promise is constructed, with the top of the stack as its stacklet.
Source: `promise.hpp`, `promise::promise` -/
def buildFrame (ptr : ℕ) : Thread N := t.noted (.built ptr t.top)

/-- The coroutine is destroyed: its promise first, then its memory is given back. Source:
`unique_frame.hpp`, `frame_deleter`; `promise.hpp`, `~promise_base`, `operator delete` -/
def destroyFrame (ptr mStacklet : ℕ) : Thread N :=
  (t.noted (.destroyed ptr mStacklet t.top)).operatorDelete ptr

/-- `thread_stack->release()`, `none` where it throws `std::bad_alloc`. -/
def releaseStack (got : Option ℕ) : Option (Thread N) :=
  match t.threadStack.object with
  | none => some t.misuse
  | some fib => (release ⟨t.store, fib⟩ got).map t.withStack

/-! ## The calls -/

/-- `schedule` once the coroutine is built, with `await` as the owner of its frame.
Source: `sync_wait.hpp`, `schedule` -/
def submit (env : Env) (ptr mStacklet : ℕ) : Result × Thread N :=
  match t.releaseStack env.second with
  | none => (.threw .badAlloc, t.destroyFrame ptr mStacklet)
  | some t =>
      if env.refuses then (.threw .user, t.destroyFrame ptr mStacklet)
      else (.returned, t)

/-- `schedule` between the construction of the stack and its destruction.
Source: `sync_wait.hpp`, `schedule`; `combinate.hpp`, `y_combinate::operator()` -/
def build (env : Env) : Result × Thread N :=
  if env.sharedThrows then (.threw .badAlloc, t)
  else if env.combineThrows || env.argumentThrows then (.threw .user, t)
  else
    match t.operatorNew env.size env.grown with
    | (none, t) => (.threw .badAlloc, t)
    | (some ptr, t) =>
        if env.parametersThrow then (.threw .user, t.operatorDelete ptr)
        else (t.buildFrame ptr).submit env ptr t.top

/-- Source: `sync_wait.hpp`, `schedule` -/
def schedule (env : Env) : Result × Thread N :=
  if t.hasStack || t.hasContext then (.threw .scheduleInWorker, t)
  else
    match t.constructStack env.first with
    | none => (.threw .badAlloc, t)
    | some t =>
        let (r, t) := { t with hasStack := true }.build env
        (r, { t.destroyStack with hasStack := false })

/-- Source: `tls.hpp`, `worker_init` -/
def workerInit (notify : N) (got : Option ℕ) : Result × Thread N :=
  if t.hasContext && t.hasStack then
    (.threw (.runtimeError "Worker already initialized"), t)
  else
    let t := { t with threadContext := t.threadContext.construct notify }
    let t :=
      match t.constructStack got with
      | some t => t
      -- the handler does not rethrow
      | none => { t with threadContext := t.threadContext.destroy }
    (.context t.contextAddr, { t with hasStack := true, hasContext := true })

/-- Source: `tls.hpp`, `finalize` -/
def finalize (worker : ℕ) : Result × Thread N :=
  if worker ≠ t.contextAddr then
    (.threw (.runtimeError "Finalize called on wrong thread"), t)
  else if !t.hasContext || !t.hasStack then
    (.threw (.runtimeError
      "Finalize called before initialization or after finalization"), t)
  else
    let t := { t with threadContext := t.threadContext.destroy }.destroyStack
    (.returned, { t with hasStack := false, hasContext := false })

/-! ## The object -/

/-- What `malloc` returns for a first stacklet is fresh. -/
def Grants (got : Option ℕ) : Prop :=
  ∀ p ∈ got, t.store.heap.Admits p (request kFibreInitSize).toNat 16

instance (got : Option ℕ) : Decidable (t.Grants got) := inferInstanceAs (Decidable (∀ p ∈ got, _))

/-- What `malloc` returns for a coroutine frame is fresh. -/
def GrantsFrame (size : Size) (got : Option ℕ) : Prop :=
  ∀ fib ∈ t.threadStack.object, (⟨t.store, fib⟩ : Stack).Grants size got

instance (size : Size) (got : Option ℕ) : Decidable (t.GrantsFrame size got) :=
  inferInstanceAs (Decidable (∀ fib ∈ t.threadStack.object, _))

/-- What `malloc` returns in the course of a call of `schedule` is fresh. -/
def Allows (env : Env) : Prop :=
  t.Grants env.first ∧ ∀ t₁ ∈ t.constructStack env.first,
    t₁.GrantsFrame env.size env.grown ∧ (t₁.operatorNew env.size env.grown).2.Grants env.second

instance (env : Env) : Decidable (t.Allows env) :=
  inferInstanceAs (Decidable (_ ∧ ∀ t₁ ∈ t.constructStack env.first, _))

end Thread

/-- A call on the thread. -/
inductive Call (N : Type)
  | workerInit (notify : N) (got : Option ℕ)
  | finalize (worker : ℕ)
  | schedule (env : Env)
deriving DecidableEq, Repr

/-- The calls on one thread. -/
def thread (N : Type) : Object (Thread N) (Call N) Result where
  call t
    | .workerInit notify got => if t.Grants got then some (t.workerInit notify got) else none
    | .finalize worker => some (t.finalize worker)
    | .schedule env => if t.Allows env then some (t.schedule env) else none

end Libfork.Tls
