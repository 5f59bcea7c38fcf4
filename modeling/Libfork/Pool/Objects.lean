import Mathlib.Data.List.Basic
import Mathlib.Logic.Function.Basic
import Mathlib.Tactic.Common

/-!
# The pool objects: construction, moves and destruction

`busy_pool` and `lazy_pool` declare the same members and default both moves; their destructors
differ only in that `~lazy_pool` also notifies the sleeping workers. Objects are named by numbers.

* `PoolObject` — the members; `takeFrom` — a defaulted move, which leaves a null `shared_ptr` and
  empty vectors behind.
* `Vars` — the shared state of one constructed pool, with the worker threads started on it.
* `step` — one construction, move construction, move assignment or destruction. A `Fault` is the
  end of the program: a null `m_share` dereferenced, `std::terminate`, a `join` that never returns.
* `exec` — a sequence of them.
-/

namespace Libfork.Pool.Objects

/-- Which of the two pools. -/
inductive Kind
  | busy
  | lazy
deriving DecidableEq, Repr

/-- A worker thread: the shared state it was started on, and its number there. -/
abbrev Thread := ℕ × ℕ

/-- `busy_vars` or `lazy_vars` on the heap. -/
structure Vars where
  stop : Bool
  /-- Of each event count in `numa`, which a `busy_pool` has none of: whether `notify_all` was
  called after `stop` was set. -/
  numa : List Bool
  /-- The number of worker threads started on it. -/
  workers : ℕ
deriving DecidableEq, Repr

/-- The workers were told to stop, and the sleeping ones were woken. -/
def Vars.told (v : Vars) : Bool := v.stop && v.numa.all id

/-- After the first two parts of the destructor. -/
def Vars.stopped (kind : Kind) (v : Vars) : Vars where
  stop := true
  numa := match kind with
    | .busy => v.numa
    | .lazy => v.numa.map fun _ => true
  workers := v.workers

/-- A pool object. `m_threads` holds `none` for a thread that is not joinable. -/
structure PoolObject where
  m_num_threads : ℕ
  m_share : Option ℕ
  m_worker : List Thread
  m_threads : List (Option Thread)
  m_contexts : List Thread
deriving DecidableEq, Repr

/-- What a defaulted move leaves of its source. -/
def PoolObject.moved (p : PoolObject) : PoolObject :=
  { p with m_share := none, m_worker := [], m_threads := [], m_contexts := [] }

/-- The program: shared states, the joins that returned, and the pool objects. -/
structure System where
  shares : List Vars
  joins : List Thread
  pools : ℕ → Option PoolObject

def start : System := ⟨[], [], fun _ => none⟩

/-- The end of the program. -/
inductive Fault
  /-- An object is used that does not exist, or constructed where one does. -/
  | noObject
  /-- `m_share` is dereferenced and null. -/
  | nullShare
  /-- A joinable thread is destroyed or overwritten, or one that is not joinable is joined. -/
  | terminate
  /-- A thread is joined that was not told to stop. -/
  | hang
deriving DecidableEq, Repr

inductive Op
  /-- `n` worker threads in `domains` NUMA domains. -/
  | construct (obj n domains : ℕ)
  | moveConstruct (dst src : ℕ)
  | moveAssign (dst src : ℕ)
  | destroy (obj : ℕ)
deriving DecidableEq, Repr

namespace System

def setPool (s : System) (obj : ℕ) (p : Option PoolObject) : System :=
  { s with pools := Function.update s.pools obj p }

/-- The shared state, the worker threads and the members the constructor sets up. -/
def constructed (kind : Kind) (obj n domains : ℕ) (s : System) : System :=
  let share := s.shares.length
  let crew := (List.range n).map fun k => (share, k)
  let numa := match kind with
    | .busy => []
    | .lazy => List.replicate domains false
  { s with
    shares := s.shares ++ [⟨false, numa, n⟩]
    pools := Function.update s.pools obj (some ⟨n, some share, crew, crew.map some, crew⟩) }

/-- The constructor. -/
def construct (kind : Kind) (obj n domains : ℕ) (s : System) : Except Fault System :=
  match s.pools obj with
  | some _ => .error .noObject
  | none => .ok (s.constructed kind obj n domains)

/-- The members go from `src` to `dst`, one after another. -/
def takeFrom (dst src : ℕ) (p : PoolObject) (s : System) : System :=
  (s.setPool dst (some p)).setPool src (some p.moved)

/-- The defaulted move constructor. -/
def moveConstruct (dst src : ℕ) (s : System) : Except Fault System :=
  match s.pools dst, s.pools src with
  | none, some p => .ok (s.takeFrom dst src p)
  | _, _ => .error .noObject

/-- The defaulted move assignment. The vector of threads in `dst` destroys what it holds before it
takes over the threads of `src`, also where the two are one object. -/
def moveAssign (dst src : ℕ) (s : System) : Except Fault System :=
  match s.pools dst, s.pools src with
  | some q, some p =>
    if q.m_threads.any Option.isSome then .error .terminate else .ok (s.takeFrom dst src p)
  | _, _ => .error .noObject

/-- `stop.test_and_set()`, and in `~lazy_pool` `notify_all()` on every domain. -/
def requestStop (kind : Kind) (share : ℕ) (s : System) : System :=
  { s with shares := s.shares.modify share (Vars.stopped kind) }

/-- The loop of the destructor over `m_threads`. -/
def joinAll : List (Option Thread) → System → Except Fault System
  | [], s => .ok s
  | none :: _, _ => .error .terminate
  | some t :: rest, s =>
    match s.shares[t.1]? with
    | none => .error .noObject
    | some v => if v.told then joinAll rest { s with joins := s.joins ++ [t] } else .error .hang

/-- The destructor. -/
def destroy (kind : Kind) (obj : ℕ) (s : System) : Except Fault System :=
  match s.pools obj with
  | none => .error .noObject
  | some p =>
    match p.m_share with
    | none => .error .nullShare
    | some share =>
      match joinAll p.m_threads (s.requestStop kind share) with
      | .error e => .error e
      | .ok s' => .ok (s'.setPool obj none)

end System

def step (kind : Kind) : Op → System → Except Fault System
  | .construct obj n domains, s => s.construct kind obj n domains
  | .moveConstruct dst src, s => s.moveConstruct dst src
  | .moveAssign dst src, s => s.moveAssign dst src
  | .destroy obj, s => s.destroy kind obj

/-- A sequence of operations. -/
def exec (kind : Kind) : List Op → System → Except Fault System
  | [], s => .ok s
  | op :: ops, s =>
    match step kind op s with
    | .error e => .error e
    | .ok s' => exec kind ops s'

/-- `t` is in the thread vector of object `obj`. -/
def System.Holds (s : System) (obj : ℕ) (t : Thread) : Prop :=
  ∃ p, s.pools obj = some p ∧ some t ∈ p.m_threads

/-- Every thread started is held by exactly one object and was not joined, or it was told to stop,
was joined exactly once, and is held by none. -/
def System.Accounted (s : System) : Prop :=
  ∀ share v, s.shares[share]? = some v → ∀ k < v.workers,
    ((∃ obj, s.Holds obj (share, k) ∧ ∀ other, s.Holds other (share, k) → other = obj) ∧
        (share, k) ∉ s.joins) ∨
      v.told = true ∧ s.joins.count (share, k) = 1 ∧ ∀ obj, ¬ s.Holds obj (share, k)

/-- The sequence runs without fault, and after each of its steps every thread is accounted for. -/
def Safe (kind : Kind) (ops : List Op) : Prop :=
  ∀ pre, pre <+: ops → ∃ s, exec kind pre start = .ok s ∧ s.Accounted

/-- Once every object is destroyed, every thread was told to stop and joined exactly once. -/
theorem System.Accounted.joined {s : System} (h : s.Accounted) (hnone : ∀ obj, s.pools obj = none)
    {share : ℕ} {v : Vars} (hv : s.shares[share]? = some v) {k : ℕ} (hk : k < v.workers) :
    v.told = true ∧ s.joins.count (share, k) = 1 := by
  rcases h share v hv k hk with ⟨⟨obj, ⟨p, hp, _⟩, _⟩, _⟩ | ⟨ht, hc, _⟩
  · rw [hnone obj] at hp
    cases hp
  · exact ⟨ht, hc⟩

end Libfork.Pool.Objects
