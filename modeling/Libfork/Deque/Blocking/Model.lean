import Libfork.Deque.ChaseLev.Model
import Libfork.Found.Linearize

/-!
# `blocking_deque` as a machine of atomic steps

One owner calls `push` and `pop`, any number of thieves call `steal`. Every access to `m_flag`,
`m_top`, `m_bottom`, `m_buf` and every access to a slot of a buffer is one step of the machine,
and the steps of the threads interleave in any order (sequential consistency). In which order
`empty_relaxed` loads the two operands of its comparison is left open by C++: each call may do
either.

* `BlockingDeque α` — the deque, and the memory in which its buffers live: `mBuf` and the entries
  of `mGarbage` are addresses in `heap`, and `next` is the next address to be allocated. The
  buffers are those of `chase_lev_deque`, whose header has the same `atomic_ring_buf`.
* `OwnerPc`, `ThiefPc` — where a call stands, with its locals; `lock`, `resize` and
  `empty_relaxed` are inlined.
* `Act.owner fails` — an allocation may fail, and so may the weak compare-exchange of `lock`.
  An allocation that fails ends the call of `push` with an exception: nothing is unwound, since
  `push` has no guard for the lock and no handler.
* `Act.bottomFirst c` — the `empty_relaxed` of `c` begins with `m_bottom`, not with `m_top`.
* `State.log` — ghost: the history of the calls.

Source: `deque_blocking.hpp`, class `blocking_deque`.
-/

namespace Libfork.Deque.Blocking

open Libfork.Found
open Libfork.Deque.ChaseLev (AtomicRingBuf)

/-! ## The state -/

/-- Source: `deque_blocking.hpp`, `k_garbage_reserve` -/
def kGarbageReserve : ℕ := 64

/-- Source: `deque_blocking.hpp`, class `blocking_deque` -/
structure BlockingDeque (α : Type) where
  mFlag : ℤ
  mTop : ℤ
  mBottom : ℤ
  mBuf : ℕ
  mGarbage : List ℕ
  heap : ℕ → AtomicRingBuf α
  next : ℕ

namespace BlockingDeque

variable {α : Type}

/-- Source: `deque_blocking.hpp`, `blocking_deque::blocking_deque` -/
def new (log2 : ℕ) (mem : ℕ → ℕ → α) : BlockingDeque α where
  mFlag := 0
  mTop := 0
  mBottom := 0
  mBuf := 0
  mGarbage := []
  heap := fun p => ⟨log2, mem p⟩
  next := 1

/-- The current buffer. -/
def buffer (d : BlockingDeque α) : AtomicRingBuf α := d.heap d.mBuf

/-- A store into the buffer `buf`. -/
def store (d : BlockingDeque α) (buf : ℕ) (index : ℤ) (val : α) : BlockingDeque α :=
  { d with heap := Function.update d.heap buf ((d.heap buf).store index val) }

/-- A new buffer twice as large as `buf`. -/
def allocate (d : BlockingDeque α) (buf : ℕ) : BlockingDeque α :=
  { d with
    heap := Function.update d.heap d.next ((d.heap buf).double (d.heap d.next).slots)
    next := d.next + 1 }

end BlockingDeque

/-- The operations of a deque. -/
inductive Op (α : Type)
  | push (val : α)
  | pop
  | steal
deriving DecidableEq, Repr

/-- What a call returns. -/
inductive Res (α : Type)
  /-- `push` returns. -/
  | pushed
  /-- `push` throws. -/
  | threw
  /-- `pop` returns an item, or what `return_nullopt` does. -/
  | popped (val : Option α)
  /-- `steal` returns. -/
  | stolen (r : StealT α)
deriving DecidableEq, Repr

/-- The calls that wait for the lock. -/
inductive Locker (α : Type)
  | push (val : α)
  | pop
deriving DecidableEq, Repr

/-- The operation that a call which waits for the lock is. -/
def Locker.op {α : Type} : Locker α → Op α
  | .push val => .push val
  | .pop => .pop

/-- The next access of the owner. -/
inductive OwnerPc (α : Type)
  /-- Between two calls. -/
  | idle
  /-- `pop`, `empty_relaxed`: the first of the two loads. -/
  | empty
  /-- `pop`, `empty_relaxed`: `m_bottom.load()`, after `m_top`. -/
  | emptyBottom (top : ℤ)
  /-- `pop`, `empty_relaxed`: `m_top.load()`, after `m_bottom`. -/
  | emptyTop (bottom : ℤ)
  /-- `lock`: `m_flag.compare_exchange_strong(0, 1)`. -/
  | lock (k : Locker α)
  /-- `lock`: `m_flag.load()`. -/
  | lockLoad (k : Locker α)
  /-- `lock`: `m_flag.compare_exchange_weak(0, 1)`. -/
  | lockWeak (k : Locker α)
  /-- `push`: `m_bottom.load()`. -/
  | pushBottom (val : α)
  /-- `push`: `m_top.load()`. -/
  | pushTop (val : α) (bottom : ℤ)
  /-- `push`: `m_buf.load()`, then `resize` allocates if it must. -/
  | pushBuf (val : α) (bottom top : ℤ)
  /-- `resize`: `load(i)`. -/
  | copyLoad (val : α) (bottom : ℤ) (buf ptr : ℕ) (i : ℤ)
  /-- `resize`: `ptr->store(i, ..)`. -/
  | copyStore (val : α) (bottom : ℤ) (buf ptr : ℕ) (i : ℤ) (loaded : α)
  /-- `push`: `m_garbage.emplace_back(buf)`. -/
  | pushGarbage (val : α) (bottom : ℤ) (buf bigger : ℕ)
  /-- `push`: `m_buf.store(buf)`. -/
  | pushSwap (val : α) (bottom : ℤ) (bigger : ℕ)
  /-- `push`: `buf->store(bottom, val)`. -/
  | pushStore (val : α) (bottom : ℤ) (buf : ℕ)
  /-- `push`: `m_bottom.store(bottom + 1)`. -/
  | pushPublish (val : α) (bottom : ℤ)
  /-- `pop`: `m_bottom.load()`. -/
  | popBottom
  /-- `pop`: `m_top.load()`. -/
  | popTop (bottom : ℤ)
  /-- `pop`: `m_buf.load()`. -/
  | popBuf (bottom top : ℤ)
  /-- `pop`: `m_bottom.store(bottom)`. -/
  | popStore (bottom : ℤ) (buf : ℕ)
  /-- `pop`: `buf->load(bottom)`. -/
  | popLoad (bottom : ℤ) (buf : ℕ)
  /-- `unlock`: `m_flag.store(0)`, then the call returns. -/
  | unlock (r : Res α)

/-- The next access of a thief. -/
inductive ThiefPc (α : Type)
  /-- Between two calls. -/
  | idle
  /-- `empty_relaxed`: the first of the two loads. -/
  | empty
  /-- `empty_relaxed`: `m_bottom.load()`, after `m_top`. -/
  | emptyBottom (top : ℤ)
  /-- `empty_relaxed`: `m_top.load()`, after `m_bottom`. -/
  | emptyTop (bottom : ℤ)
  /-- `try_lock`: `m_flag.compare_exchange_strong(0, 1)`. -/
  | tryLock
  /-- `m_top.load()`. -/
  | top
  /-- `m_bottom.load()`. -/
  | bottom (top : ℤ)
  /-- `m_buf.load()`. -/
  | buf (top bottom : ℤ)
  /-- `buf->load(top)`. -/
  | load (top : ℤ) (buf : ℕ)
  /-- `m_top.store(top + 1)`. -/
  | store (top : ℤ) (val : α)
  /-- `unlock`: `m_flag.store(0)`, then the call returns. -/
  | unlock (r : StealT α)

/-- Between taking the lock and releasing it. -/
def OwnerPc.locked {α : Type} : OwnerPc α → Bool
  | .idle => false
  | .empty => false
  | .emptyBottom _ => false
  | .emptyTop _ => false
  | .lock _ => false
  | .lockLoad _ => false
  | .lockWeak _ => false
  | _ => true

/-- Between taking the lock and releasing it. -/
def ThiefPc.locked {α : Type} : ThiefPc α → Bool
  | .idle => false
  | .empty => false
  | .emptyBottom _ => false
  | .emptyTop _ => false
  | .tryLock => false
  | _ => true

/-- The deque, its threads, and the ghost. -/
structure State (α : Type) where
  deque : BlockingDeque α
  owner : OwnerPc α
  thief : ℕ → ThiefPc α
  /-- Ghost: the calls, the returns, and the instants at which operations take effect. -/
  log : List (Linearize.Event Thread (Op α) (Res α))

/-- A new deque that no thread is using. -/
def State.new {α : Type} (log2 : ℕ) (mem : ℕ → ℕ → α) : State α where
  deque := BlockingDeque.new log2 mem
  owner := .idle
  thief := fun _ => .idle
  log := []

/-- The thread `c` is in its locked region. -/
def State.holds {α : Type} (s : State α) : Thread → Bool
  | .owner => s.owner.locked
  | .thief n => (s.thief n).locked

/-- Who takes the next step, and which call it starts. -/
inductive Act (α : Type)
  /-- The owner calls `push(v)`. -/
  | push (v : α)
  /-- The owner calls `pop()`. -/
  | pop
  /-- The owner's call goes on; where it may fail, `fails` says whether it does. -/
  | owner (fails : Bool)
  /-- The `n`-th thief calls `steal()`. -/
  | steal (n : ℕ)
  /-- The call of the `n`-th thief goes on. -/
  | thief (n : ℕ)
  /-- The call of `c` goes on, with the load of `m_bottom` in `empty_relaxed`. -/
  | bottomFirst (c : Thread)
deriving DecidableEq, Repr

/-! ## The steps -/

section steps

variable {α : Type}

/-- The owner goes on in a deque that is now `d`. -/
def State.go (s : State α) (d : BlockingDeque α) (pc : OwnerPc α) : State α :=
  { s with deque := d, owner := pc }

/-- The thief `n` goes on in a deque that is now `d`. -/
def State.goThief (s : State α) (n : ℕ) (d : BlockingDeque α) (pc : ThiefPc α) : State α :=
  { s with deque := d, thief := Function.update s.thief n pc }

/-- Events of the history. -/
def State.logged (s : State α) (es : List (Linearize.Event Thread (Op α) (Res α))) : State α :=
  { s with log := s.log ++ es }

/-- Between two calls, the owner calls the operation `o`, whose first access is `pc`. -/
def ownerCall (s : State α) (o : Op α) (pc : OwnerPc α) : Option (State α) :=
  match s.owner with
  | .idle => some ((s.go s.deque pc).logged [.call .owner o])
  | _ => none

/-- Between two calls, the thief `n` calls `steal`. -/
def stealCall (s : State α) (n : ℕ) : Option (State α) :=
  match s.thief n with
  | .idle => some ((s.goThief n s.deque .empty).logged [.call (.thief n) .steal])
  | _ => none

/-- `push(val)` ends with an exception. -/
def pushThrows (s : State α) (val : α) : State α :=
  (s.go s.deque .idle).logged [.point .owner (.push val) .threw, .ret .owner .threw]

/-- Where `lock` was called from. -/
def afterLock : Locker α → OwnerPc α
  | .push val => .pushBottom val
  | .pop => .popBottom

/-- A compare-exchange of `lock`. -/
def lockExchange (s : State α) (k : Locker α) (fails : Bool) : State α :=
  if s.deque.mFlag = 0 ∧ fails = false then s.go { s.deque with mFlag := 1 } (afterLock k)
  else s.go s.deque (.lockLoad k)

/-- The head of the loop of `resize`. -/
def copyNext (val : α) (bottom : ℤ) (buf ptr : ℕ) (i : ℤ) : OwnerPc α :=
  if i ≠ bottom then .copyLoad val bottom buf ptr i else .pushGarbage val bottom buf ptr

/-- `empty_relaxed` has loaded both indices. Source: `deque_blocking.hpp`, `pop` -/
def popUnless (s : State α) (top bottom : ℤ) : State α :=
  if top ≥ bottom then
    (s.go s.deque .idle).logged [.point .owner .pop (.popped none), .ret .owner (.popped none)]
  else s.go s.deque (.lock .pop)

/-- One access of the owner, `none` between two calls. Source: `deque_blocking.hpp`, `push`,
`pop`, `lock`, `unlock`, `empty_relaxed`, `resize` -/
def ownerStep (s : State α) (fails : Bool) : Option (State α) :=
  let d := s.deque
  match s.owner with
  | .idle => none
  | .empty => some (s.go d (.emptyBottom d.mTop))
  | .emptyBottom top => some (popUnless s top d.mBottom)
  | .emptyTop bottom => some (popUnless s d.mTop bottom)
  | .lock k => some (lockExchange s k false)
  | .lockLoad k => some (s.go d (if d.mFlag = 0 then .lockWeak k else .lockLoad k))
  | .lockWeak k => some (lockExchange s k fails)
  | .pushBottom val => some (s.go d (.pushTop val d.mBottom))
  | .pushTop val bottom => some (s.go d (.pushBuf val bottom d.mTop))
  | .pushBuf val bottom top =>
      let buf := d.mBuf
      if ((d.heap buf).capacity : ℤ) < (bottom - top) + 1 then
        if fails then some (pushThrows s val)
        else some (s.go (d.allocate buf) (copyNext val bottom buf d.next top))
      else some (s.go d (.pushStore val bottom buf))
  | .copyLoad val bottom buf ptr i =>
      some (s.go d (.copyStore val bottom buf ptr i ((d.heap buf).load i)))
  | .copyStore val bottom buf ptr i loaded =>
      some (s.go (d.store ptr i loaded) (copyNext val bottom buf ptr (i + 1)))
  | .pushGarbage val bottom buf bigger =>
      -- the vector has room for `k_garbage_reserve` entries, and may have to grow for more
      if kGarbageReserve ≤ d.mGarbage.length ∧ fails then some (pushThrows s val)
      else some (s.go { d with mGarbage := d.mGarbage ++ [buf] } (.pushSwap val bottom bigger))
  | .pushSwap val bottom bigger =>
      some (s.go { d with mBuf := bigger } (.pushStore val bottom bigger))
  | .pushStore val bottom buf => some (s.go (d.store buf bottom val) (.pushPublish val bottom))
  | .pushPublish val bottom =>
      some ((s.go { d with mBottom := bottom + 1 } (.unlock .pushed)).logged
        [.point .owner (.push val) .pushed])
  | .popBottom => some (s.go d (.popTop (d.mBottom - 1)))
  | .popTop bottom => some (s.go d (.popBuf bottom d.mTop))
  | .popBuf bottom top =>
      if top ≤ bottom then some (s.go d (.popStore bottom d.mBuf))
      else
        some ((s.go d (.unlock (.popped none))).logged [.point .owner .pop (.popped none)])
  | .popStore bottom buf =>
      some ((s.go { d with mBottom := bottom } (.popLoad bottom buf)).logged
        [.point .owner .pop (.popped (some ((d.heap buf).load bottom)))])
  | .popLoad bottom buf => some (s.go d (.unlock (.popped (some ((d.heap buf).load bottom)))))
  | .unlock r => some ((s.go { d with mFlag := 0 } .idle).logged [.ret .owner r])

/-- What `steal` returns with no item. -/
def noItem [Inhabited α] (code : Err) : StealT α := ⟨code, default⟩

/-- `empty_relaxed` has loaded both indices. Source: `deque_blocking.hpp`, `steal` -/
def stealUnless [Inhabited α] (s : State α) (n : ℕ) (top bottom : ℤ) : State α :=
  if top ≥ bottom then
    (s.goThief n s.deque .idle).logged
      [.point (.thief n) .steal (.stolen (noItem .empty)),
        .ret (.thief n) (.stolen (noItem .empty))]
  else s.goThief n s.deque .tryLock

/-- One access of the thief `n`, `none` between two calls. Source: `deque_blocking.hpp`, `steal`,
`try_lock`, `unlock`, `empty_relaxed` -/
def thiefStep [Inhabited α] (s : State α) (n : ℕ) : Option (State α) :=
  let d := s.deque
  match s.thief n with
  | .idle => none
  | .empty => some (s.goThief n d (.emptyBottom d.mTop))
  | .emptyBottom top => some (stealUnless s n top d.mBottom)
  | .emptyTop bottom => some (stealUnless s n d.mTop bottom)
  | .tryLock =>
      if d.mFlag = 0 then some (s.goThief n { d with mFlag := 1 } .top)
      else
        some ((s.goThief n d .idle).logged
          [.point (.thief n) .steal (.stolen (noItem .lost)),
            .ret (.thief n) (.stolen (noItem .lost))])
  | .top => some (s.goThief n d (.bottom d.mTop))
  | .bottom top => some (s.goThief n d (.buf top d.mBottom))
  | .buf top bottom =>
      if top < bottom then some (s.goThief n d (.load top d.mBuf))
      else
        some ((s.goThief n d (.unlock (noItem .empty))).logged
          [.point (.thief n) .steal (.stolen (noItem .empty))])
  | .load top buf => some (s.goThief n d (.store top ((d.heap buf).load top)))
  | .store top val =>
      some ((s.goThief n { d with mTop := top + 1 } (.unlock ⟨.none, val⟩)).logged
        [.point (.thief n) .steal (.stolen ⟨.none, val⟩)])
  | .unlock r =>
      some ((s.goThief n { d with mFlag := 0 } .idle).logged [.ret (.thief n) (.stolen r)])

/-- The call of `c` loads the bottom first. Source: `deque_blocking.hpp`, `empty_relaxed` -/
def bottomFirstStep (s : State α) : Thread → Option (State α)
  | .owner =>
      match s.owner with
      | .empty => some (s.go s.deque (.emptyTop s.deque.mBottom))
      | _ => none
  | .thief n =>
      match s.thief n with
      | .empty => some (s.goThief n s.deque (.emptyTop s.deque.mBottom))
      | _ => none

/-- The machine of one owner and any number of thieves. -/
def machine (α : Type) [Inhabited α] : Machine (State α) (Act α) where
  step s
    | .push v => ownerCall s (.push v) (.lock (.push v))
    | .pop => ownerCall s .pop .empty
    | .owner fails => ownerStep s fails
    | .steal n => stealCall s n
    | .thief n => thiefStep s n
    | .bottomFirst c => bottomFirstStep s c

end steps

end Libfork.Deque.Blocking
