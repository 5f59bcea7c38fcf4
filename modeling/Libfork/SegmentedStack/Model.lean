import Libfork.Found.Heap
import Libfork.Found.Machine
import Libfork.SegmentedStack.Word
import Mathlib.Logic.Function.Basic

/-!
# The segmented stack and its clients

A stack is a doubly linked chain of stacklets, from the root up to the top `m_fib`, with at most
one cached stacklet ahead of the top. Stacklets are chunks of a heap; what `malloc` returns is up
to the environment.

* `Store` — the headers of the stacklets by address, and the heap.
* `Stack` — the class `stack`: `allocate`, `deallocate`, and `co_new` on top of them. An operation
  that throws returns no pointer, and the stack as the exception leaves it.
* `Act`, `machine` — the calls of a client that deallocates in last-in-first-out order. Every
  successful `malloc` returns a fresh aligned block, `Stack.Grants`.

The blocks of the client are ghosts, and so is what `Heap` counts.

Source: `stack.hpp`; `awaitables.hpp`, `alloc_awaitable`.
-/

namespace Libfork.SegmentedStack

open Libfork.Found

/-! ## Stacklets -/

/-- The header of a stacklet. Source: `stack.hpp`, `class stacklet` -/
structure Stacklet where
  mLo : ℕ
  mSp : ℕ
  mHi : ℕ
  mPrev : Option ℕ
  mNext : Option ℕ
deriving DecidableEq, Repr

namespace Stacklet

/-- Source: `stack.hpp`, `stacklet::capacity` -/
def capacity (f : Stacklet) : Size := BitVec.ofInt 64 ((f.mHi : ℤ) - f.mLo)

/-- Source: `stack.hpp`, `stacklet::unused` -/
def unused (f : Stacklet) : Size := BitVec.ofInt 64 ((f.mHi : ℤ) - f.mSp)

/-- Source: `stack.hpp`, `stacklet::empty` -/
def empty (f : Stacklet) : Bool := f.mSp == f.mLo

end Stacklet

/-- The memory the stacklets are in. -/
structure Store where
  stacklet : ℕ → Stacklet
  heap : Heap

namespace Store

/-- Memory without a stacklet. -/
def empty : Store where
  stacklet := fun _ => ⟨0, 0, 0, none, none⟩
  heap := Heap.empty

/-- The header of one stacklet is written. -/
def set (st : Store) (a : ℕ) (f : Stacklet) : Store :=
  { st with stacklet := Function.update st.stacklet a f }

/-- `std::free`. -/
def free (st : Store) : Option ℕ → Store
  | none => st
  | some p => { st with heap := st.heap.free p }

/-- The next stacklet of `a` is one cached stacklet at most.
Source: `stack.hpp`, `stacklet::is_top` -/
def isTop (st : Store) (a : ℕ) : Bool :=
  (st.stacklet a).mNext.all fun c => (st.stacklet c).empty && (st.stacklet c).mNext == none

/-- The pointer is exchanged, and what it was is freed. Source: `stack.hpp`, `stacklet::set_next` -/
def setNext (st : Store) (a : ℕ) (new : Option ℕ) : Store :=
  (st.set a { st.stacklet a with mNext := new }).free (st.stacklet a).mNext

/-- `prev->set_next(next)`, where there is a `prev`. -/
def attach (st : Store) (next : ℕ) : Option ℕ → Store
  | none => st
  | some prev => st.setNext prev (some next)

/-- A stacklet with room for `size` bytes after `prev`. `got` is what `malloc` returns; nothing is
returned where `std::bad_alloc` is thrown. Source: `stack.hpp`, `stacklet::next_stacklet` -/
def nextStacklet (st : Store) (size : Size) (prev : Option ℕ) : Option ℕ → Option ℕ × Store
  | none => (none, st)
  | some next =>
      let n := (request size).toNat
      let st := { st with heap := st.heap.malloc next n }
      let st := st.attach next prev
      (some next, st.set next ⟨next + 48, next + 48, next + n, prev, none⟩)

end Store

/-! ## The stack -/

/-- Source: `stack.hpp`, `class stack` -/
structure Stack where
  store : Store
  mFib : ℕ

namespace Stack

/-- The header of the top stacklet. -/
def fib (s : Stack) : Stacklet := s.store.stacklet s.mFib

/-- A stack on its own, whose root was allocated at `p`. Source: `stack.hpp`, `stack::stack` -/
def new (p : ℕ) : Stack where
  store := (Store.empty.nextStacklet kFibreInitSize none (some p)).2
  mFib := p

/-- Source: `stack.hpp`, `stack::empty` -/
def empty (s : Stack) : Bool := s.fib.empty && s.fib.mPrev == none

/-- Source: `stack.hpp`, `stack::top` -/
def top (s : Stack) : ℕ := s.mFib

/-- `m_fib->m_sp = ptr`. -/
def setSp (s : Stack) (ptr : ℕ) : Stack :=
  { s with store := s.store.set s.mFib { s.fib with mSp := ptr } }

/-- `std::exchange(m_fib->m_sp, m_fib->m_sp + ext_size)`. -/
def bump (s : Stack) (ext : Size) : Option ℕ × Stack :=
  (some s.fib.mSp, s.setSp (s.fib.mSp + ext.toNat))

/-- The cached stacklet, where it has room for `ext` bytes. -/
def cached (s : Stack) (ext : Size) : Option ℕ :=
  s.fib.mNext.filter fun c => ext ≤ (s.store.stacklet c).capacity

/-- The room a new stacklet is given: `std::max(2 * m_fib->capacity(), ext_size)`. -/
def growth (s : Stack) (ext : Size) : Size :=
  if 2 * s.fib.capacity < ext then ext else 2 * s.fib.capacity

/-- The stack moves on to the new stacklet, unless there is none. -/
def enter (s : Stack) (ext : Size) : Option ℕ × Store → Option ℕ × Stack
  | (none, st) => (none, { s with store := st })
  | (some next, st) => bump ⟨st, next⟩ ext

/-- A block of `size` bytes. Source: `stack.hpp`, `stack::allocate` -/
def allocate (s : Stack) (size : Size) (got : Option ℕ) : Option ℕ × Stack :=
  let ext := extSize size
  if s.fib.unused < ext then
    match s.cached ext with
    | some next => { s with mFib := next }.bump ext
    | none => s.enter ext (s.store.nextStacklet (s.growth ext) (some s.mFib) got)
  else s.bump ext

/-- An empty stacklet that is not the root is left: the one cached ahead of it is freed, and it
becomes the cached one. -/
def stepDown (s : Stack) : Stack :=
  match s.fib.mPrev with
  | none => s
  | some prev => ⟨s.store.setNext s.mFib none, prev⟩

/-- The guard against over-caching. -/
def trim (s : Stack) : Stack :=
  match s.fib.mNext.filter fun c => 8 * s.fib.capacity < (s.store.stacklet c).capacity with
  | none => s
  | some _ => { s with store := s.store.setNext s.mFib none }

/-- Source: `stack.hpp`, `stack::deallocate` -/
def deallocate (s : Stack) (ptr : ℕ) : Stack :=
  let s := s.setSp ptr
  if s.fib.empty then s.stepDown.trim else s

/-- `co_new` of `count` elements of `elem` bytes in a task whose frame holds `frame` as its
stacklet. `throws` tells whether the construction of the elements throws. The result is the
pointer, the stack and the stacklet of the frame. Source: `awaitables.hpp`, `alloc_awaitable` -/
def coNew (s : Stack) (frame : ℕ) (count elem : Size) (got : Option ℕ) (throws : Bool) :
    Option ℕ × Stack × ℕ :=
  match s.allocate (count * elem) got with
  | (none, s') => (none, s', frame)
  | (some ptr, s') => if throws then (none, s'.deallocate ptr, frame) else (some ptr, s', s'.top)

/-- What `malloc` may return to a call that needs `size` bytes. -/
def Grants (s : Stack) (size : Size) (got : Option ℕ) : Prop :=
  ∀ p ∈ got, s.store.heap.Admits p (request (s.growth (extSize size))).toNat 16

instance (s : Stack) (size : Size) (got : Option ℕ) : Decidable (s.Grants size got) :=
  inferInstanceAs (Decidable (∀ p ∈ got, _))

end Stack

/-! ## Clients -/

/-- A block the client has not deallocated. -/
structure Block where
  ptr : ℕ
  /-- The number of bytes that were asked for. -/
  size : ℕ
deriving DecidableEq, Repr

/-- A stack and its client. -/
structure State where
  stack : Stack
  /-- Ghost: the blocks in use, the last one first. -/
  blocks : List Block

/-- What the client calls, with what the environment does in the call. -/
inductive Act
  | allocate (size : Size) (got : Option ℕ)
  | coNew (count elem : Size) (got : Option ℕ) (throws : Bool)
  | deallocate (ptr : ℕ)
deriving DecidableEq, Repr

namespace State

/-- A client of a new stack. -/
def new (p : ℕ) : State where
  stack := Stack.new p
  blocks := []

/-- A call has returned a block of `n` bytes, or thrown. -/
def took (s : State) (n : ℕ) : Option ℕ × Stack → State
  | (none, stack) => { s with stack }
  | (some ptr, stack) => ⟨stack, ⟨ptr, n⟩ :: s.blocks⟩

/-- The last block is given back. -/
def gave (s : State) (ptr : ℕ) : List Block → Option State
  | [] => none
  | b :: bs => if b.ptr = ptr then some ⟨s.stack.deallocate ptr, bs⟩ else none

/-- One call. -/
def step (s : State) : Act → Option State
  | .allocate size got =>
      if s.stack.Grants size got then some (s.took size.toNat (s.stack.allocate size got))
      else none
  | .coNew count elem got throws =>
      if s.stack.Grants (count * elem) got then
        let r := s.stack.coNew s.stack.top count elem got throws
        some (s.took (count.toNat * elem.toNat) (r.1, r.2.1))
      else none
  | .deallocate ptr => s.gave ptr s.blocks

end State

/-- The stack under its client. -/
def machine : Machine State Act where
  step := State.step

end Libfork.SegmentedStack
