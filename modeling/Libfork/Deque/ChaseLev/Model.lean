import Libfork.Deque.Common
import Libfork.Found.Machine
import Libfork.Found.Ring
import Mathlib.Algebra.Ring.Int.Defs
import Mathlib.Algebra.Ring.Nat

/-!
# `chase_lev_deque` as a machine of atomic steps

One owner calls `push` and `pop`, any number of thieves call `steal`. Every access to `m_top`,
`m_bottom`, `m_buf` and every access to a slot of a buffer is one step of the machine, and the
steps of the threads interleave in any order (sequential consistency).

* `AtomicRingBuf α` — `atomic_ring_buf`, a power of two of slots.
* `ChaseLevDeque α` — the deque, and the memory in which its buffers live: `mBuf` and the entries
  of `mGarbage` are addresses in `heap`, and `next` is the next address to be allocated. What a
  new buffer holds before it is written is whatever is in the memory there.
* `OwnerPc`, `ThiefPc` — where a call stands, with its locals; `resize` is inlined into `push`.
* `State.log`, `State.occ`, and the occurrence carried by a `pop` that has claimed one, are
  ghosts. An item counts as pushed when `m_bottom` is published; a pop claims it when it loads a
  smaller top, or with its compare-exchange; a steal claims it with its compare-exchange and
  returns what it read before.

Source: `deque_chase_lev.hpp`, `atomic_ring_buf`, `push`, `pop`, `steal`.
-/

namespace Libfork.Deque.ChaseLev

open Libfork.Found

/-! ## Buffers -/

/-- A buffer of a power of two of slots. Source: `deque_chase_lev.hpp`, `atomic_ring_buf` -/
structure AtomicRingBuf (α : Type) where
  /-- The binary logarithm of `m_cap`. -/
  log2 : ℕ
  slots : ℕ → α

namespace AtomicRingBuf

variable {α : Type} (b : AtomicRingBuf α)

/-- Source: `deque_chase_lev.hpp`, `atomic_ring_buf::capacity` -/
def capacity : ℕ := 2 ^ b.log2

/-- `index & m_mask`. Source: `deque_chase_lev.hpp`, `atomic_ring_buf` -/
def slot (index : ℤ) : ℕ := index.toNat &&& (b.capacity - 1)

/-- Source: `deque_chase_lev.hpp`, `atomic_ring_buf::load` -/
def load (index : ℤ) : α := b.slots (b.slot index)

/-- Source: `deque_chase_lev.hpp`, `atomic_ring_buf::store` -/
def store (index : ℤ) (val : α) : AtomicRingBuf α :=
  { b with slots := Function.update b.slots (b.slot index) val }

/-- `new atomic_ring_buf{2 * m_cap}` over the memory `mem`.
Source: `deque_chase_lev.hpp`, `atomic_ring_buf::resize` -/
def double (mem : ℕ → α) : AtomicRingBuf α where
  log2 := b.log2 + 1
  slots := mem

variable {b}

/-- There is a slot at least. -/
theorem capacity_pos : 0 < b.capacity := Nat.two_pow_pos _

/-- The mask is the remainder. -/
theorem slot_eq_mod (index : ℤ) : b.slot index = index.toNat % b.capacity := by
  unfold slot capacity
  exact Nat.and_two_pow_sub_one_eq_mod _ _

/-- A store keeps the capacity. -/
@[simp] theorem capacity_store (index : ℤ) (val : α) : (b.store index val).capacity = b.capacity :=
  rfl

/-- A bigger buffer has twice the slots. -/
theorem capacity_double (mem : ℕ → α) : (b.double mem).capacity = 2 * b.capacity := by
  unfold capacity double
  exact Nat.pow_succ'

/-- What was stored is loaded. -/
@[simp] theorem load_store_self (index : ℤ) (val : α) : (b.store index val).load index = val := by
  show Function.update b.slots (b.slot index) val (b.slot index) = val
  rw [Function.update_self]

/-- A store leaves the items less than a capacity away alone. -/
theorem load_store_of_ne {i j : ℤ} (val : α) (hi : 0 ≤ i) (hj : 0 ≤ j) (hne : i ≠ j)
    (h₁ : i < j + b.capacity) (h₂ : j < i + b.capacity) :
    (b.store j val).load i = b.load i := by
  show Function.update b.slots (b.slot j) val (b.slot i) = b.slots (b.slot i)
  apply Function.update_of_ne
  rw [slot_eq_mod, slot_eq_mod]
  rcases Int.lt_or_gt_of_ne hne with hlt | hgt
  · exact mod_ne_of_lt_add (by omega) (by omega)
  · exact (mod_ne_of_lt_add (by omega) (by omega)).symm

end AtomicRingBuf

/-! ## The state -/

/-- Source: `deque_chase_lev.hpp`, class `chase_lev_deque` -/
structure ChaseLevDeque (α : Type) where
  mTop : ℤ
  mBottom : ℤ
  mBuf : ℕ
  mGarbage : List ℕ
  heap : ℕ → AtomicRingBuf α
  next : ℕ

namespace ChaseLevDeque

variable {α : Type}

/-- Source: `deque_chase_lev.hpp`, `chase_lev_deque::chase_lev_deque` -/
def new (log2 : ℕ) (mem : ℕ → ℕ → α) : ChaseLevDeque α where
  mTop := 0
  mBottom := 0
  mBuf := 0
  mGarbage := []
  heap := fun p => ⟨log2, mem p⟩
  next := 1

/-- A store into the buffer `buf`. -/
def store (d : ChaseLevDeque α) (buf : ℕ) (index : ℤ) (val : α) : ChaseLevDeque α :=
  { d with heap := Function.update d.heap buf ((d.heap buf).store index val) }

/-- A new buffer twice as large as `buf`. -/
def allocate (d : ChaseLevDeque α) (buf : ℕ) : ChaseLevDeque α :=
  { d with
    heap := Function.update d.heap d.next ((d.heap buf).double (d.heap d.next).slots)
    next := d.next + 1 }

end ChaseLevDeque

/-- The next access of the owner. -/
inductive OwnerPc (α : Type)
  /-- Between two calls; the first access of a call is `m_bottom.load()`. -/
  | idle
  /-- `push`: `m_top.load()`. -/
  | pushTop (val : α) (bottom : ℤ)
  /-- `push`: `m_buf.load()`. -/
  | pushBuf (val : α) (bottom top : ℤ)
  /-- `resize`: `load(i)`. -/
  | copyLoad (val : α) (bottom top : ℤ) (buf ptr : ℕ) (i : ℤ)
  /-- `resize`: `ptr->store(i, ..)`. -/
  | copyStore (val : α) (bottom top : ℤ) (buf ptr : ℕ) (i : ℤ) (loaded : α)
  /-- `push`: `m_buf.store(buf)`. -/
  | pushSwap (val : α) (bottom top : ℤ) (buf bigger : ℕ)
  /-- `push`: `buf->store(bottom, val)`. -/
  | pushStore (val : α) (bottom : ℤ) (buf : ℕ)
  /-- `push`: `m_bottom.store(bottom + 1)`. -/
  | pushBottom (val : α) (bottom : ℤ)
  /-- `pop`: `m_buf.load()`. -/
  | popBuf (bottom : ℤ)
  /-- `pop`: `m_bottom.store(bottom)`. -/
  | popBottom (bottom : ℤ) (buf : ℕ)
  /-- `pop`: `m_top.load()`. -/
  | popTop (bottom : ℤ) (buf : ℕ)
  /-- `pop`: `m_top.compare_exchange_strong(top, top + 1)`. -/
  | popExchange (bottom top : ℤ) (buf : ℕ)
  /-- `pop`: `m_bottom.store(bottom + 1)` after the last item was won, claiming `k`. -/
  | popWon (bottom : ℤ) (buf : ℕ) (k : ℕ)
  /-- `pop`: `m_bottom.store(bottom + 1)` before `when_empty`. -/
  | popRestore (bottom : ℤ)
  /-- `pop`: `buf->load(bottom)`, after claiming `k`. -/
  | popLoad (bottom : ℤ) (buf : ℕ) (k : ℕ)

/-- The next access of a thief. -/
inductive ThiefPc (α : Type)
  /-- Between two calls; the first access of a call is `m_top.load()`. -/
  | idle
  /-- `m_bottom.load()`. -/
  | bottom (top : ℤ)
  /-- `m_buf.load()`. -/
  | buf (top : ℤ)
  /-- `..->load(top)`. -/
  | load (top : ℤ) (buf : ℕ)
  /-- `m_top.compare_exchange_strong(top, top + 1)`. -/
  | exchange (top : ℤ) (tmp : α)

/-- The deque, its threads, and the ghosts. -/
structure State (α : Type) where
  deque : ChaseLevDeque α
  owner : OwnerPc α
  thief : ℕ → ThiefPc α
  /-- Ghost: the last occurrence pushed at an index. -/
  occ : ℕ → ℕ
  /-- Ghost: what has happened so far. -/
  log : List (Event ℕ α Thread)

/-- A new deque that no thread is using. -/
def State.new {α : Type} (log2 : ℕ) (mem : ℕ → ℕ → α) : State α where
  deque := ChaseLevDeque.new log2 mem
  owner := .idle
  thief := fun _ => .idle
  occ := fun _ => 0
  log := []

/-- Who takes the next step, and which call it starts. -/
inductive Act (α : Type)
  /-- The owner calls `push(v)`. -/
  | push (v : α)
  /-- The owner calls `pop()`. -/
  | pop
  /-- The owner's call goes on. -/
  | owner
  /-- The `n`-th thief takes a step; a thief between two calls starts a `steal()`. -/
  | thief (n : ℕ)
deriving DecidableEq, Repr

/-! ## The steps -/

section steps

variable {α : Type}

/-- The head of the loop of `resize`. -/
def copyNext (val : α) (bottom top : ℤ) (buf ptr : ℕ) (i : ℤ) : OwnerPc α :=
  if i ≠ bottom then .copyLoad val bottom top buf ptr i else .pushSwap val bottom top buf ptr

/-- One access of the owner, `none` between two calls. -/
def ownerStep (s : State α) : Option (State α) :=
  let d := s.deque
  match s.owner with
  | .idle => none
  | .pushTop val bottom => some { s with owner := .pushBuf val bottom d.mTop }
  | .pushBuf val bottom top =>
      let buf := d.mBuf
      if ((d.heap buf).capacity : ℤ) < (bottom - top) + 1 then
        some { s with
          deque := d.allocate buf
          owner := copyNext val bottom top buf d.next top }
      else some { s with owner := .pushStore val bottom buf }
  | .copyLoad val bottom top buf ptr i =>
      some { s with owner := .copyStore val bottom top buf ptr i ((d.heap buf).load i) }
  | .copyStore val bottom top buf ptr i loaded =>
      some { s with
        deque := d.store ptr i loaded
        owner := copyNext val bottom top buf ptr (i + 1) }
  | .pushSwap val bottom _ buf bigger =>
      some { s with
        deque := { d with mGarbage := d.mGarbage ++ [buf], mBuf := bigger }
        owner := .pushStore val bottom bigger }
  | .pushStore val bottom buf =>
      some { s with deque := d.store buf bottom val, owner := .pushBottom val bottom }
  | .pushBottom val bottom =>
      some { s with
        deque := { d with mBottom := bottom + 1 }
        owner := .idle
        occ := Function.update s.occ bottom.toNat (pushes s.log).length
        log := s.log ++ [.push bottom.toNat val] }
  | .popBuf bottom => some { s with owner := .popBottom bottom d.mBuf }
  | .popBottom bottom buf =>
      some { s with deque := { d with mBottom := bottom }, owner := .popTop bottom buf }
  | .popTop bottom buf =>
      let top := d.mTop
      if top ≤ bottom then
        if top = bottom then some { s with owner := .popExchange bottom top buf }
        else
          let k := s.occ bottom.toNat
          some { s with owner := .popLoad bottom buf k, log := s.log ++ [.claim .owner k] }
      else some { s with owner := .popRestore bottom }
  | .popExchange bottom top buf =>
      if d.mTop = top then
        let k := s.occ bottom.toNat
        some { s with
          deque := { d with mTop := top + 1 }
          owner := .popWon bottom buf k
          log := s.log ++ [.claim .owner k] }
      else some { s with owner := .popRestore bottom }
  | .popWon bottom buf k =>
      some { s with
        deque := { d with mBottom := bottom + 1 }
        owner := .popLoad bottom buf k }
  | .popRestore bottom =>
      some { s with
        deque := { d with mBottom := bottom + 1 }
        owner := .idle
        log := s.log ++ [.empty] }
  | .popLoad bottom buf k =>
      some { s with
        owner := .idle
        log := s.log ++ [.deliver .owner k bottom.toNat ((d.heap buf).load bottom)] }

/-- One access of the thief `n`. -/
def thiefStep (s : State α) (n : ℕ) : State α :=
  let d := s.deque
  let goto := fun pc => { s with thief := Function.update s.thief n pc }
  match s.thief n with
  | .idle => goto (.bottom d.mTop)
  | .bottom top => if top < d.mBottom then goto (.buf top) else goto .idle
  | .buf top => goto (.load top d.mBuf)
  | .load top buf => goto (.exchange top ((d.heap buf).load top))
  | .exchange top tmp =>
      if d.mTop = top then
        let k := s.occ top.toNat
        { s with
          deque := { d with mTop := top + 1 }
          thief := Function.update s.thief n .idle
          log := s.log ++ [.claim (.thief n) k] ++ [.deliver (.thief n) k top.toNat tmp] }
      else goto .idle

/-- The machine of one owner and any number of thieves. -/
def machine (α : Type) : Machine (State α) (Act α) where
  step s
    | .push v => match s.owner with
        | .idle => some { s with owner := .pushTop v s.deque.mBottom }
        | _ => none
    | .pop => match s.owner with
        | .idle => some { s with owner := .popBuf (s.deque.mBottom - 1) }
        | _ => none
    | .owner => ownerStep s
    | .thief n => some (thiefStep s n)

end steps

end Libfork.Deque.ChaseLev
