import Libfork.Deque.ChaseLev.Model

/-!
# The invariant of `chase_lev_deque` under every interleaving

The items at the indices `[top, back)` are pushed and not claimed, where `back` is `m_bottom`
except inside a `pop`. They are in the current buffer, and a thief that has read one from a
retired buffer has read the same: an owner never writes a slot of an unclaimed item, and never
writes a retired buffer.
-/

namespace Libfork.Deque.ChaseLev

open Libfork.Found

variable {α : Type}

namespace State

/-- The top, as a number. -/
def top (s : State α) : ℕ := s.deque.mTop.toNat

/-- The buffers that a thread may be reading. -/
def bufs (s : State α) : List ℕ := s.deque.mBuf :: s.deque.mGarbage

/-- The item at an index, in the current buffer. -/
def item (s : State α) (i : ℤ) : α := (s.deque.heap s.deque.mBuf).load i

/-- The capacity of the current buffer. -/
def cap (s : State α) : ℕ := (s.deque.heap s.deque.mBuf).capacity

end State

/-- One past the last index that is pushed and not claimed by a `pop`. -/
def OwnerPc.back (mBottom : ℤ) : OwnerPc α → ℤ
  | .popTop b _ | .popExchange b _ _ | .popWon b _ _ | .popRestore b => b + 1
  | _ => mBottom

/-- One past the last index that is pushed and not claimed by a `pop`. -/
def State.back (s : State α) : ℕ := (s.owner.back s.deque.mBottom).toNat

/-- The first access of `push` has been made: `bottom` is `m_bottom`, and the loaded top `t` is
at most the top. -/
structure Pushing (s : State α) (b t : ℤ) : Prop where
  bottom : s.deque.mBottom = b
  bottom_nonneg : 0 ≤ b
  top_nonneg : 0 ≤ t
  top_le : t ≤ s.deque.mTop
  room : b ≤ t + s.cap

/-- `resize` has copied the indices below `i` to the buffer `q`, which no thief can see. -/
structure Copying (s : State α) (b t : ℤ) (p q : ℕ) (i : ℤ) : Prop extends Pushing s b t where
  buf : p = s.deque.mBuf
  fresh : q ∉ s.bufs
  lt_next : q < s.deque.next
  double : (s.deque.heap q).capacity = 2 * s.cap
  le_i : t ≤ i
  i_le : i ≤ b
  copied : ∀ j, s.deque.mTop ≤ j → j < i → (s.deque.heap q).load j = s.item j

/-- What the owner's locals say about the deque. -/
def OwnerPc.Ok (s : State α) : OwnerPc α → Prop
  | .idle => 0 ≤ s.deque.mBottom
  | .pushTop _ b => s.deque.mBottom = b ∧ 0 ≤ b
  | .pushBuf _ b t => Pushing s b t
  | .copyLoad _ b t p q i => Copying s b t p q i ∧ i < b
  | .copyStore _ b t p q i x => Copying s b t p q i ∧ i < b ∧ (s.deque.mTop ≤ i → x = s.item i)
  | .pushSwap _ b t p q => Copying s b t p q b
  | .pushStore _ b p => s.deque.mBottom = b ∧ 0 ≤ b ∧ p = s.deque.mBuf ∧
      b < s.deque.mTop + s.cap
  | .pushBottom v b => s.deque.mBottom = b ∧ 0 ≤ b ∧ s.item b = v ∧ b < s.deque.mTop + s.cap
  | .popBuf b => s.deque.mBottom = b + 1 ∧ -1 ≤ b
  | .popBottom b p => s.deque.mBottom = b + 1 ∧ -1 ≤ b ∧ p = s.deque.mBuf
  | .popTop b p => s.deque.mBottom = b ∧ -1 ≤ b ∧ p = s.deque.mBuf
  | .popExchange b t p => s.deque.mBottom = b ∧ 0 ≤ b ∧ t = b ∧ t ≤ s.deque.mTop ∧
      p = s.deque.mBuf
  | .popWon b p k => s.deque.mBottom = b ∧ 0 ≤ b ∧ s.deque.mTop = b + 1 ∧ p = s.deque.mBuf ∧
      (pushes s.log)[k]? = some (b.toNat, s.item b)
  | .popRestore b => s.deque.mBottom = b ∧ -1 ≤ b ∧ s.deque.mTop = b + 1
  | .popLoad b p k => 0 ≤ s.deque.mBottom ∧ p = s.deque.mBuf ∧
      (pushes s.log)[k]? = some (b.toNat, s.item b)

/-- What a thief's locals say about the deque: if the top has not moved since the thief loaded
it, there is an item at it, and it is the one the thief has read. -/
def ThiefPc.Ok (s : State α) : ThiefPc α → Prop
  | .idle => True
  | .bottom t => 0 ≤ t ∧ t ≤ s.deque.mTop
  | .buf t => 0 ≤ t ∧ t ≤ s.deque.mTop ∧ (s.deque.mTop = t → t < s.back)
  | .load t p => 0 ≤ t ∧ t ≤ s.deque.mTop ∧ p ∈ s.bufs ∧
      (s.deque.mTop = t → t < s.back ∧ (s.deque.heap p).load t = s.item t)
  | .exchange t x => 0 ≤ t ∧ t ≤ s.deque.mTop ∧ (s.deque.mTop = t → t < s.back ∧ x = s.item t)

/-- The occurrence that a `pop` has claimed and not returned yet. -/
def OwnerPc.holds : OwnerPc α → Option ℕ
  | .popWon _ _ k | .popLoad _ _ k => some k
  | _ => none

/-- The occurrence that the call of a thread has claimed and not returned yet. -/
def State.holds (s : State α) : Thread → Option ℕ
  | .owner => s.owner.holds
  | .thief _ => none

/-- **The invariant.** -/
structure Inv (s : State α) : Prop where
  top_nonneg : 0 ≤ s.deque.mTop
  top_le : s.top ≤ s.back
  room : s.back ≤ s.top + s.cap
  alive : ∀ p ∈ s.bufs, p < s.deque.next
  slots : ∀ i : ℕ, s.top ≤ i → i < s.back → (pushes s.log)[s.occ i]? = some (i, s.item i)
  owner : s.owner.Ok s
  thieves : ∀ n, (s.thief n).Ok s
  ideal : Ideal Thread.side s.log (occurrences s.occ s.top s.back) s.holds

end Libfork.Deque.ChaseLev
