import Libfork.Deque.Plain
import Libfork.Deque.Stored

/-!
# The calls of `chase_lev_deque`, one at a time

The public calls as functions of the deque. They are what the machine does when one thread takes
all the steps:

* **`solo_push`, `solo_pop`, `solo_steal`** — from any state of the machine in which the caller
  is between two calls, the caller alone takes its call to its end and leaves the deque that the
  function computes.

Source: `deque_chase_lev.hpp`, `push`, `pop`, `steal`, `size`, `ssize`, `empty`, `capacity`.
-/

namespace Libfork.Deque.ChaseLev

open Libfork.Found

/-! ## The functions -/

namespace ChaseLevDeque

variable {α : Type} (d : ChaseLevDeque α)

/-- The current buffer. -/
def buffer : AtomicRingBuf α := d.heap d.mBuf

/-- `bigger` is allocated and replaces the current buffer.
Source: `deque_chase_lev.hpp`, `push` -/
def adopt (bigger : AtomicRingBuf α) : ChaseLevDeque α :=
  { d with
    heap := Function.update d.heap d.next bigger
    next := d.next + 1
    mGarbage := d.mGarbage ++ [d.mBuf]
    mBuf := d.next }

/-- `if (buf->capacity() < (bottom - top) + 1) ..`. Source: `deque_chase_lev.hpp`, `push` -/
def reserve (bottom top : ℤ) : Option (ChaseLevDeque α) :=
  if (d.buffer.capacity : ℤ) < (bottom - top) + 1 then
    (d.buffer.resize (d.heap d.next).slots bottom top).map d.adopt
  else some d

/-- `buf->store(bottom, val)` and `m_bottom.store(bottom + 1)`.
Source: `deque_chase_lev.hpp`, `push` -/
def append (bottom : ℤ) (val : α) : ChaseLevDeque α :=
  { d.store d.mBuf bottom val with mBottom := bottom + 1 }

/-- Source: `deque_chase_lev.hpp`, `push` -/
def push (val : α) : Option (ChaseLevDeque α) :=
  let bottom := d.mBottom
  let top := d.mTop
  (d.reserve bottom top).map fun d => d.append bottom val

/-- `m_top.compare_exchange_strong(top, top + 1)`, `none` where it fails. -/
def exchangeTop (top : ℤ) : Option (ChaseLevDeque α) :=
  if d.mTop = top then some { d with mTop := top + 1 } else none

/-- `none` is the result of the default `when_empty`. Source: `deque_chase_lev.hpp`, `pop` -/
def pop : Option α × ChaseLevDeque α :=
  let bottom := d.mBottom - 1
  let d := { d with mBottom := bottom }
  let top := d.mTop
  if top ≤ bottom then
    if top = bottom then
      match d.exchangeTop top with
      | none => (none, { d with mBottom := bottom + 1 })
      | some d => (some (d.buffer.load bottom), { d with mBottom := bottom + 1 })
    else (some (d.buffer.load bottom), d)
  else (none, { d with mBottom := bottom + 1 })

/-- Source: `deque_chase_lev.hpp`, `steal` -/
def steal [Inhabited α] : StealT α × ChaseLevDeque α :=
  let top := d.mTop
  let bottom := d.mBottom
  if top < bottom then
    let tmp := d.buffer.load top
    match d.exchangeTop top with
    | none => (⟨.lost, default⟩, d)
    | some d => (⟨.none, tmp⟩, d)
  else (⟨.empty, default⟩, d)

/-- Source: `deque_chase_lev.hpp`, `ssize` -/
def ssize : ℤ := max (d.mBottom - d.mTop) 0

/-- Source: `deque_chase_lev.hpp`, `size` -/
def size : ℕ := d.ssize.toNat

/-- Source: `deque_chase_lev.hpp`, `empty` -/
def empty : Bool := decide (d.mTop ≥ d.mBottom)

/-- Source: `deque_chase_lev.hpp`, `chase_lev_deque::capacity` -/
def capacity : ℕ := d.buffer.capacity

end ChaseLevDeque

/-- The deque as an object that one thread uses. -/
def object (α : Type) [Inhabited α] : Object (ChaseLevDeque α) (Request α) (Reply α) where
  call d
    | .push val => (d.push val).map fun d => (.pushed, d)
    | .pop => some (.popped d.pop.1, d.pop.2)
    | .steal => some (.stolen d.steal.1, d.steal.2)
    | .size => some (.size d.size, d)
    | .ssize => some (.ssize d.ssize, d)
    | .empty => some (.empty d.empty, d)
    | .capacity => some (.capacity d.capacity, d)

/-! ## One thread alone -/

section solo

variable {α : Type} {s t : State α} {d : ChaseLevDeque α}

/-- The owner stands at `pc` in the deque `d`. -/
def State.at (s : State α) (d : ChaseLevDeque α) (pc : OwnerPc α) : State α :=
  { s with deque := d, owner := pc }

/-- The copying loop alone, up to the store of `m_buf`. -/
theorem solo_copyLoop {val : α} {bot top : ℤ} {buf ptr : ℕ} (hne : buf ≠ ptr) (fuel : ℕ) {i : ℤ}
    {d : ChaseLevDeque α} {bigger : AtomicRingBuf α}
    (hloop : (d.heap buf).copyLoop bot fuel i (d.heap ptr) = some bigger) :
    (machine α).Solo .owner (s.at d (copyNext val bot top buf ptr i))
      (s.at { d with heap := Function.update d.heap ptr bigger }
        (.pushSwap val bot top buf ptr)) := by
  induction fuel generalizing d i with
  | zero =>
    unfold AtomicRingBuf.copyLoop at hloop
    split_ifs at hloop with hi
    cases hloop
    rw [copyNext, if_neg hi, Function.update_eq_self]
    exact .refl _
  | succ fuel ih =>
    unfold AtomicRingBuf.copyLoop at hloop
    split_ifs at hloop with hi
    · have hbuf : (d.store ptr i ((d.heap buf).load i)).heap buf = d.heap buf :=
        Function.update_of_ne hne ..
      have hptr : (d.store ptr i ((d.heap buf).load i)).heap ptr =
          (d.heap ptr).store i ((d.heap buf).load i) := Function.update_self ..
      rw [← hptr] at hloop
      have hrest := @ih (i + 1) (d.store ptr i ((d.heap buf).load i)) (by rw [hbuf]; exact hloop)
      rw [copyNext, if_pos hi]
      simp only [ChaseLevDeque.store, Function.update_idem] at hrest
      exact .head rfl (.head rfl hrest)
    · cases hloop
      rw [copyNext, if_neg hi, Function.update_eq_self]
      exact .refl _

/-- The caller is between two calls again, in the deque `d`, and no thief has moved. -/
structure Returned (s t : State α) (d : ChaseLevDeque α) : Prop where
  deque : t.deque = d
  owner : t.owner = .idle
  thief : t.thief = s.thief

/-- Room is made alone, up to the store of the item. -/
theorem solo_reserve {v : α} {bottom : ℤ} {d d₁ : ChaseLevDeque α} (hfresh : d.mBuf ≠ d.next)
    (hreserve : d.reserve bottom d.mTop = some d₁) :
    (machine α).Solo .owner (s.at d (.pushBuf v bottom d.mTop))
      (s.at d₁ (.pushStore v bottom d₁.mBuf)) := by
  unfold ChaseLevDeque.reserve at hreserve
  split_ifs at hreserve with hfull
  · obtain ⟨bigger, hresize, rfl⟩ := Option.map_eq_some_iff.mp hreserve
    have hbuf : (d.allocate d.mBuf).heap d.mBuf = d.buffer := Function.update_of_ne hfresh ..
    have hptr : (d.allocate d.mBuf).heap d.next = d.buffer.double (d.heap d.next).slots :=
      Function.update_self ..
    unfold AtomicRingBuf.resize at hresize
    rw [← hptr, ← hbuf] at hresize
    have hstep : (machine α).step (s.at d (.pushBuf v bottom d.mTop)) .owner =
        some (s.at (d.allocate d.mBuf) (copyNext v bottom d.mTop d.mBuf d.next d.mTop)) :=
      if_pos hfull
    refine .head hstep ((solo_copyLoop hfresh _ hresize).trans (.single ?_))
    simp [machine, ownerStep, State.at, ChaseLevDeque.adopt, ChaseLevDeque.allocate]
  · cases hreserve
    exact .single (if_neg hfull)

/-- **`push` alone** ends with the deque that the function computes. -/
theorem solo_push {v : α} (hidle : s.owner = .idle) (hfresh : s.deque.mBuf ≠ s.deque.next)
    (hpush : s.deque.push v = some d) :
    ∃ s' t, (machine α).step s (.push v) = some s' ∧ (machine α).Solo .owner s' t ∧
      Returned s t d := by
  obtain ⟨d₁, hreserve, rfl⟩ := Option.map_eq_some_iff.mp hpush
  have hcall : (machine α).step s (.push v) = some (s.at s.deque (.pushTop v s.deque.mBottom)) := by
    simp [machine, hidle, State.at]
  have hroom := solo_reserve (s := s) (v := v) hfresh hreserve
  exact ⟨_, _, hcall, .head rfl (hroom.trans (.head rfl (.single rfl))), rfl, rfl, rfl⟩

/-- **`pop` alone** ends with the deque that the function computes. -/
theorem solo_pop (hidle : s.owner = .idle) :
    ∃ s' t, (machine α).step s .pop = some s' ∧ (machine α).Solo .owner s' t ∧
      Returned s t s.deque.pop.2 := by
  have hcall : (machine α).step s .pop = some (s.at s.deque (.popBuf (s.deque.mBottom - 1))) := by
    simp [machine, hidle, State.at]
  suffices hrest : ∃ t, (machine α).Solo .owner
      (s.at { s.deque with mBottom := s.deque.mBottom - 1 }
        (.popTop (s.deque.mBottom - 1) s.deque.mBuf)) t ∧ Returned s t s.deque.pop.2 by
    obtain ⟨t, ht, hend⟩ := hrest
    exact ⟨_, t, hcall, .head rfl (.head rfl ht), hend⟩
  unfold ChaseLevDeque.pop ChaseLevDeque.exchangeTop
  by_cases hle : s.deque.mTop ≤ s.deque.mBottom - 1
  · by_cases heq : s.deque.mTop = s.deque.mBottom - 1
    · refine ⟨_, .head ((if_pos hle).trans (if_pos heq)) (.head (if_pos rfl)
        (.head rfl (.single rfl))), ?_⟩
      simp only [if_pos hle, if_pos heq]
      exact ⟨rfl, rfl, rfl⟩
    · refine ⟨_, .head ((if_pos hle).trans (if_neg heq)) (.single rfl), ?_⟩
      simp only [if_pos hle, if_neg heq]
      exact ⟨rfl, rfl, rfl⟩
  · refine ⟨_, .head (if_neg hle) (.single rfl), ?_⟩
    simp only [if_neg hle]
    exact ⟨rfl, rfl, rfl⟩

/-- **`steal` alone** ends with the deque that the function computes. -/
theorem solo_steal [Inhabited α] {n : ℕ} (hidle : s.thief n = .idle) :
    ∃ t, (machine α).Solo (.thief n) s t ∧ t.deque = s.deque.steal.2 ∧ t.owner = s.owner ∧
      t.thief = s.thief := by
  have hself : Function.update s.thief n .idle = s.thief := by
    rw [← hidle, Function.update_eq_self]
  unfold ChaseLevDeque.steal ChaseLevDeque.exchangeTop
  by_cases hlt : s.deque.mTop < s.deque.mBottom
  · refine ⟨{ s with
      deque := { s.deque with mTop := s.deque.mTop + 1 }
      log := s.log ++ [.claim (.thief n) (s.occ s.deque.mTop.toNat)] ++
        [.deliver (.thief n) (s.occ s.deque.mTop.toNat) s.deque.mTop.toNat
          (s.deque.buffer.load s.deque.mTop)] }, ⟨5, ?_⟩, ?_⟩
    · simp [machine, Machine.free, thiefStep, hidle, hlt, hself, ChaseLevDeque.buffer]
    · simp [hlt]
  · refine ⟨s, ⟨2, ?_⟩, ?_⟩
    · simp [machine, Machine.free, thiefStep, hidle, hlt, hself]
    · simp [hlt]

end solo

end Libfork.Deque.ChaseLev
