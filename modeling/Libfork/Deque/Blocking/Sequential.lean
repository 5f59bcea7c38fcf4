import Libfork.Deque.Blocking.Model
import Libfork.Deque.Plain
import Libfork.Deque.Stored

/-!
# The calls of `blocking_deque`, one at a time

The public calls as functions of the deque, in which every allocation succeeds. They are what the
machine does when one thread takes all the steps:

* **`solo_push`, `solo_pop`, `solo_steal`** — from any state of the machine in which the caller
  is between two calls, the caller alone takes its call to its end and leaves the deque that the
  function computes.

Source: `deque_blocking.hpp`, `lock`, `try_lock`, `unlock`, `empty_relaxed`, `push`, `pop`,
`steal`, `size`, `ssize`, `empty`, `capacity`.
-/

namespace Libfork.Deque.Blocking

open Libfork.Found
open Libfork.Deque.ChaseLev (AtomicRingBuf)

/-! ## The functions -/

namespace BlockingDeque

variable {α : Type} (d : BlockingDeque α)

/-- `m_flag.compare_exchange_strong(0, 1)`, `none` where it fails.
Source: `deque_blocking.hpp`, `try_lock` -/
def tryLock : Option (BlockingDeque α) :=
  if d.mFlag = 0 then some { d with mFlag := 1 } else none

/-- The first compare-exchange of `lock`, or `none`: with no other thread about, the loop after it
goes on for ever. Source: `deque_blocking.hpp`, `lock` -/
def lock : Option (BlockingDeque α) := d.tryLock

/-- Source: `deque_blocking.hpp`, `unlock` -/
def unlock : BlockingDeque α := { d with mFlag := 0 }

/-- Source: `deque_blocking.hpp`, `empty_relaxed` -/
def emptyRelaxed : Bool := decide (d.mTop ≥ d.mBottom)

/-- `bigger` is allocated and replaces the current buffer.
Source: `deque_blocking.hpp`, `push` -/
def adopt (bigger : AtomicRingBuf α) : BlockingDeque α :=
  { d with
    heap := Function.update d.heap d.next bigger
    next := d.next + 1
    mGarbage := d.mGarbage ++ [d.mBuf]
    mBuf := d.next }

/-- `if (buf->capacity() < (bottom - top) + 1) ..`. Source: `deque_blocking.hpp`, `push` -/
def reserve (bottom top : ℤ) : Option (BlockingDeque α) :=
  if (d.buffer.capacity : ℤ) < (bottom - top) + 1 then
    (d.buffer.resize (d.heap d.next).slots bottom top).map d.adopt
  else some d

/-- `buf->store(bottom, val)` and `m_bottom.store(bottom + 1)`.
Source: `deque_blocking.hpp`, `push` -/
def append (bottom : ℤ) (val : α) : BlockingDeque α :=
  { d.store d.mBuf bottom val with mBottom := bottom + 1 }

/-- Source: `deque_blocking.hpp`, `push` -/
def push (val : α) : Option (BlockingDeque α) :=
  d.lock.bind fun d =>
    let bottom := d.mBottom
    let top := d.mTop
    (d.reserve bottom top).map fun d => (d.append bottom val).unlock

/-- `none` inside is the result of the default `when_empty`.
Source: `deque_blocking.hpp`, `pop` -/
def pop : Option (Option α × BlockingDeque α) :=
  if d.emptyRelaxed then some (none, d)
  else d.lock.map fun d =>
    let bottom := d.mBottom - 1
    let top := d.mTop
    if top ≤ bottom then
      let d := { d with mBottom := bottom }
      let val := d.buffer.load bottom
      (some val, d.unlock)
    else (none, d.unlock)

/-- Source: `deque_blocking.hpp`, `steal` -/
def steal [Inhabited α] : StealT α × BlockingDeque α :=
  if d.emptyRelaxed then (noItem .empty, d)
  else
    match d.tryLock with
    | none => (noItem .lost, d)
    | some d =>
        let top := d.mTop
        let bottom := d.mBottom
        if top < bottom then
          let val := d.buffer.load top
          let d := { d with mTop := top + 1 }
          (⟨.none, val⟩, d.unlock)
        else (noItem .empty, d.unlock)

variable {d} in
/-- `empty_relaxed`, alone. -/
theorem emptyRelaxed_iff : d.emptyRelaxed = true ↔ d.mTop ≥ d.mBottom := decide_eq_true_iff

/-- Source: `deque_blocking.hpp`, `ssize` -/
def ssize : ℤ := max (d.mBottom - d.mTop) 0

/-- Source: `deque_blocking.hpp`, `size` -/
def size : ℕ := d.ssize.toNat

/-- Source: `deque_blocking.hpp`, `empty` -/
def empty : Bool := decide (d.mTop ≥ d.mBottom)

/-- Source: `deque_blocking.hpp`, `blocking_deque::capacity` -/
def capacity : ℕ := d.buffer.capacity

end BlockingDeque

/-- The deque as an object that one thread uses. -/
def object (α : Type) [Inhabited α] : Object (BlockingDeque α) (Request α) (Reply α) where
  call d
    | .push val => (d.push val).map fun d => (.pushed, d)
    | .pop => d.pop.map fun x => (.popped x.1, x.2)
    | .steal => some (.stolen d.steal.1, d.steal.2)
    | .size => some (.size d.size, d)
    | .ssize => some (.ssize d.ssize, d)
    | .empty => some (.empty d.empty, d)
    | .capacity => some (.capacity d.capacity, d)

/-! ## One thread alone -/

section solo

variable {α : Type} [Inhabited α] {s t : State α} {d d₁ : BlockingDeque α}

/-- The copying loop alone, up to the entry in the garbage. -/
theorem solo_copyLoop {val : α} {bot : ℤ} {buf ptr : ℕ} (hne : buf ≠ ptr) (fuel : ℕ) {i : ℤ}
    {d : BlockingDeque α} {bigger : AtomicRingBuf α}
    (hloop : (d.heap buf).copyLoop bot fuel i (d.heap ptr) = some bigger) :
    (machine α).Solo (.owner false) (s.go d (copyNext val bot buf ptr i))
      (s.go { d with heap := Function.update d.heap ptr bigger }
        (.pushGarbage val bot buf ptr)) := by
  induction fuel generalizing d i with
  | zero =>
    unfold AtomicRingBuf.copyLoop at hloop
    split_ifs at hloop with hi
    cases hloop
    rw [copyNext, if_neg hi, Function.update_eq_self]
    exact .refl _
  | succ fuel ih =>
    unfold AtomicRingBuf.copyLoop at hloop
    split_ifs at hloop with hi
    · have hbuf : (d.store ptr i ((d.heap buf).load i)).heap buf = d.heap buf :=
        Function.update_of_ne hne ..
      have hptr : (d.store ptr i ((d.heap buf).load i)).heap ptr =
          (d.heap ptr).store i ((d.heap buf).load i) := Function.update_self ..
      rw [← hptr] at hloop
      have hrest := @ih (i + 1) (d.store ptr i ((d.heap buf).load i)) (by rw [hbuf]; exact hloop)
      rw [copyNext, if_pos hi]
      simp only [BlockingDeque.store, Function.update_idem] at hrest
      exact .head rfl (.head rfl hrest)
    · cases hloop
      rw [copyNext, if_neg hi, Function.update_eq_self]
      exact .refl _

/-- Room is made alone, up to the store of the item. -/
theorem solo_reserve {v : α} {bottom : ℤ} (hfresh : d.mBuf ≠ d.next)
    (hreserve : d.reserve bottom d.mTop = some d₁) :
    (machine α).Solo (.owner false) (s.go d (.pushBuf v bottom d.mTop))
      (s.go d₁ (.pushStore v bottom d₁.mBuf)) := by
  unfold BlockingDeque.reserve at hreserve
  split_ifs at hreserve with hfull
  · obtain ⟨bigger, hresize, rfl⟩ := Option.map_eq_some_iff.mp hreserve
    have hbuf : (d.allocate d.mBuf).heap d.mBuf = d.buffer := Function.update_of_ne hfresh ..
    have hptr : (d.allocate d.mBuf).heap d.next = d.buffer.double (d.heap d.next).slots :=
      Function.update_self ..
    unfold AtomicRingBuf.resize at hresize
    rw [← hptr, ← hbuf] at hresize
    have hstep : (machine α).step (s.go d (.pushBuf v bottom d.mTop)) (.owner false) =
        some (s.go (d.allocate d.mBuf) (copyNext v bottom d.mBuf d.next d.mTop)) :=
      if_pos hfull
    refine .head hstep ((solo_copyLoop hfresh _ hresize).trans (.head (if_neg nofun) (.single ?_)))
    simp [machine, ownerStep, State.go, BlockingDeque.adopt, BlockingDeque.allocate]
  · cases hreserve
    exact .single (if_neg hfull)

/-- The caller is between two calls again, in the deque `d`, and no thief has moved. -/
structure Returned (s t : State α) (d : BlockingDeque α) : Prop where
  deque : t.deque = d
  owner : t.owner = .idle
  thief : t.thief = s.thief

omit [Inhabited α] in
/-- The lock is free and is taken. -/
theorem lock_eq_some (hlock : d.lock = some d₁) : d.mFlag = 0 ∧ d₁ = { d with mFlag := 1 } := by
  unfold BlockingDeque.lock BlockingDeque.tryLock at hlock
  split_ifs at hlock with hfree
  exact ⟨hfree, (Option.some.inj hlock).symm⟩

/-- **`push` alone** ends with the deque that the function computes. -/
theorem solo_push {v : α} (hidle : s.owner = .idle) (hfresh : s.deque.mBuf ≠ s.deque.next)
    (hpush : s.deque.push v = some d) :
    ∃ s' t, (machine α).step s (.push v) = some s' ∧ (machine α).Solo (.owner false) s' t ∧
      Returned s t d := by
  obtain ⟨d₁, hlock, hpush⟩ := Option.bind_eq_some_iff.mp hpush
  obtain ⟨hfree, rfl⟩ := lock_eq_some hlock
  obtain ⟨d₂, hreserve, rfl⟩ := Option.map_eq_some_iff.mp hpush
  have hcall : (machine α).step s (.push v) =
      some ((s.go s.deque (.lock (.push v))).logged [.call .owner (.push v)]) := by
    simp [machine, ownerCall, hidle]
  have hlocked : (machine α).step
      ((s.go s.deque (.lock (.push v))).logged [.call .owner (.push v)]) (.owner false) =
      some ((s.go { s.deque with mFlag := 1 } (.pushBottom v)).logged
        [.call .owner (.push v)]) := by
    simp [machine, ownerStep, lockExchange, hfree, State.go, State.logged, afterLock]
  have hroom := solo_reserve (s := s.logged [.call .owner (.push v)]) (v := v)
    (d := { s.deque with mFlag := 1 }) hfresh hreserve
  exact ⟨_, _, hcall, .head hlocked (.head rfl (.head rfl (hroom.trans
    (.head rfl (.head rfl (.single rfl)))))), rfl, rfl, rfl⟩

/-- **`pop` alone** ends with the deque that the function computes. -/
theorem solo_pop {r : Option α} (hidle : s.owner = .idle) (hpop : s.deque.pop = some (r, d)) :
    ∃ s' t, (machine α).step s .pop = some s' ∧ (machine α).Solo (.owner false) s' t ∧
      Returned s t d := by
  have hcall : (machine α).step s .pop =
      some ((s.go s.deque .empty).logged [.call .owner .pop]) := by
    simp [machine, ownerCall, hidle]
  unfold BlockingDeque.pop at hpop
  by_cases hempty : s.deque.mTop ≥ s.deque.mBottom
  · rw [if_pos (BlockingDeque.emptyRelaxed_iff.mpr hempty)] at hpop
    cases hpop
    exact ⟨_, _, hcall, .head rfl (.single (congrArg some (if_pos hempty))), rfl, rfl, rfl⟩
  · rw [if_neg (mt BlockingDeque.emptyRelaxed_iff.mp hempty)] at hpop
    obtain ⟨d₁, hlock, hpop⟩ := Option.map_eq_some_iff.mp hpop
    obtain ⟨hfree, rfl⟩ := lock_eq_some hlock
    have hle : s.deque.mTop ≤ s.deque.mBottom - 1 := by omega
    simp only [if_pos hle, Prod.mk.injEq] at hpop
    obtain ⟨-, rfl⟩ := hpop
    have hlocked : (machine α).step
        (((s.go s.deque .empty).logged [.call .owner .pop]).go s.deque (.lock .pop))
          (.owner false) =
        some (((s.go s.deque .empty).logged [.call .owner .pop]).go
          { s.deque with mFlag := 1 } .popBottom) := by
      simp [machine, ownerStep, lockExchange, hfree, State.go, afterLock]
    exact ⟨_, _, hcall, .head rfl (.head (congrArg some (if_neg hempty)) (.head hlocked
      (.head rfl (.head rfl (.head (if_pos hle) (.head rfl (.head rfl (.single rfl)))))))),
      rfl, rfl, rfl⟩

/-- **`steal` alone** ends with the deque that the function computes. -/
theorem solo_steal {n : ℕ} (hidle : s.thief n = .idle) :
    ∃ s' t, (machine α).step s (.steal n) = some s' ∧ (machine α).Solo (.thief n) s' t ∧
      t.deque = s.deque.steal.2 ∧ t.owner = s.owner ∧ t.thief = s.thief := by
  have hself : Function.update s.thief n .idle = s.thief := by
    rw [← hidle, Function.update_eq_self]
  have hcall : (machine α).step s (.steal n) =
      some ((s.goThief n s.deque .empty).logged [.call (.thief n) .steal]) := by
    simp [machine, stealCall, hidle]
  unfold BlockingDeque.steal BlockingDeque.tryLock
  by_cases hempty : s.deque.mTop ≥ s.deque.mBottom
  · rw [if_pos (BlockingDeque.emptyRelaxed_iff.mpr hempty)]
    refine ⟨_, s.logged ([.call (.thief n) .steal] ++
      [.point (.thief n) .steal (.stolen (noItem .empty)),
        .ret (.thief n) (.stolen (noItem .empty))]), hcall, ⟨2, ?_⟩, rfl, rfl, rfl⟩
    simp [machine, Machine.free, thiefStep, stealUnless, State.goThief, State.logged, hempty, hself]
  · rw [if_neg (mt BlockingDeque.emptyRelaxed_iff.mp hempty)]
    have hlt : s.deque.mTop < s.deque.mBottom := Int.not_le.mp hempty
    by_cases hfree : s.deque.mFlag = 0
    · refine ⟨_, (s.go ({ s.deque with mFlag := 0, mTop := s.deque.mTop + 1 }) s.owner).logged
        ([.call (.thief n) .steal] ++
          [.point (.thief n) .steal (.stolen ⟨.none, s.deque.buffer.load s.deque.mTop⟩)] ++
          [.ret (.thief n) (.stolen ⟨.none, s.deque.buffer.load s.deque.mTop⟩)]),
        hcall, ⟨9, ?_⟩, ?_, rfl, rfl⟩
      · simp [machine, Machine.free, thiefStep, stealUnless, State.goThief, State.logged, State.go,
          hempty, hfree, hlt, hself, BlockingDeque.buffer]
      · simp [hfree, hlt, BlockingDeque.unlock, State.go, State.logged]
    · refine ⟨_, s.logged ([.call (.thief n) .steal] ++
        [.point (.thief n) .steal (.stolen (noItem .lost)),
          .ret (.thief n) (.stolen (noItem .lost))]), hcall, ⟨3, ?_⟩, ?_, rfl, rfl⟩
      · simp [machine, Machine.free, thiefStep, stealUnless, State.goThief, State.logged, hempty,
          hfree, hself]
      · simp [hfree, State.logged]

end solo

end Libfork.Deque.Blocking
