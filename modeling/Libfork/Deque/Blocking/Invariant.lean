import Libfork.Deque.Blocking.Model
import Libfork.Found.Window

/-!
# What the lock protects

* `dequeSpec` — the ideal deque: pushes and pops at one end, steals at the other. A loose one may
  tell a thief that it is empty when it is not.
* `Contents` — the items between `m_top` and `m_bottom` are the ideal deque, in every state; a
  call that is about to change them holds the lock until it has.
* `Lock` — the flag is set exactly while one thread is in its locked region.
* `OwnerInv`, `ThiefInv` — what a call knows at each access.

Source: `deque_blocking.hpp`, class `blocking_deque`.
-/

namespace Libfork.Deque.Blocking

open Libfork.Found
open Libfork.Found.Linearize (Phase History)
open Libfork.Deque.ChaseLev (AtomicRingBuf)

variable {α : Type} {loose : Bool} {s : State α} {d d' : BlockingDeque α} {q q' : List α}

/-! ## The ideal deque -/

/-- What an operation does to the items, the oldest first. -/
inductive DequeStep (loose : Bool) : List α → Op α → Res α → List α → Prop
  | push (q : List α) (v : α) : DequeStep loose q (.push v) .pushed (q ++ [v])
  | threw (q : List α) (v : α) : DequeStep loose q (.push v) .threw q
  | pop (q : List α) (v : α) : DequeStep loose (q ++ [v]) .pop (.popped (some v)) q
  | popEmpty : DequeStep loose [] .pop (.popped none) []
  | steal (v : α) (q : List α) : DequeStep loose (v :: q) .steal (.stolen ⟨.none, v⟩) q
  | stealEmpty (v : α) : DequeStep loose [] .steal (.stolen ⟨.empty, v⟩) []
  | lost (q : List α) (v : α) : DequeStep loose q .steal (.stolen ⟨.lost, v⟩) q
  /-- Only a loose deque misses its items. -/
  | missed (h : loose = true) (q : List α) (v : α) :
      DequeStep loose q .steal (.stolen ⟨.empty, v⟩) q

/-- The ideal deque, or a loose one. -/
def dequeSpec (α : Type) (loose : Bool) : SeqSpec (List α) (Op α) (Res α) := ⟨DequeStep loose⟩

/-! ## The items -/

/-- The items of the deque are `q`. -/
structure Contents (d : BlockingDeque α) (q : List α) : Prop where
  top : 0 ≤ d.mTop
  bottom : d.mBottom = d.mTop + q.length
  fits : q.length ≤ d.buffer.capacity
  items : Window d.buffer.load d.mTop q
  fresh : d.mBuf < d.next

/-- A buffer twice as large that holds the items, up to the `n`-th. -/
structure Copied (d : BlockingDeque α) (q : List α) (ptr n : ℕ) : Prop where
  ne : ptr ≠ d.mBuf
  fresh : ptr < d.next
  capacity : (d.heap ptr).capacity = 2 * d.buffer.capacity
  items : Window (d.heap ptr).load d.mTop (q.take n)

namespace Contents

/-- The items do not depend on the flag, or on the garbage. -/
theorem congr (h : Contents d q) (htop : d'.mTop = d.mTop) (hbottom : d'.mBottom = d.mBottom)
    (hbuf : d'.mBuf = d.mBuf) (hheap : d'.heap d.mBuf = d.heap d.mBuf) (hnext : d.next ≤ d'.next) :
    Contents d' q := by
  have hbuffer : d'.buffer = d.buffer := by
    rw [BlockingDeque.buffer, hbuf, hheap]
    rfl
  constructor
  · rw [htop]
    exact h.top
  · rw [htop, hbottom]
    exact h.bottom
  · rw [hbuffer]
    exact h.fits
  · rw [htop, hbuffer]
    exact h.items
  · rw [hbuf]
    exact Nat.lt_of_lt_of_le h.fresh hnext

/-- The deque is empty when the top has reached the bottom. -/
theorem eq_nil (h : Contents d q) (hle : d.mBottom ≤ d.mTop) : q = [] := by
  have hbottom := h.bottom
  exact List.length_eq_zero_iff.mp (by omega)

/-- The deque has an item otherwise. -/
theorem ne_nil (h : Contents d q) (hlt : d.mTop < d.mBottom) : q ≠ [] := by
  rintro rfl
  have hbottom := h.bottom
  rw [List.length_nil] at hbottom
  omega

/-- A slot that is less than a capacity after the top, and not an item's, is written. -/
theorem store (h : Contents d q) (hroom : q.length < d.buffer.capacity) (val : α) :
    Contents (d.store d.mBuf d.mBottom val) q ∧
      (d.store d.mBuf d.mBottom val).buffer.load d.mBottom = val := by
  have hbuffer : (d.store d.mBuf d.mBottom val).buffer = d.buffer.store d.mBottom val :=
    Function.update_self ..
  have htop := h.top
  have hbottom := h.bottom
  refine ⟨⟨h.top, h.bottom, ?_, ?_, h.fresh⟩, ?_⟩
  · rw [hbuffer]
    exact h.fits
  · rw [hbuffer]
    apply h.items.congr
    intro j hlo hhi
    change d.mTop ≤ j at hlo
    change j < d.mTop + q.length at hhi
    exact d.buffer.load_store_of_ne val (by omega) (by omega) (by omega) (by omega) (by omega)
  · rw [hbuffer, AtomicRingBuf.load_store_self]

/-- The slot of the bottom becomes an item. -/
theorem push (h : Contents d q) (hroom : q.length < d.buffer.capacity) {val : α}
    (hval : d.buffer.load d.mBottom = val) :
    Contents { d with mBottom := d.mBottom + 1 } (q ++ [val]) := by
  have hbottom := h.bottom
  refine ⟨h.top, ?_, ?_, window_snoc.mpr ⟨h.items, ?_⟩, h.fresh⟩
  · rw [List.length_append, List.length_singleton]
    change d.mBottom + 1 = d.mTop + _
    omega
  · rw [List.length_append, List.length_singleton]
    exact hroom
  · change d.buffer.load (d.mTop + q.length) = val
    rw [← hbottom]
    exact hval

/-- The last item stops being one. -/
theorem pop (h : Contents d q) (hlt : d.mTop ≤ d.mBottom - 1) :
    ∃ q', q = q' ++ [d.buffer.load (d.mBottom - 1)] ∧
      Contents { d with mBottom := d.mBottom - 1 } q' := by
  rcases List.eq_nil_or_concat' q with rfl | ⟨q', v, rfl⟩
  · exact absurd rfl (h.ne_nil (by omega))
  · obtain ⟨hitems, hlast⟩ := window_snoc.mp h.items
    have hbottom := h.bottom
    have hfits := h.fits
    rw [List.length_append, List.length_singleton] at hbottom hfits
    have hindex : d.mBottom - 1 = d.mTop + q'.length := by omega
    refine ⟨q', ?_, h.top, hindex, Nat.le_of_succ_le hfits, hitems, h.fresh⟩
    rw [hindex, hlast]

/-- The first item stops being one. -/
theorem steal (h : Contents d q) (hlt : d.mTop < d.mBottom) :
    ∃ q', q = d.buffer.load d.mTop :: q' ∧ Contents { d with mTop := d.mTop + 1 } q' := by
  cases q with
  | nil => exact absurd rfl (h.ne_nil hlt)
  | cons v q' =>
      obtain ⟨hv, hitems⟩ := h.items
      have hbottom := h.bottom
      have hfits := h.fits
      have htop := h.top
      rw [List.length_cons] at hbottom hfits
      refine ⟨q', by rw [hv], ?_, ?_, Nat.le_of_succ_le hfits, hitems, h.fresh⟩
      · change 0 ≤ d.mTop + 1
        omega
      · change d.mBottom = d.mTop + 1 + q'.length
        omega

end Contents

/-! ## The resize -/

/-- A new buffer holds no item yet. -/
theorem Contents.allocate (h : Contents d q) :
    Contents (d.allocate d.mBuf) q ∧ Copied (d.allocate d.mBuf) q d.next 0 := by
  have hne : d.mBuf ≠ d.next := Nat.ne_of_lt h.fresh
  have hbuf : (d.allocate d.mBuf).heap d.mBuf = d.heap d.mBuf := Function.update_of_ne hne ..
  have hptr : (d.allocate d.mBuf).heap d.next = (d.heap d.mBuf).double (d.heap d.next).slots :=
    Function.update_self ..
  refine ⟨h.congr rfl rfl rfl hbuf (Nat.le_succ _), hne.symm, Nat.lt_succ_self _, ?_, ?_⟩
  · rw [hptr, AtomicRingBuf.capacity_double, BlockingDeque.buffer]
    exact congrArg (2 * ·.capacity) hbuf.symm
  · rw [List.take_zero]
    trivial

/-- One more item is copied. -/
theorem Copied.store {ptr n : ℕ} (h : Copied d q ptr n) (hc : Contents d q) (hn : n < q.length) :
    Contents (d.store ptr (d.mTop + n) (d.buffer.load (d.mTop + n))) q ∧
      Copied (d.store ptr (d.mTop + n) (d.buffer.load (d.mTop + n))) q ptr (n + 1) := by
  have hbuf : (d.store ptr (d.mTop + n) (d.buffer.load (d.mTop + n))).heap d.mBuf =
      d.heap d.mBuf := Function.update_of_ne h.ne.symm ..
  have hptr : (d.store ptr (d.mTop + n) (d.buffer.load (d.mTop + n))).heap ptr =
      (d.heap ptr).store (d.mTop + n) (d.buffer.load (d.mTop + n)) := Function.update_self ..
  have htop := hc.top
  have hfits := hc.fits
  have hcap := h.capacity
  refine ⟨hc.congr rfl rfl rfl hbuf (Nat.le_refl _), h.ne, h.fresh, ?_, ?_⟩
  · rw [hptr, BlockingDeque.buffer]
    exact h.capacity.trans (congrArg (2 * ·.capacity) hbuf.symm)
  · -- the items copied before are elsewhere, and this one is the `n`-th of the old buffer
    have hitem : d.buffer.load (d.mTop + n) = q.get ⟨n, hn⟩ := by
      have hsplit := hc.items
      rw [← List.take_append_drop n q, window_append, List.drop_eq_getElem_cons hn] at hsplit
      have hlen : (q.take n).length = n := List.length_take_of_le (Nat.le_of_lt hn)
      rw [hlen] at hsplit
      exact hsplit.2.1
    have hlen : (q.take n).length = n := List.length_take_of_le (Nat.le_of_lt hn)
    rw [hptr, List.take_succ_eq_append_getElem hn, window_snoc, hlen]
    constructor
    · apply h.items.congr
      intro j hlo hhi
      rw [hlen] at hhi
      change d.mTop ≤ j at hlo
      change j < d.mTop + n at hhi
      exact (d.heap ptr).load_store_of_ne _ (by omega) (by omega) (by omega) (by omega) (by omega)
    · change ((d.heap ptr).store (d.mTop + n) _).load (d.mTop + n) = _
      rw [AtomicRingBuf.load_store_self]
      exact hitem

/-- The new buffer takes the place of the old one. -/
theorem Copied.swap {ptr : ℕ} (h : Copied d q ptr q.length) (hc : Contents d q) :
    Contents { d with mBuf := ptr } q ∧ q.length < (d.heap ptr).capacity := by
  have hpos : 0 < d.buffer.capacity := AtomicRingBuf.capacity_pos
  have hfits := hc.fits
  have hcap := h.capacity
  have hitems := h.items
  rw [List.take_length] at hitems
  have hroom : q.length < (d.heap ptr).capacity := by omega
  exact ⟨⟨hc.top, hc.bottom, Nat.le_of_lt hroom, hitems, h.fresh⟩, hroom⟩

/-! ## The lock -/

/-- The flag is set while one thread is in its locked region. -/
def Lock (flag : ℤ) (holds : Thread → Bool) : Prop :=
  (flag = 0 ∧ ∀ c, holds c = false) ∨
    (flag = 1 ∧ ∃ c, holds c = true ∧ ∀ c', c' ≠ c → holds c' = false)

/-- What an access of a thread may do to the flag: nothing, unless it enters or leaves its locked
region. -/
inductive LockStep : ℤ → Bool → ℤ → Bool → Prop
  | none (flag : ℤ) (b : Bool) : LockStep flag b flag b
  | acquire : LockStep 0 false 1 true
  | release (flag : ℤ) : LockStep flag true 0 false

/-- Nobody else is in a locked region. -/
theorem Lock.others {flag : ℤ} {holds : Thread → Bool} {c c' : Thread} (h : Lock flag holds)
    (hc : holds c = true) (hne : c' ≠ c) : holds c' = false := by
  rcases h with ⟨-, hnone⟩ | ⟨-, c₀, -, hother⟩
  · exact hnone c'
  · have hc₀ : c = c₀ := by
      by_contra hne'
      rw [hother c hne'] at hc
      cases hc
    exact hother c' (hc₀ ▸ hne)

/-- A step at the lock is a step of one thread. -/
theorem Lock.step {flag flag' : ℤ} {holds : Thread → Bool} {c : Thread} {b : Bool}
    (h : Lock flag holds) (hstep : LockStep flag (holds c) flag' b) :
    Lock flag' (Function.update holds c b) := by
  generalize hb₀ : holds c = b₀ at hstep
  cases hstep with
  | none =>
      rw [← hb₀, Function.update_eq_self]
      exact h
  | acquire =>
      right
      refine ⟨rfl, c, Function.update_self .., fun c' hc' => ?_⟩
      rw [Function.update_of_ne hc']
      rcases h with ⟨-, hnone⟩ | ⟨hflag, -⟩
      · exact hnone c'
      · cases hflag
  | release =>
      left
      refine ⟨rfl, fun c' => ?_⟩
      by_cases hc' : c' = c
      · rw [hc', Function.update_self]
      · rw [Function.update_of_ne hc']
        exact h.others hb₀ hc'

/-- A thread that finds the flag set finds somebody in a locked region. -/
theorem Lock.held {flag : ℤ} {holds : Thread → Bool} (h : Lock flag holds) (hflag : flag ≠ 0) :
    ∃ c, holds c = true := by
  rcases h with ⟨hzero, -⟩ | ⟨-, c, hc, -⟩
  · exact absurd hzero hflag
  · exact ⟨c, hc⟩

/-! ## The calls -/

/-- What the owner knows at each access. -/
def OwnerInv (d : BlockingDeque α) (q : List α) : OwnerPc α → Phase (Op α) (Res α) → Prop
  | .idle, p => p = .out
  | .empty, p => p = .pending .pop
  | .emptyBottom top, p => p = .pending .pop ∧ top ≤ d.mTop
  | .emptyTop bottom, p => p = .pending .pop ∧ bottom = d.mBottom
  | .lock k, p => p = .pending k.op
  | .lockLoad k, p => p = .pending k.op
  | .lockWeak k, p => p = .pending k.op
  | .pushBottom val, p => p = .pending (.push val)
  | .pushTop val bottom, p => p = .pending (.push val) ∧ bottom = d.mBottom
  | .pushBuf val bottom top, p =>
      p = .pending (.push val) ∧ bottom = d.mBottom ∧ top = d.mTop
  | .copyLoad val bottom buf ptr i, p =>
      p = .pending (.push val) ∧ bottom = d.mBottom ∧ buf = d.mBuf ∧
        ∃ n < q.length, i = d.mTop + n ∧ Copied d q ptr n
  | .copyStore val bottom buf ptr i loaded, p =>
      p = .pending (.push val) ∧ bottom = d.mBottom ∧ buf = d.mBuf ∧ loaded = d.buffer.load i ∧
        ∃ n < q.length, i = d.mTop + n ∧ Copied d q ptr n
  | .pushGarbage val bottom _ bigger, p =>
      p = .pending (.push val) ∧ bottom = d.mBottom ∧ Copied d q bigger q.length
  | .pushSwap val bottom bigger, p =>
      p = .pending (.push val) ∧ bottom = d.mBottom ∧ Copied d q bigger q.length
  | .pushStore val bottom buf, p =>
      p = .pending (.push val) ∧ bottom = d.mBottom ∧ buf = d.mBuf ∧ q.length < d.buffer.capacity
  | .pushPublish val bottom, p =>
      p = .pending (.push val) ∧ bottom = d.mBottom ∧ q.length < d.buffer.capacity ∧
        d.buffer.load bottom = val
  | .popBottom, p => p = .pending .pop
  | .popTop bottom, p => p = .pending .pop ∧ bottom = d.mBottom - 1
  | .popBuf bottom top, p => p = .pending .pop ∧ bottom = d.mBottom - 1 ∧ top = d.mTop
  | .popStore bottom buf, p =>
      p = .pending .pop ∧ bottom = d.mBottom - 1 ∧ d.mTop ≤ bottom ∧ buf = d.mBuf
  | .popLoad bottom buf, p => p = .done (.popped (some ((d.heap buf).load bottom)))
  | .unlock r, p => p = .done r

/-- What a thief knows at each access. A thief that has loaded the bottom first knows nothing about
the items. -/
def ThiefInv (loose : Bool) (d : BlockingDeque α) : ThiefPc α → Phase (Op α) (Res α) → Prop
  | .idle, p => p = .out
  | .empty, p => p = .pending .steal
  | .emptyBottom top, p => p = .pending .steal ∧ top ≤ d.mTop
  | .emptyTop _, p => p = .pending .steal ∧ loose = true
  | .tryLock, p => p = .pending .steal
  | .top, p => p = .pending .steal
  | .bottom top, p => p = .pending .steal ∧ top = d.mTop
  | .buf top bottom, p => p = .pending .steal ∧ top = d.mTop ∧ bottom = d.mBottom
  | .load top buf, p => p = .pending .steal ∧ top = d.mTop ∧ top < d.mBottom ∧ buf = d.mBuf
  | .store top val, p =>
      p = .pending .steal ∧ top = d.mTop ∧ top < d.mBottom ∧ d.buffer.load top = val
  | .unlock r, p => p = .done (.stolen r)

/-- Without the lock, the owner only relies on the top not going back, and on the bottom, which
only the owner moves. -/
theorem OwnerInv.unlocked {pc : OwnerPc α} {p : Phase (Op α) (Res α)} (h : OwnerInv d q pc p)
    (hpc : pc.locked = false) (htop : d.mTop ≤ d'.mTop) (hbottom : d'.mBottom = d.mBottom) :
    OwnerInv d' q' pc p := by
  cases pc with
  | emptyBottom top => exact ⟨h.1, Int.le_trans h.2 htop⟩
  | emptyTop bottom => exact ⟨h.1, h.2.trans hbottom.symm⟩
  | idle | empty | lock k | lockLoad k | lockWeak k => exact h
  | _ => cases hpc

/-- Without the lock, a thief only relies on the top not going back. -/
theorem ThiefInv.unlocked {pc : ThiefPc α} {p : Phase (Op α) (Res α)} (h : ThiefInv loose d pc p)
    (hpc : pc.locked = false) (htop : d.mTop ≤ d'.mTop) : ThiefInv loose d' pc p := by
  cases pc with
  | emptyBottom top => exact ⟨h.1, Int.le_trans h.2 htop⟩
  | idle | empty | emptyTop bottom | tryLock => exact h
  | _ => cases hpc

/-- No call relies on the flag. -/
theorem OwnerInv.flag {pc : OwnerPc α} {p : Phase (Op α) (Res α)} (h : OwnerInv d q pc p)
    (flag : ℤ) : OwnerInv { d with mFlag := flag } q pc p := by
  cases pc with
  | copyLoad val bottom buf ptr i =>
      obtain ⟨hp, hbottom, hbuf, n, hn, hi, hc⟩ := h
      exact ⟨hp, hbottom, hbuf, n, hn, hi, hc.ne, hc.fresh, hc.capacity, hc.items⟩
  | copyStore val bottom buf ptr i loaded =>
      obtain ⟨hp, hbottom, hbuf, hl, n, hn, hi, hc⟩ := h
      exact ⟨hp, hbottom, hbuf, hl, n, hn, hi, hc.ne, hc.fresh, hc.capacity, hc.items⟩
  | pushGarbage val bottom buf bigger | pushSwap val bottom bigger =>
      obtain ⟨hp, hbottom, hc⟩ := h
      exact ⟨hp, hbottom, hc.ne, hc.fresh, hc.capacity, hc.items⟩
  | _ => exact h

/-- What a thief knows does not depend on the flag. -/
theorem ThiefInv.flag {pc : ThiefPc α} {p : Phase (Op α) (Res α)} (h : ThiefInv loose d pc p)
    (flag : ℤ) : ThiefInv loose { d with mFlag := flag } pc p := by
  cases pc <;> exact h

/-! ## The invariant -/

/-- The items are `q`, and the call of `c` stands at `phase c`. -/
structure Linked (loose : Bool) (s : State α) (q : List α)
    (phase : Thread → Phase (Op α) (Res α)) : Prop where
  history : History (dequeSpec α loose) [] s.log q phase
  contents : Contents s.deque q
  lock : Lock s.deque.mFlag s.holds
  owner : OwnerInv s.deque q s.owner (phase .owner)
  thief : ∀ n, ThiefInv loose s.deque (s.thief n) (phase (.thief n))

/-- The invariant of the deque. -/
def Inv (loose : Bool) (s : State α) : Prop := ∃ q phase, Linked loose s q phase

/-- The invariant holds of a new deque. -/
theorem inv_new (loose : Bool) (log2 : ℕ) (mem : ℕ → ℕ → α) : Inv loose (State.new log2 mem) := by
  refine ⟨[], fun _ => .out, .new, ⟨Int.le_refl 0, rfl, Nat.zero_le _, trivial, Nat.one_pos⟩,
    Or.inl ⟨rfl, ?_⟩, rfl, fun _ => rfl⟩
  intro c
  cases c <;> rfl

end Libfork.Deque.Blocking
