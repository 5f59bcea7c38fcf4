import Mathlib.Algebra.Ring.Nat
import Mathlib.Data.Nat.Basic
import Mathlib.Tactic.Common

/-!
# Two counters in one word

`event_count` keeps the epoch in the upper and the number of waiters in the lower half of the
64-bit word `m_val`.

* `Packs v n w` — after `n` notifications and with `w` waiters the word is `v`: the upper half
  counts modulo `2 ^ 32`.
* `Packs.addEpoch`, `Packs.addWaiter`, `Packs.subWaiter` — no carry and no borrow passes from one
  half to the other, as long as there are fewer than `2 ^ 32` waiters.
* **`epoch_eq_iff`** — two epochs less than `2 ^ 32` notifications apart are equal only if there
  was no notification in between.

Source: `event_count.hpp`, the constants of `event_count`.
-/

namespace Libfork.EventCount

/-- Source: `event_count.hpp`, `k_add_waiter` -/
def kAddWaiter : BitVec 64 := 1

/-- Source: `event_count.hpp`, `k_sub_waiter` -/
def kSubWaiter : BitVec 64 := -1

/-- Source: `event_count.hpp`, `k_epoch_shift` -/
def kEpochShift : ℕ := 32

/-- Source: `event_count.hpp`, `k_add_epoch` -/
def kAddEpoch : BitVec 64 := 1 <<< kEpochShift

/-- Source: `event_count.hpp`, `k_waiter_mask` -/
def kWaiterMask : BitVec 64 := kAddEpoch - 1

/-- The upper half of a word: what `epoch()` points to, and the key that `prepare_wait` makes of
the previous value. Source: `event_count.hpp`, `epoch`, `prepare_wait` -/
def epoch (v : BitVec 64) : BitVec 32 := (v >>> kEpochShift).setWidth 32

/-- Some waiter was counted in `prev`. Source: `event_count.hpp`, `notify_one`, `notify_all` -/
def hasWaiters (prev : BitVec 64) : Bool := prev &&& kWaiterMask ≠ 0

/-- The word after `n` notifications and with `w` waiters. -/
structure Packs (v : BitVec 64) (n w : ℕ) : Prop where
  low : v.toNat % 2 ^ 32 = w
  high : v.toNat / 2 ^ 32 = n % 2 ^ 32

variable {v : BitVec 64} {n w : ℕ}

/-- The empty word has no epoch and no waiter. -/
theorem packs_zero : Packs 0 0 0 := ⟨rfl, rfl⟩

/-- A notification adds one to the upper half. -/
theorem toNat_kAddEpoch : kAddEpoch.toNat = 2 ^ 32 := rfl

/-- The lower half counts the waiters. -/
theorem toNat_kWaiterMask : kWaiterMask.toNat = 2 ^ 32 - 1 := rfl

/-- One more notification. -/
theorem Packs.addEpoch (h : Packs v n w) : Packs (v + kAddEpoch) (n + 1) w := by
  have hlow := h.low
  have hhigh := h.high
  have hlt := v.isLt
  have hval : (v + kAddEpoch).toNat = (v.toNat + 2 ^ 32) % 2 ^ 64 := by
    rw [BitVec.toNat_add, toNat_kAddEpoch]
  constructor
  · rw [hval]
    omega
  · rw [hval]
    omega

/-- One more waiter. -/
theorem Packs.addWaiter (h : Packs v n w) (hw : w + 1 < 2 ^ 32) :
    Packs (v + kAddWaiter) n (w + 1) := by
  have hlow := h.low
  have hhigh := h.high
  have hlt := v.isLt
  have hval : (v + kAddWaiter).toNat = (v.toNat + 1) % 2 ^ 64 := BitVec.toNat_add ..
  constructor
  · rw [hval]
    omega
  · rw [hval]
    omega

/-- One waiter less. -/
theorem Packs.subWaiter (h : Packs v n (w + 1)) : Packs (v + kSubWaiter) n w := by
  have hlow := h.low
  have hhigh := h.high
  have hlt := v.isLt
  have hval : (v + kSubWaiter).toNat = (v.toNat + (2 ^ 64 - 1)) % 2 ^ 64 := BitVec.toNat_add ..
  constructor
  · rw [hval]
    omega
  · rw [hval]
    omega

/-- The mask finds the waiters. -/
theorem Packs.hasWaiters_iff (h : Packs v n w) : hasWaiters v = true ↔ w ≠ 0 := by
  have hmask : (v &&& kWaiterMask).toNat = w := by
    rw [BitVec.toNat_and, toNat_kWaiterMask, Nat.and_two_pow_sub_one_eq_mod, h.low]
  rw [hasWaiters, decide_eq_true_iff, ne_eq, ne_eq, ← hmask]
  constructor
  · intro hne hzero
    exact hne (BitVec.eq_of_toNat_eq hzero)
  · intro hne hzero
    rw [hzero] at hne
    exact hne rfl

/-- The epoch counts the notifications. -/
theorem Packs.epoch_eq (h : Packs v n w) : epoch v = BitVec.ofNat 32 n := by
  apply BitVec.eq_of_toNat_eq
  rw [epoch, BitVec.toNat_setWidth, BitVec.toNat_ushiftRight, BitVec.toNat_ofNat,
    Nat.shiftRight_eq_div_pow, kEpochShift, h.high, Nat.mod_mod]

/-- Close epochs are equal only without a notification in between. -/
theorem epoch_eq_iff {m : ℕ} (hle : n ≤ m) (hlt : m - n < 2 ^ 32) :
    BitVec.ofNat 32 m = BitVec.ofNat 32 n ↔ m = n := by
  constructor
  · intro heq
    have hval := congrArg BitVec.toNat heq
    rw [BitVec.toNat_ofNat, BitVec.toNat_ofNat] at hval
    omega
  · rintro rfl
    rfl

end Libfork.EventCount
