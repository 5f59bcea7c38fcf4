import Libfork.Deque.Blocking.Sequential
import Libfork.Deque.ChaseLev.Sequential

/-!
# `chase_lev_deque` and `blocking_deque` are interchangeable in sequential use

* `Keeps log2 b top bottom p` — the buffer `b` holds the items of the plain list `p`, between the
  indices `top` and `bottom`, and has its capacity.
* **`interchangeable`** — calls that run one at a time are answered alike by the two deques and by
  the plain list, and the capacity is what the plain list says it is.

Source: `deque_chase_lev.hpp`, `deque_blocking.hpp`.
-/

namespace Libfork.Deque

open Libfork.Found
open Libfork.Deque.ChaseLev (AtomicRingBuf ChaseLevDeque Stored)
open Libfork.Deque.Blocking (BlockingDeque)

variable {α : Type} {log2 : ℕ} {b b' : AtomicRingBuf α} {top bottom : ℤ} {p : Plain α}

/-! ## A buffer and the plain list -/

/-- The buffer holds the items of `p`, and has its capacity. -/
structure Keeps (log2 : ℕ) (b : AtomicRingBuf α) (top bottom : ℤ) (p : Plain α) : Prop where
  stored : Stored b top bottom p.items
  most : p.items.length ≤ p.most
  capacity : b.capacity = p.capacity log2

namespace Keeps

/-- The size is the number of items. -/
theorem ssize (h : Keeps log2 b top bottom p) : max (bottom - top) 0 = p.items.length := by
  have hbottom := h.stored.bottom_eq
  omega

/-- The deque is empty when it has no items. -/
theorem empty (h : Keeps log2 b top bottom p) : decide (top ≥ bottom) = p.items.isEmpty := by
  have hbottom := h.stored.bottom_eq
  rw [Bool.eq_iff_iff, decide_eq_true_iff, List.isEmpty_iff_length_eq_zero]
  omega

/-- A push where there is room. -/
theorem push (h : Keeps log2 b top bottom p) (hroom : p.items.length < b.capacity) (val : α) :
    Keeps log2 (b.store bottom val) top (bottom + 1) (p.push val) := by
  refine ⟨h.stored.push hroom val, ?_, ?_⟩
  · simp [Plain.push]
  · rw [h.capacity] at hroom
    exact h.capacity.trans (Plain.capacity_push hroom).symm

/-- A push after `resize`. -/
theorem push_resize (h : Keeps log2 b top bottom p) (hfull : p.items.length = b.capacity)
    (mem : ℕ → α) : ∃ bigger, b.resize mem bottom top = some bigger ∧
      ∀ val, Keeps log2 (bigger.store bottom val) top (bottom + 1) (p.push val) := by
  obtain ⟨bigger, hresize, hlog2, hstored⟩ := h.stored.resize mem
  have hcap : bigger.capacity = 2 * b.capacity := by
    rw [← b.capacity_double mem, AtomicRingBuf.capacity, hlog2]
    rfl
  have hpos : 0 < b.capacity := AtomicRingBuf.capacity_pos
  refine ⟨bigger, hresize, fun val => ⟨hstored.push (by omega) val, by simp [Plain.push], ?_⟩⟩
  rw [h.capacity] at hfull hcap
  exact hcap.trans (Plain.capacity_push_full hfull).symm

/-- A pop takes the newest item. -/
theorem pop (h : Keeps log2 b top bottom p) (hlt : top < bottom) :
    p.items.getLast? = some (b.load (bottom - 1)) ∧
      Keeps log2 b top (bottom - 1) ⟨p.items.dropLast, p.most⟩ := by
  obtain ⟨hlast, hstored⟩ := h.stored.pop hlt
  refine ⟨hlast, hstored, ?_, h.capacity⟩
  rw [List.length_dropLast]
  exact Nat.le_trans (Nat.sub_le _ _) h.most

/-- A steal takes the oldest item. -/
theorem steal [Inhabited α] (h : Keeps log2 b top bottom p) (hlt : top < bottom) :
    p.steal.1 = ⟨.none, b.load top⟩ ∧ Keeps log2 b (top + 1) bottom p.steal.2 := by
  obtain ⟨rest, hitems, hstored⟩ := h.stored.steal hlt
  have hmost := h.most
  rw [hitems, List.length_cons] at hmost
  unfold Plain.steal
  rw [hitems]
  exact ⟨rfl, hstored, Nat.le_of_succ_le hmost, h.capacity⟩

/-- The only item is taken by moving the top. -/
theorem popOnly (h : Keeps log2 b top bottom p) (heq : top = bottom - 1) :
    p.items.getLast? = some (b.load (bottom - 1)) ∧
      Keeps log2 b (top + 1) bottom ⟨p.items.dropLast, p.most⟩ := by
  obtain ⟨hlast, hstored⟩ := h.stored.pop (by omega)
  have htop := h.stored.top_nonneg
  have hnil : p.items.dropLast = [] := hstored.eq_nil (by omega)
  refine ⟨hlast, ?_⟩
  rw [hnil]
  refine ⟨⟨by omega, ?_, Nat.zero_le _, trivial⟩, Nat.zero_le _, h.capacity⟩
  rw [List.length_nil]
  omega

/-- With no items, a pop finds nothing. -/
theorem popNothing (h : Keeps log2 b top bottom p) (hle : bottom ≤ top) :
    p.items.getLast? = none ∧ (⟨p.items.dropLast, p.most⟩ : Plain α) = p := by
  have hnil := h.stored.eq_nil hle
  obtain ⟨items, most⟩ := p
  cases hnil
  exact ⟨rfl, rfl⟩

/-- With no items, a steal finds nothing. -/
theorem stealNothing [Inhabited α] (h : Keeps log2 b top bottom p) (hle : bottom ≤ top) :
    p.steal = (⟨.empty, default⟩, p) := by
  have hnil := h.stored.eq_nil hle
  obtain ⟨items, most⟩ := p
  cases hnil
  rfl

/-- A new deque. -/
theorem new (log2 : ℕ) (mem : ℕ → α) : Keeps log2 ⟨log2, mem⟩ 0 0 (Plain.new : Plain α) := by
  refine ⟨⟨Int.le_refl 0, rfl, Nat.zero_le _, trivial⟩, Nat.le_refl 0, ?_⟩
  refine ((Plain.isLeast_capacity log2 Plain.new).unique ⟨⟨⟨0, ?_⟩, Nat.zero_le _⟩, ?_⟩).symm
  · simp [AtomicRingBuf.capacity]
  · rintro c ⟨⟨k, rfl⟩, -⟩
    exact Nat.le_mul_of_pos_right _ (Nat.two_pow_pos k)

end Keeps

/-! ## The two deques -/

/-- The deque is the plain list `p`. -/
def ChaseLevKeeps (log2 : ℕ) (d : ChaseLevDeque α) (p : Plain α) : Prop :=
  Keeps log2 d.buffer d.mTop d.mBottom p

/-- The deque is the plain list `p`, and the lock is free. -/
def BlockingKeeps (log2 : ℕ) (d : BlockingDeque α) (p : Plain α) : Prop :=
  d.mFlag = 0 ∧ Keeps log2 d.buffer d.mTop d.mBottom p

/-- A push of `chase_lev_deque` does what a push should. -/
theorem chaseLev_push {d : ChaseLevDeque α} (h : ChaseLevKeeps log2 d p) (val : α) :
    ∃ d', d.push val = some d' ∧ ChaseLevKeeps log2 d' (p.push val) := by
  have hbottom := h.stored.bottom_eq
  have hfits := h.stored.fits
  unfold ChaseLevDeque.push ChaseLevDeque.reserve
  by_cases hfull : (d.buffer.capacity : ℤ) < (d.mBottom - d.mTop) + 1
  · obtain ⟨bigger, hresize, hkeeps⟩ :=
      h.push_resize (by omega) (d.heap d.next).slots
    refine ⟨(d.adopt bigger).append d.mBottom val, by simp [hfull, hresize], ?_⟩
    have hbuffer : ((d.adopt bigger).append d.mBottom val).buffer = bigger.store d.mBottom val := by
      simp [ChaseLevDeque.append, ChaseLevDeque.adopt, ChaseLevDeque.buffer, ChaseLevDeque.store]
    unfold ChaseLevKeeps
    rw [hbuffer]
    exact hkeeps val
  · refine ⟨d.append d.mBottom val, by simp [hfull], ?_⟩
    have hbuffer : (d.append d.mBottom val).buffer = d.buffer.store d.mBottom val := by
      simp [ChaseLevDeque.append, ChaseLevDeque.buffer, ChaseLevDeque.store]
    unfold ChaseLevKeeps
    rw [hbuffer]
    exact h.push (by omega) val

/-- So does a pop. -/
theorem chaseLev_pop {d : ChaseLevDeque α} (h : ChaseLevKeeps log2 d p) :
    d.pop.1 = p.items.getLast? ∧ ChaseLevKeeps log2 d.pop.2 ⟨p.items.dropLast, p.most⟩ := by
  unfold ChaseLevDeque.pop ChaseLevDeque.exchangeTop
  have hrestore : d.mBottom - 1 + 1 = d.mBottom := Int.sub_add_cancel ..
  by_cases hle : d.mTop ≤ d.mBottom - 1
  · by_cases heq : d.mTop = d.mBottom - 1
    · obtain ⟨hitem, hkeeps⟩ := h.popOnly heq
      simp only [if_pos hle, if_pos heq, if_true, hitem, hrestore]
      exact ⟨rfl, hkeeps⟩
    · obtain ⟨hitem, hkeeps⟩ := h.pop (by omega)
      simp only [if_pos hle, if_neg heq, hitem]
      exact ⟨rfl, hkeeps⟩
  · obtain ⟨hitem, hsame⟩ := h.popNothing (by omega)
    simp only [if_neg hle, hitem, hsame, hrestore, true_and]
    exact h

/-- So does a steal. -/
theorem chaseLev_steal [Inhabited α] {d : ChaseLevDeque α} (h : ChaseLevKeeps log2 d p) :
    d.steal.1 = p.steal.1 ∧ ChaseLevKeeps log2 d.steal.2 p.steal.2 := by
  unfold ChaseLevDeque.steal ChaseLevDeque.exchangeTop
  by_cases hlt : d.mTop < d.mBottom
  · obtain ⟨hitem, hkeeps⟩ := h.steal hlt
    simp only [if_pos hlt, if_true, hitem, true_and]
    exact hkeeps
  · simp only [if_neg hlt, h.stealNothing (Int.not_lt.mp hlt), true_and]
    exact h

/-- `chase_lev_deque` answers as the plain list does. -/
theorem chaseLev_simulates [Inhabited α] (log2 : ℕ) :
    (ChaseLev.object α).Simulates (Plain.object log2) (ChaseLevKeeps log2) := by
  intro d p q r p' h hcall
  cases q with
  | push val =>
    cases hcall
    obtain ⟨d', hpush, hkeeps⟩ := chaseLev_push h val
    exact ⟨d', by simp [ChaseLev.object, hpush], hkeeps⟩
  | pop =>
    cases hcall
    obtain ⟨hitem, hkeeps⟩ := chaseLev_pop h
    exact ⟨_, by simp [ChaseLev.object, hitem], hkeeps⟩
  | steal =>
    cases hcall
    obtain ⟨hitem, hkeeps⟩ := chaseLev_steal h
    exact ⟨_, by simp [ChaseLev.object, hitem], hkeeps⟩
  | size =>
    cases hcall
    exact ⟨d, by simp [ChaseLev.object, ChaseLevDeque.size, ChaseLevDeque.ssize, h.ssize], h⟩
  | ssize =>
    cases hcall
    exact ⟨d, by simp [ChaseLev.object, ChaseLevDeque.ssize, h.ssize], h⟩
  | empty =>
    cases hcall
    exact ⟨d, by simp [ChaseLev.object, ChaseLevDeque.empty, ← h.empty], h⟩
  | capacity =>
    cases hcall
    exact ⟨d, by simp [ChaseLev.object, ChaseLevDeque.capacity, h.capacity], h⟩

/-- A push of `blocking_deque` does what a push should. -/
theorem blocking_push {d : BlockingDeque α} (h : BlockingKeeps log2 d p) (val : α) :
    ∃ d', d.push val = some d' ∧ BlockingKeeps log2 d' (p.push val) := by
  obtain ⟨hfree, h⟩ := h
  have hbottom := h.stored.bottom_eq
  have hfits := h.stored.fits
  have hlock : d.lock = some { d with mFlag := 1 } := if_pos hfree
  have hbuf : BlockingDeque.buffer { d with mFlag := 1 } = d.buffer := rfl
  unfold BlockingDeque.push BlockingDeque.reserve
  rw [hlock, Option.bind_some]
  by_cases hfull : (d.buffer.capacity : ℤ) < (d.mBottom - d.mTop) + 1
  · obtain ⟨bigger, hresize, hkeeps⟩ :=
      h.push_resize (by omega) (d.heap d.next).slots
    simp only [hbuf, if_pos hfull, hresize, Option.map_some]
    refine ⟨_, rfl, rfl, ?_⟩
    have hbuffer : ((BlockingDeque.adopt { d with mFlag := 1 } bigger).append d.mBottom
        val).unlock.buffer = bigger.store d.mBottom val := by
      simp [BlockingDeque.append, BlockingDeque.adopt, BlockingDeque.buffer, BlockingDeque.store,
        BlockingDeque.unlock]
    rw [hbuffer]
    exact hkeeps val
  · simp only [hbuf, if_neg hfull, Option.map_some]
    refine ⟨_, rfl, rfl, ?_⟩
    have hbuffer : (BlockingDeque.append { d with mFlag := 1 } d.mBottom val).unlock.buffer =
        d.buffer.store d.mBottom val := by
      simp [BlockingDeque.append, BlockingDeque.buffer, BlockingDeque.store, BlockingDeque.unlock]
    rw [hbuffer]
    exact h.push (by omega) val

/-- So does a pop. -/
theorem blocking_pop {d : BlockingDeque α} (h : BlockingKeeps log2 d p) :
    ∃ d', d.pop = some (p.items.getLast?, d') ∧
      BlockingKeeps log2 d' ⟨p.items.dropLast, p.most⟩ := by
  obtain ⟨hfree, h⟩ := h
  have hlock : d.lock = some { d with mFlag := 1 } := if_pos hfree
  unfold BlockingDeque.pop
  by_cases hempty : d.mTop ≥ d.mBottom
  · obtain ⟨hitem, hsame⟩ := h.popNothing hempty
    rw [if_pos (BlockingDeque.emptyRelaxed_iff.mpr hempty), hitem, hsame]
    exact ⟨d, rfl, hfree, h⟩
  · obtain ⟨hitem, hkeeps⟩ := h.pop (Int.not_le.mp hempty)
    have hle : d.mTop ≤ d.mBottom - 1 := by omega
    rw [if_neg (mt BlockingDeque.emptyRelaxed_iff.mp hempty), hlock, Option.map_some, hitem]
    simp only [if_pos hle]
    exact ⟨_, rfl, rfl, hkeeps⟩

/-- So does a steal. -/
theorem blocking_steal [Inhabited α] {d : BlockingDeque α} (h : BlockingKeeps log2 d p) :
    d.steal.1 = p.steal.1 ∧ BlockingKeeps log2 d.steal.2 p.steal.2 := by
  obtain ⟨hfree, h⟩ := h
  have hlock : d.tryLock = some { d with mFlag := 1 } := if_pos hfree
  unfold BlockingDeque.steal
  by_cases hempty : d.mTop ≥ d.mBottom
  · rw [if_pos (BlockingDeque.emptyRelaxed_iff.mpr hempty), h.stealNothing hempty]
    exact ⟨rfl, hfree, h⟩
  · have hlt : d.mTop < d.mBottom := Int.not_le.mp hempty
    obtain ⟨hitem, hkeeps⟩ := h.steal hlt
    rw [if_neg (mt BlockingDeque.emptyRelaxed_iff.mp hempty), hlock, hitem]
    simp only [if_pos hlt]
    exact ⟨rfl, rfl, hkeeps⟩

/-- `blocking_deque` answers as the plain list does. -/
theorem blocking_simulates [Inhabited α] (log2 : ℕ) :
    (Blocking.object α).Simulates (Plain.object log2) (BlockingKeeps log2) := by
  intro d p q r p' h hcall
  cases q with
  | push val =>
    cases hcall
    obtain ⟨d', hpush, hkeeps⟩ := blocking_push h val
    exact ⟨d', by simp [Blocking.object, hpush], hkeeps⟩
  | pop =>
    cases hcall
    obtain ⟨d', hpop, hkeeps⟩ := blocking_pop h
    exact ⟨d', by simp [Blocking.object, hpop], hkeeps⟩
  | steal =>
    cases hcall
    obtain ⟨hitem, hkeeps⟩ := blocking_steal h
    exact ⟨_, by simp [Blocking.object, hitem], hkeeps⟩
  | size =>
    cases hcall
    exact ⟨d, by simp [Blocking.object, BlockingDeque.size, BlockingDeque.ssize, h.2.ssize], h⟩
  | ssize =>
    cases hcall
    exact ⟨d, by simp [Blocking.object, BlockingDeque.ssize, h.2.ssize], h⟩
  | empty =>
    cases hcall
    exact ⟨d, by simp [Blocking.object, BlockingDeque.empty, ← h.2.empty], h⟩
  | capacity =>
    cases hcall
    exact ⟨d, by simp [Blocking.object, BlockingDeque.capacity, h.2.capacity], h⟩

/-- **The two deques are interchangeable in sequential use.** For every initial capacity and every
sequence of calls that run one at a time, they answer as each other and as the plain list do, and
in the end their capacity is the initial one times a power of two, and the smallest such number
that holds the largest number of items so far. -/
theorem interchangeable [Inhabited α] (log2 : ℕ) (mem mem' : ℕ → ℕ → α) (qs : List (Request α)) :
    ∃ rs p d e,
      (Plain.object log2).runs Plain.new qs = some (rs, p) ∧
      (ChaseLev.object α).runs (ChaseLevDeque.new log2 mem) qs = some (rs, d) ∧
      (Blocking.object α).runs (BlockingDeque.new log2 mem') qs = some (rs, e) ∧
      IsLeast {c | (∃ k, c = 2 ^ log2 * 2 ^ k) ∧ p.most ≤ c} d.capacity ∧
      e.capacity = d.capacity := by
  obtain ⟨rs, p, hplain⟩ := Object.exists_runs (Plain.exists_call log2) Plain.new qs
  obtain ⟨d, hchase, hd⟩ :=
    (chaseLev_simulates log2).runs (s := ChaseLevDeque.new log2 mem) (Keeps.new log2 _) hplain
  obtain ⟨e, hblocking, -, he⟩ :=
    (blocking_simulates log2).runs (s := BlockingDeque.new log2 mem') ⟨rfl, Keeps.new log2 _⟩ hplain
  refine ⟨rs, p, d, e, hplain, hchase, hblocking, ?_, ?_⟩
  · change IsLeast _ d.buffer.capacity
    rw [hd.capacity]
    exact Plain.isLeast_capacity log2 p
  · exact he.capacity.trans hd.capacity.symm

/-- A window that wraps round is copied by a growth. -/
example : ((ChaseLev.object ℕ).runs (ChaseLevDeque.new 1 fun _ _ => 0)
    [.push 1, .push 2, .steal, .push 3, .push 4, .steal, .pop, .capacity]).map Prod.fst =
      some [.pushed, .pushed, .stolen ⟨.none, 1⟩, .pushed, .pushed, .stolen ⟨.none, 2⟩,
        .popped (some 4), .capacity 4] := by
  decide +kernel

end Libfork.Deque
