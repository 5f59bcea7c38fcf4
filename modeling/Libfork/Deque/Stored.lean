import Libfork.Deque.ChaseLev.Model
import Libfork.Found.Window

/-!
# The items in a ring buffer

`chase_lev_deque` and `blocking_deque` keep their items in an `atomic_ring_buf`, from the top on,
and copy them into one twice as large when it is full.

* `AtomicRingBuf.resize` — the bigger buffer.
* `Stored b top bottom q` — the items `q` are in the buffer `b`, at the indices from `top` up to
  `bottom`; with what a push, a pop and a steal make of them.
* **`Stored.resize`** — the loop of `resize` ends, and the bigger buffer holds the items, wherever
  they lie.

Source: `deque_chase_lev.hpp`, `deque_blocking.hpp`, `atomic_ring_buf`.
-/

namespace Libfork.Deque.ChaseLev

open Libfork.Found

variable {α : Type} {b ptr : AtomicRingBuf α} {top bottom : ℤ} {q : List α}

namespace AtomicRingBuf

/-- `for (i = top; i != bot; ++i) ptr->store(i, load(i))`, at most `fuel` times round, from `i`.
Source: `deque_chase_lev.hpp`, `atomic_ring_buf::resize` -/
def copyLoop (b : AtomicRingBuf α) (bot : ℤ) :
    ℕ → ℤ → AtomicRingBuf α → Option (AtomicRingBuf α)
  | 0, i, ptr => if i ≠ bot then none else some ptr
  | fuel + 1, i, ptr =>
      if i ≠ bot then copyLoop b bot fuel (i + 1) (ptr.store i (b.load i)) else some ptr

/-- The bigger buffer, over the memory `mem`; `none` if the loop does not end.
Source: `deque_chase_lev.hpp`, `atomic_ring_buf::resize` -/
def resize (b : AtomicRingBuf α) (mem : ℕ → α) (bot top : ℤ) : Option (AtomicRingBuf α) :=
  b.copyLoop bot (bot - top).toNat top (b.double mem)

end AtomicRingBuf

/-- The items `q`, the oldest first, are in the buffer `b`. -/
structure Stored (b : AtomicRingBuf α) (top bottom : ℤ) (q : List α) : Prop where
  top_nonneg : 0 ≤ top
  bottom_eq : bottom = top + q.length
  fits : q.length ≤ b.capacity
  items : Window b.load top q

namespace Stored

/-- Where the bottom is not beyond the top, nothing is stored. -/
theorem eq_nil (h : Stored b top bottom q) (hle : bottom ≤ top) : q = [] := by
  have hbottom := h.bottom_eq
  exact List.length_eq_zero_iff.mp (by omega)

/-- A store after the youngest item. -/
theorem push (h : Stored b top bottom q) (hroom : q.length < b.capacity) (val : α) :
    Stored (b.store bottom val) top (bottom + 1) (q ++ [val]) := by
  have htop := h.top_nonneg
  have hbottom := h.bottom_eq
  have hlength : (q ++ [val]).length = q.length + 1 := by simp
  refine ⟨htop, by omega, hlength.trans_le hroom, window_snoc.mpr ⟨?_, ?_⟩⟩
  · apply h.items.congr
    intro j hlo hhi
    exact b.load_store_of_ne val (by omega) (by omega) (by omega) (by omega) (by omega)
  · rw [← hbottom]
    simp

/-- The youngest item. -/
theorem pop (h : Stored b top bottom q) (hlt : top < bottom) :
    q.getLast? = some (b.load (bottom - 1)) ∧ Stored b top (bottom - 1) q.dropLast := by
  rcases List.eq_nil_or_concat' q with rfl | ⟨q', v, rfl⟩
  · have hbottom := h.bottom_eq
    simp at hbottom
    omega
  · obtain ⟨hitems, hlast⟩ := window_snoc.mp h.items
    have hbottom := h.bottom_eq
    have hfits := h.fits
    rw [List.length_append, List.length_singleton] at hbottom hfits
    have hindex : bottom - 1 = top + q'.length := by omega
    rw [hindex, hlast]
    refine ⟨by simp, h.top_nonneg, ?_, ?_, ?_⟩ <;> rw [List.dropLast_concat]
    · exact Nat.le_of_succ_le hfits
    · exact hitems

/-- The oldest item. -/
theorem steal (h : Stored b top bottom q) (hlt : top < bottom) :
    ∃ rest, q = b.load top :: rest ∧ Stored b (top + 1) bottom rest := by
  have htop := h.top_nonneg
  have hbottom := h.bottom_eq
  cases q with
  | nil =>
    simp at hbottom
    omega
  | cons v rest =>
    obtain ⟨hv, hitems⟩ := h.items
    have hfits := h.fits
    rw [List.length_cons] at hbottom hfits
    exact ⟨rest, by rw [hv], by omega, by omega, Nat.le_of_succ_le hfits, hitems⟩

/-- The loop copies the items from the index `top + n` on. -/
theorem copyLoop (h : Stored b top bottom q) (hcap : b.capacity ≤ ptr.capacity) {m n : ℕ}
    (hmn : m + n = q.length) (hcopied : Window ptr.load top (q.take n)) :
    ∃ bigger, b.copyLoop bottom m (top + n) ptr = some bigger ∧
      bigger.log2 = ptr.log2 ∧ Window bigger.load top q := by
  have htop := h.top_nonneg
  have hbottom := h.bottom_eq
  have hfits := h.fits
  induction m generalizing n ptr with
  | zero =>
    have hend : top + (n : ℤ) = bottom := by omega
    refine ⟨ptr, by simp [AtomicRingBuf.copyLoop, hend], rfl, ?_⟩
    rwa [List.take_of_length_le (by omega)] at hcopied
  | succ m ih =>
    have hne : top + (n : ℤ) ≠ bottom := by omega
    have hn : n < q.length := by omega
    -- the item that is copied next
    have hitem : b.load (top + n) = q[n] := by
      have hwindow : Window b.load top (q.take n ++ q[n] :: q.drop (n + 1)) := by
        rw [← List.drop_eq_getElem_cons, List.take_append_drop]
        exact h.items
      have hget := (window_append.mp hwindow).2.1
      rwa [List.length_take, Nat.min_eq_left (by omega)] at hget
    have hcopied' : Window (ptr.store (top + n) (b.load (top + n))).load top (q.take (n + 1)) := by
      rw [List.take_add_one, List.getElem?_eq_getElem hn, Option.toList_some, window_snoc]
      constructor
      · apply hcopied.congr
        intro j hlo hhi
        rw [List.length_take] at hhi
        exact ptr.load_store_of_ne _ (by omega) (by omega) (by omega) (by omega) (by omega)
      · rw [List.length_take, Nat.min_eq_left (by omega), AtomicRingBuf.load_store_self, hitem]
    obtain ⟨bigger, hloop, hlog2, hwindow⟩ := @ih (ptr.store (top + n) (b.load (top + n))) hcap
      (n + 1) (by omega) hcopied'
    refine ⟨bigger, ?_, hlog2, hwindow⟩
    rw [Int.natCast_succ, ← Int.add_assoc] at hloop
    rw [AtomicRingBuf.copyLoop, if_pos hne]
    exact hloop

/-- **The bigger buffer** holds the items. -/
theorem resize (h : Stored b top bottom q) (mem : ℕ → α) :
    ∃ bigger, b.resize mem bottom top = some bigger ∧ bigger.log2 = b.log2 + 1 ∧
      Stored bigger top bottom q := by
  have hbottom := h.bottom_eq
  have hfits := h.fits
  have hdouble := b.capacity_double mem
  have hsteps : (bottom - top).toNat + 0 = q.length := by omega
  have hlarger : b.capacity ≤ (b.double mem).capacity := by omega
  obtain ⟨bigger, hloop, hlog2, hitems⟩ := h.copyLoop hlarger hsteps window_nil
  refine ⟨bigger, ?_, hlog2, h.top_nonneg, hbottom, ?_, hitems⟩
  · rw [Int.natCast_zero, Int.add_zero] at hloop
    exact hloop
  · have hcap : bigger.capacity = (b.double mem).capacity := by
      rw [AtomicRingBuf.capacity, hlog2]
      rfl
    omega

end Stored

end Libfork.Deque.ChaseLev
