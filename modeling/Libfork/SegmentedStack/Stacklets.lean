import Libfork.SegmentedStack.Model

/-!
# Stacklets and what is in them

* `Placed` — a chunk of the heap with a stacklet in it.
* `Filled` — the blocks in one stacklet, without gaps; `Under` — those in the stacklets beneath
  another one.
* What `set_next` and `next_stacklet` change, and what they leave.

Source: `stack.hpp`, `class stacklet`.
-/

namespace Libfork.SegmentedStack

open Libfork.Found

/-! ## One stacklet -/

/-- The chunk of `n` bytes at `a` holds a stacklet. -/
structure Placed (st : Store) (a n : ℕ) : Prop where
  owned : st.heap.Owned a n
  lo : (st.stacklet a).mLo = a + 48
  hi : (st.stacklet a).mHi = a + n
  room : n % 4096 = 4048
  lt : n < 2 ^ 64
  aligned : 16 ∣ a

/-- The blocks `bs`, the last one first, are all there is between `lo` and `sp`. -/
def Filled (lo : ℕ) : List Block → ℕ → Prop
  | [], sp => sp = lo
  | b :: bs, sp => sp = b.ptr + padded b.size ∧ Filled lo bs b.ptr

/-- No block is an empty one at `lo`. -/
def Solid (lo : ℕ) (bs : List Block) : Prop := ∀ b ∈ bs, lo < b.ptr + padded b.size

/-- The stacklets beneath `a`, and the blocks in them. -/
def Under (st : Store) (a : ℕ) : List ℕ → List Block → Prop
  | [], bs => (st.stacklet a).mPrev = none ∧ bs = []
  | b :: below, bs =>
      (st.stacklet a).mPrev = some b ∧ (st.stacklet b).mNext = some a ∧
        ∃ here under, bs = here ++ under ∧ Filled (b + 48) here (st.stacklet b).mSp ∧
          ((st.stacklet b).mPrev ≠ none → Solid (b + 48) here) ∧ Under st b below under

variable {st st' : Store} {a b c n lo sp : ℕ} {bs here under : List Block} {below : List ℕ}

/-- A difference of addresses that fits in a word is the word's value. -/
theorem toNat_ofInt_sub {i j : ℕ} (hle : j ≤ i) (hlt : i - j < 2 ^ 64) :
    (BitVec.ofInt 64 ((i : ℤ) - j)).toNat = i - j := by
  have hsub : (i : ℤ) - j = ((i - j : ℕ) : ℤ) := (Int.ofNat_sub hle).symm
  rw [hsub, BitVec.ofInt_natCast, BitVec.toNat_ofNat, Nat.mod_eq_of_lt hlt]

/-- The capacity of a stacklet is its chunk without the header. -/
theorem Placed.toNat_capacity (h : Placed st a n) :
    (st.stacklet a).capacity.toNat = n - 48 := by
  have hroom := h.room
  have hlt := h.lt
  unfold Stacklet.capacity
  rw [h.lo, h.hi, toNat_ofInt_sub (by omega) (by omega)]
  omega

/-- What is unused is what lies between the pointer and the end. -/
theorem Placed.toNat_unused (h : Placed st a n) (hlo : (st.stacklet a).mLo ≤ (st.stacklet a).mSp)
    (hhi : (st.stacklet a).mSp ≤ (st.stacklet a).mHi) :
    (st.stacklet a).unused.toNat = (st.stacklet a).mHi - (st.stacklet a).mSp := by
  have hlt := h.lt
  have hl := h.lo
  have hh := h.hi
  unfold Stacklet.unused
  exact toNat_ofInt_sub hhi (by omega)

/-- A header that keeps its bounds, in a chunk that stays. -/
theorem Placed.congr (h : Placed st a n) (howned : st'.heap.Owned a n)
    (hlo : (st'.stacklet a).mLo = (st.stacklet a).mLo)
    (hhi : (st'.stacklet a).mHi = (st.stacklet a).mHi) : Placed st' a n :=
  ⟨howned, hlo.trans h.lo, hhi.trans h.hi, h.room, h.lt, h.aligned⟩

/-- Blocks only move the pointer up. -/
theorem Filled.le (h : Filled lo bs sp) : lo ≤ sp := by
  induction bs generalizing sp with
  | nil => exact Nat.le_of_eq h.symm
  | cons b bs ih =>
      have hb := ih h.2
      have hsp := h.1
      omega

/-- A block lies between the beginning of the room and the pointer. -/
theorem Filled.mem (h : Filled lo bs sp) {b : Block} (hb : b ∈ bs) :
    lo ≤ b.ptr ∧ b.ptr + b.size ≤ sp := by
  induction bs generalizing sp with
  | nil => simp at hb
  | cons d bs ih =>
      have hd := le_padded d.size
      have hsp := h.1
      rcases List.mem_cons.mp hb with rfl | hb
      · exact ⟨h.2.le, by omega⟩
      · obtain ⟨hlo, hle⟩ := ih h.2 hb
        exact ⟨hlo, by omega⟩

/-- Blocks are aligned if the room begins aligned. -/
theorem Filled.aligned (h : Filled lo bs sp) (hlo : 16 ∣ lo) :
    16 ∣ sp ∧ ∀ b ∈ bs, 16 ∣ b.ptr := by
  induction bs generalizing sp with
  | nil =>
      constructor
      · rw [h]
        exact hlo
      · simp
  | cons d bs ih =>
      obtain ⟨hptr, hbs⟩ := ih h.2
      constructor
      · rw [h.1]
        exact Nat.dvd_add hptr (dvd_padded d.size)
      · simp only [List.mem_cons, forall_eq_or_imp]
        exact ⟨hptr, hbs⟩

/-- Earlier blocks end where later ones begin, or before. -/
theorem Filled.pairwise (h : Filled lo bs sp) :
    bs.Pairwise fun b d => d.ptr + d.size ≤ b.ptr := by
  induction bs generalizing sp with
  | nil => exact List.Pairwise.nil
  | cons d bs ih => exact List.pairwise_cons.mpr ⟨fun b hb => (h.2.mem hb).2, ih h.2⟩

/-- Without its solid blocks a stacklet is empty. -/
theorem Filled.eq_nil (h : Filled lo bs lo) (hsolid : Solid lo bs) : bs = [] := by
  rcases bs with _ | ⟨b, bs⟩
  · rfl
  · have hb := hsolid b List.mem_cons_self
    have hsp := h.1
    omega

/-! ## The stacklets beneath another -/

/-- What is below depends on the pointers back and on the stacklets below only. -/
theorem Under.congr (h : Under st a below bs)
    (hprev : (st'.stacklet a).mPrev = (st.stacklet a).mPrev)
    (hsame : ∀ b ∈ below, st'.stacklet b = st.stacklet b) : Under st' a below bs := by
  induction below generalizing a bs with
  | nil => exact ⟨hprev.trans h.1, h.2⟩
  | cons b below ih =>
      obtain ⟨hp, hn, here, under, rfl, hf, hs, hu⟩ := h
      have hb := hsame b List.mem_cons_self
      refine ⟨hprev.trans hp, ?_, here, under, rfl, ?_, ?_, ?_⟩
      · rw [hb]
        exact hn
      · rw [hb]
        exact hf
      · rw [hb]
        exact hs
      · exact ih hu (by rw [hb]) fun d hd => hsame d (List.mem_cons_of_mem _ hd)

/-! ## The pointer to the next stacklet -/

section SetNext

variable {new : Option ℕ}

/-- Freeing a chunk leaves the headers alone. -/
theorem free_stacklet (p : Option ℕ) : (st.free p).stacklet = st.stacklet := by
  cases p <;> rfl

/-- The stacklet whose spare is replaced. -/
theorem setNext_stacklet_self :
    (st.setNext a new).stacklet a = { st.stacklet a with mNext := new } := by
  unfold Store.setNext
  rw [free_stacklet]
  exact Function.update_self _ _ _

/-- The other stacklets stay as they are. -/
theorem setNext_stacklet_of_ne (hne : b ≠ a) :
    (st.setNext a new).stacklet b = st.stacklet b := by
  unfold Store.setNext
  rw [free_stacklet]
  exact Function.update_of_ne hne _ _

/-- Without a spare there is nothing to free. -/
theorem setNext_heap_none (hnext : (st.stacklet a).mNext = none) :
    (st.setNext a new).heap = st.heap := by
  unfold Store.setNext
  rw [hnext]
  rfl

/-- The old spare is freed. -/
theorem setNext_heap_some (hnext : (st.stacklet a).mNext = some c) :
    (st.setNext a new).heap = st.heap.free c := by
  unfold Store.setNext
  rw [hnext]
  rfl

variable (hs : st.heap.Sound) (hown : ∀ c, (st.stacklet a).mNext = some c → ∃ n, st.heap.Owned c n)

include hs hown

/-- The heap stays sound. -/
theorem setNext_sound : (st.setNext a new).heap.Sound := by
  rcases hnext : (st.stacklet a).mNext with _ | c
  · rw [setNext_heap_none hnext]
    exact hs
  · obtain ⟨n, hn⟩ := hown c hnext
    rw [setNext_heap_some hnext]
    exact hs.free hn

/-- Only the stacklet that was next is freed. -/
theorem setNext_owned (hb : st.heap.Owned b n) (hne : (st.stacklet a).mNext ≠ some b) :
    (st.setNext a new).heap.Owned b n := by
  rcases hnext : (st.stacklet a).mNext with _ | c
  · rw [setNext_heap_none hnext]
    exact hb
  · obtain ⟨m, hm⟩ := hown c hnext
    rw [setNext_heap_some hnext]
    apply hb.free hs hm
    rintro rfl
    exact hne hnext

/-- What is live afterwards was live before and is not the old spare. -/
theorem setNext_live {d : Chunk} (hd : d ∈ (st.setNext a new).heap.live) :
    d ∈ st.heap.live ∧ (st.stacklet a).mNext ≠ some d.addr := by
  rcases hnext : (st.stacklet a).mNext with _ | c
  · rw [setNext_heap_none hnext] at hd
    exact ⟨hd, by simp⟩
  · obtain ⟨m, hm⟩ := hown c hnext
    rw [setNext_heap_some hnext] at hd
    obtain ⟨hlive, hne⟩ := Heap.mem_live_free hs hm hd
    refine ⟨hlive, fun heq => hne ?_⟩
    exact (Option.some.inj heq).symm

end SetNext

/-! ## A new stacklet -/

section NextStacklet

variable {size : Size} {p : ℕ}

/-- The header of a new stacklet. -/
theorem nextStacklet_self (prev : Option ℕ) :
    (st.nextStacklet size prev (some p)).2.stacklet p =
      ⟨p + 48, p + 48, p + (request size).toNat, prev, none⟩ :=
  Function.update_self _ _ _

/-- The stacklet before the new one points to it. -/
theorem nextStacklet_prev (hne : a ≠ p) :
    (st.nextStacklet size (some a) (some p)).2.stacklet a =
      { st.stacklet a with mNext := some p } :=
  (Function.update_of_ne hne _ _).trans setNext_stacklet_self

/-- The other headers stay as they are. -/
theorem nextStacklet_of_ne (hp : b ≠ p) (ha : b ≠ a) :
    (st.nextStacklet size (some a) (some p)).2.stacklet b = st.stacklet b :=
  (Function.update_of_ne hp _ _).trans (setNext_stacklet_of_ne ha)

/-- The store when the new stacklet has been allocated. -/
def Store.grown (st : Store) (size : Size) (p : ℕ) : Store :=
  { st with heap := st.heap.malloc p (request size).toNat }

variable (hs : st.heap.Sound) (hown : ∀ c, (st.stacklet a).mNext = some c → ∃ n, st.heap.Owned c n)
  (hp : st.heap.Admits p (request size).toNat 16)

include hs hp in
/-- The heap is sound when the new chunk is there. -/
theorem sound_grown : (st.grown size p).heap.Sound := by
  have hroom := request_mod size
  exact hs.malloc (by omega) hp

include hown in
/-- The old spare has a chunk when the new one is there. -/
theorem owned_grown (c : ℕ) (hc : ((st.grown size p).stacklet a).mNext = some c) :
    ∃ n, (st.grown size p).heap.Owned c n :=
  (hown c hc).imp fun _ => Heap.Owned.malloc

include hs hown hp

/-- The heap is sound when the old spare is gone. -/
theorem nextStacklet_sound : (st.nextStacklet size (some a) (some p)).2.heap.Sound :=
  setNext_sound (sound_grown hs hp) (owned_grown hown)

/-- What has a chunk, and is not the old spare, keeps it. -/
theorem nextStacklet_owned (hb : (st.heap.malloc p (request size).toNat).Owned b n)
    (hne : (st.stacklet a).mNext ≠ some b) :
    (st.nextStacklet size (some a) (some p)).2.heap.Owned b n :=
  setNext_owned (sound_grown hs hp) (owned_grown hown) hb hne

/-- What is live is the new chunk, or was live before and is not the old spare. -/
theorem nextStacklet_live {d : Chunk}
    (hd : d ∈ (st.nextStacklet size (some a) (some p)).2.heap.live) :
    d.addr = p ∨ d ∈ st.heap.live ∧ (st.stacklet a).mNext ≠ some d.addr := by
  obtain ⟨hlive, hne⟩ := setNext_live (sound_grown hs hp) (owned_grown hown) hd
  exact (Heap.mem_live_malloc hlive).imp_right fun hold => ⟨hold, hne⟩

end NextStacklet

end Libfork.SegmentedStack
