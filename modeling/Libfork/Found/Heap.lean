import Mathlib.Data.List.Nodup
import Mathlib.Data.List.Pairwise
import Mathlib.Tactic.Common

/-!
# A heap with `malloc` and `free`

* `Chunk` — what one successful `malloc` returned: its number, its address and its size.
* `Heap` — the chunks that are not yet freed, and ghosts: how many there have been, the numbers of
  those that were freed, and the addresses at which `free` found no chunk.
* `Heap.Admits p n align` — a successful `malloc` of `n` bytes may return `p`.
* **`Heap.Sound`** — chunks are disjoint, every chunk was freed once or not at all, and nothing
  else was freed; kept by `malloc` (`Sound.malloc`) and by the `free` of a chunk (`Sound.free`).

Nothing here is about a particular program.
-/

namespace Libfork.Found

/-- What a successful `malloc` returned. -/
structure Chunk where
  id : ℕ
  addr : ℕ
  size : ℕ
deriving DecidableEq, Repr

/-- Two chunks have no byte in common. -/
def Chunk.Apart (c d : Chunk) : Prop := c.addr + c.size ≤ d.addr ∨ d.addr + d.size ≤ c.addr

instance (c d : Chunk) : Decidable (c.Apart d) := inferInstanceAs (Decidable (_ ∨ _))

/-- The heap. -/
structure Heap where
  /-- The chunks that have not been freed. -/
  live : List Chunk
  /-- Ghost: the number of chunks so far. -/
  serial : ℕ
  /-- Ghost: the chunks that were freed. -/
  freed : List ℕ
  /-- Ghost: the calls of `free` that were given no chunk. -/
  wild : List ℕ
deriving DecidableEq, Repr

namespace Heap

/-- A heap nobody has used. -/
def empty : Heap where
  live := []
  serial := 0
  freed := []
  wild := []

/-- A successful `malloc(n)` that returns `p`. -/
def malloc (h : Heap) (p n : ℕ) : Heap :=
  { h with live := ⟨h.serial, p, n⟩ :: h.live, serial := h.serial + 1 }

/-- `free(p)` for a `p` that is not null. -/
def free (h : Heap) (p : ℕ) : Heap :=
  match h.live.find? fun c => c.addr == p with
  | some c => { h with live := h.live.erase c, freed := c.id :: h.freed }
  | none => { h with wild := p :: h.wild }

/-- `p` is the address of a chunk of `n` bytes. -/
def Owned (h : Heap) (p n : ℕ) : Prop := ∃ i, (⟨i, p, n⟩ : Chunk) ∈ h.live

/-- `malloc(n)` may return `p`: it is not null, and a fresh block aligned to `align`. -/
def Admits (h : Heap) (p n align : ℕ) : Prop :=
  0 < p ∧ align ∣ p ∧ ∀ c ∈ h.live, p + n ≤ c.addr ∨ c.addr + c.size ≤ p

instance (h : Heap) (p n align : ℕ) : Decidable (h.Admits p n align) :=
  inferInstanceAs (Decidable (_ ∧ _ ∧ _))

/-- Every chunk is live or was freed once, and nothing else was freed. -/
structure Sound (h : Heap) : Prop where
  apart : h.live.Pairwise Chunk.Apart
  size_pos : ∀ c ∈ h.live, 0 < c.size
  accounted : (h.live.map Chunk.id ++ h.freed).Perm (List.range h.serial)
  wild : h.wild = []

variable {h : Heap} {p q n m align : ℕ}

/-- Nothing is allocated at first. -/
theorem sound_empty : empty.Sound := by
  constructor <;> simp [empty]

/-! ## Chunks -/

instance : Std.Symm Chunk.Apart := ⟨fun _ _ h => Or.symm h⟩

/-- Chunks at one address are one chunk. -/
theorem Sound.eq_of_addr (hs : h.Sound) {c d : Chunk} (hc : c ∈ h.live) (hd : d ∈ h.live)
    (heq : c.addr = d.addr) : c = d := by
  by_contra hne
  have hapart : c.Apart d := hs.apart.forall hc hd hne
  have hcpos := hs.size_pos c hc
  have hdpos := hs.size_pos d hd
  unfold Chunk.Apart at hapart
  omega

/-- Chunks at different addresses are apart. -/
theorem Owned.apart (hs : h.Sound) (hn : h.Owned p n) (hm : h.Owned q m) (hne : p ≠ q) :
    p + n ≤ q ∨ q + m ≤ p := by
  obtain ⟨i, hi⟩ := hn
  obtain ⟨j, hj⟩ := hm
  apply hs.apart.forall hi hj
  intro heq
  simp only [Chunk.mk.injEq] at heq
  exact hne heq.2.1

/-- A new chunk is not where another one is. -/
theorem Admits.ne (ha : h.Admits p n align) (hm : h.Owned q m) (hn : 0 < n)
    (hs : h.Sound) : p ≠ q := by
  obtain ⟨i, hi⟩ := hm
  have hpos := hs.size_pos _ hi
  have hapart := ha.2.2 _ hi
  simp only at hpos hapart
  omega

/-! ## `malloc` -/

/-- What is allocated is there. -/
theorem owned_malloc : (h.malloc p n).Owned p n := ⟨h.serial, List.mem_cons_self⟩

/-- What was there is still there. -/
theorem Owned.malloc (hm : h.Owned q m) : (h.malloc p n).Owned q m := by
  obtain ⟨i, hi⟩ := hm
  exact ⟨i, List.mem_cons_of_mem _ hi⟩

/-- What is live is the new chunk or was live before. -/
theorem mem_live_malloc {c : Chunk} (hc : c ∈ (h.malloc p n).live) : c.addr = p ∨ c ∈ h.live := by
  rcases List.mem_cons.mp hc with rfl | hc
  · exact Or.inl rfl
  · exact Or.inr hc

/-- Allocating keeps the heap sound. -/
theorem Sound.malloc (hs : h.Sound) (hn : 0 < n) (ha : h.Admits p n align) :
    (h.malloc p n).Sound where
  apart := List.pairwise_cons.mpr ⟨fun c hc => ha.2.2 c hc, hs.apart⟩
  size_pos := by
    intro c hc
    rcases List.mem_cons.mp hc with rfl | hc
    · exact hn
    · exact hs.size_pos c hc
  accounted := by
    simp only [Heap.malloc, List.map_cons, List.cons_append, List.range_succ]
    apply List.Perm.trans (List.Perm.cons _ hs.accounted)
    exact (List.perm_append_singleton _ _).symm
  wild := hs.wild

/-! ## `free` -/

/-- `free` finds the chunk it is given. -/
theorem Sound.find (hs : h.Sound) {c : Chunk} (hc : c ∈ h.live) :
    h.live.find? (fun d => d.addr == c.addr) = some c := by
  rcases hfind : h.live.find? (fun d => d.addr == c.addr) with _ | d
  · have hnone := List.find?_eq_none.mp hfind c hc
    simp at hnone
  · have hd := List.mem_of_find?_eq_some hfind
    have haddr := List.find?_some hfind
    rw [hfind, hs.eq_of_addr hd hc (by simpa using haddr)]

/-- Freeing takes one chunk off. -/
theorem Sound.free_eq (hs : h.Sound) {c : Chunk} (hc : c ∈ h.live) :
    h.free c.addr = { h with live := h.live.erase c, freed := c.id :: h.freed } := by
  unfold Heap.free
  rw [hs.find hc]

/-- Freeing keeps the heap sound. -/
theorem Sound.free (hs : h.Sound) (hp : h.Owned p n) : (h.free p).Sound := by
  obtain ⟨i, hi⟩ := hp
  rw [show p = (⟨i, p, n⟩ : Chunk).addr from rfl, hs.free_eq hi]
  constructor
  · exact hs.apart.sublist List.erase_sublist
  · exact fun c hc => hs.size_pos c (List.mem_of_mem_erase hc)
  · refine List.Perm.trans ?_ hs.accounted
    refine List.Perm.trans List.perm_middle ?_
    rw [← List.cons_append]
    apply List.Perm.append_right
    exact ((List.perm_cons_erase hi).map Chunk.id).symm
  · exact hs.wild

/-- The others are still there. -/
theorem Owned.free (hs : h.Sound) (hq : h.Owned q m) (hp : h.Owned p n) (hne : q ≠ p) :
    (h.free p).Owned q m := by
  obtain ⟨i, hi⟩ := hq
  obtain ⟨j, hj⟩ := hp
  rw [show p = (⟨j, p, n⟩ : Chunk).addr from rfl, hs.free_eq hj]
  refine ⟨i, (List.mem_erase_of_ne ?_).mpr hi⟩
  intro heq
  simp only [Chunk.mk.injEq] at heq
  exact hne heq.2.1

/-- What is live was live before, and is another chunk. -/
theorem mem_live_free (hs : h.Sound) (hp : h.Owned p n) {c : Chunk} (hc : c ∈ (h.free p).live) :
    c ∈ h.live ∧ c.addr ≠ p := by
  obtain ⟨j, hj⟩ := hp
  rw [show p = (⟨j, p, n⟩ : Chunk).addr from rfl, hs.free_eq hj] at hc
  have hmem := List.mem_of_mem_erase hc
  refine ⟨hmem, fun heq => ?_⟩
  have hcj := hs.eq_of_addr hmem hj heq
  have hnodup : h.live.Nodup :=
    List.Nodup.of_map Chunk.id
      (List.nodup_append.mp (hs.accounted.nodup_iff.mpr List.nodup_range)).1
  rw [hcj] at hc
  exact (List.Nodup.not_mem_erase hnodup) hc

/-! ## What has been freed -/

/-- A live chunk was not freed. -/
theorem Sound.count_live (hs : h.Sound) {c : Chunk} (hc : c ∈ h.live) : h.freed.count c.id = 0 := by
  have hnodup := hs.accounted.nodup_iff.mpr List.nodup_range
  have hmem : c.id ∈ h.live.map Chunk.id := List.mem_map_of_mem hc
  exact List.count_eq_zero.mpr fun hf => (List.disjoint_of_nodup_append hnodup) hmem hf

/-- **Every other chunk was freed exactly once.** -/
theorem Sound.count_freed (hs : h.Sound) {i : ℕ} (hi : i < h.serial)
    (hlive : ∀ c ∈ h.live, c.id ≠ i) : h.freed.count i = 1 := by
  have hnodup := hs.accounted.nodup_iff.mpr List.nodup_range
  have hmem : i ∈ h.live.map Chunk.id ++ h.freed :=
    hs.accounted.mem_iff.mpr (List.mem_range.mpr hi)
  rcases List.mem_append.mp hmem with hm | hm
  · obtain ⟨c, hc, rfl⟩ := List.mem_map.mp hm
    exact absurd rfl (hlive c hc)
  · exact List.count_eq_one_of_mem (List.nodup_append.mp hnodup).2.1 hm

end Heap

end Libfork.Found
