import Libfork.SegmentedStack.Calls

/-!
# The segmented stack is correct

* `Stack.InUse` — the stacklets from the top down to the root.
* `Correct` — what a client may rely on between two calls: its blocks are aligned, disjoint and in
  stacklets that were not freed, the links of the stacklets agree, and nothing is leaked or freed
  twice.
* **`correct_of_run`** — it holds after every sequence of calls, whatever `malloc` does, and an
  `allocate` that throws changes nothing.

Source: `stack.hpp`.
-/

namespace Libfork.SegmentedStack

open Libfork.Found

variable {s : Stack} {st : Store} {t : State} {a b c p : ℕ} {bs here under : List Block}
  {below : List ℕ}

/-! ## The statement -/

/-- The stacklets that are reached from the top by `m_prev`. -/
inductive Stack.InUse (s : Stack) : ℕ → Prop
  | top : InUse s s.mFib
  | prev {a b : ℕ} (ha : InUse s a) (hprev : (s.store.stacklet a).mPrev = some b) : InUse s b

/-- Two blocks have no byte in common. -/
def Block.Apart (b d : Block) : Prop := b.ptr + b.size ≤ d.ptr ∨ d.ptr + d.size ≤ b.ptr

/-- The block is in the part of the stacklet at `a` that is in use, and this in its chunk. -/
structure Block.Inside (b : Block) (st : Store) (a : ℕ) : Prop where
  lo : (st.stacklet a).mLo ≤ b.ptr
  sp : b.ptr + b.size ≤ (st.stacklet a).mSp
  hi : (st.stacklet a).mSp ≤ (st.stacklet a).mHi
  chunk : ∃ n, st.heap.Owned a n ∧ a ≤ (st.stacklet a).mLo ∧ (st.stacklet a).mHi ≤ a + n

/-- What a client of the stack may rely on between two calls. -/
structure Correct (t : State) : Prop where
  aligned : ∀ b ∈ t.blocks, kNewAlign.toNat ∣ b.ptr
  inside : ∀ b ∈ t.blocks, ∃ a, t.stack.InUse a ∧ b.Inside t.stack.store a
  apart : t.blocks.Pairwise Block.Apart
  isTop : t.stack.store.isTop t.stack.mFib = true
  /-- Only the root may be empty. -/
  used : ∀ a, t.stack.InUse a → (t.stack.store.stacklet a).mPrev ≠ none →
    (t.stack.store.stacklet a).empty = false
  /-- The links agree. -/
  prev : ∀ a b, t.stack.InUse a → (t.stack.store.stacklet a).mPrev = some b →
    (t.stack.store.stacklet b).mNext = some a
  next : ∀ a b, t.stack.InUse a → (t.stack.store.stacklet a).mNext = some b →
    (t.stack.store.stacklet b).mPrev = some a
  /-- Nothing but chunks is freed. -/
  wild : t.stack.store.heap.wild = []
  /-- Every chunk but those of the stack was freed, and once. -/
  freed : ∀ i < t.stack.store.heap.serial, t.stack.store.heap.freed.count i = 1 ∨
    t.stack.store.heap.freed.count i = 0 ∧ ∃ c ∈ t.stack.store.heap.live, c.id = i ∧
      (t.stack.InUse c.addr ∨ t.stack.fib.mNext = some c.addr)
  /-- Once every block is given back, only the root is in use. -/
  drained : t.blocks = [] → t.stack.empty = true ∧ ∀ a, t.stack.InUse a → a = t.stack.mFib

/-- The calls whose size can be rounded up and given a header without an overflow. Every size that
can then still be doubled is one. -/
def Act.Bounded : Act → Prop
  | .allocate size _ => size.toNat + 96 ≤ 2 ^ 64
  | .coNew count elem _ _ => count.toNat * elem.toNat + 96 ≤ 2 ^ 64
  | .deallocate _ => True

instance : DecidablePred Act.Bounded
  | .allocate size _ => inferInstanceAs (Decidable (size.toNat + 96 ≤ 2 ^ 64))
  | .coNew count elem _ _ =>
      inferInstanceAs (Decidable (count.toNat * elem.toNat + 96 ≤ 2 ^ 64))
  | .deallocate _ => inferInstanceAs (Decidable True)

/-- A bounded request is sized in every state. -/
theorem Act.Bounded.sized {act : Act} (h : act.Bounded) : act.Sized t := by
  cases act with
  | allocate size got => exact Or.inl h
  | coNew count elem got throws => exact Or.inl h
  | deallocate ptr => trivial

/-! ## The stacklets beneath another -/

/-- The stacklet before one in use is below it, and points back to it. -/
theorem Under.prev_mem (h : Under st a below bs) (hc : c ∈ a :: below)
    (hprev : (st.stacklet c).mPrev = some b) :
    b ∈ below ∧ (st.stacklet b).mNext = some c := by
  induction below generalizing a bs with
  | nil =>
      obtain rfl := List.mem_singleton.mp hc
      rw [h.1] at hprev
      simp at hprev
  | cons d below ih =>
      obtain ⟨hp, hn, here, under, rfl, hf, hs, hu⟩ := h
      rcases List.mem_cons.mp hc with rfl | hc
      · rw [hp] at hprev
        obtain rfl := Option.some.inj hprev
        exact ⟨List.mem_cons_self, hn⟩
      · exact (ih hu hc).imp_left (List.mem_cons_of_mem _)

/-- A stacklet below is the one before the one that it points to. -/
theorem Under.next_prev (h : Under st a below bs) (hb : b ∈ below)
    (hnext : (st.stacklet b).mNext = some c) : (st.stacklet c).mPrev = some b := by
  induction below generalizing a bs with
  | nil => simp at hb
  | cons d below ih =>
      obtain ⟨hp, hn, here, under, rfl, hf, hs, hu⟩ := h
      rcases List.mem_cons.mp hb with rfl | hb
      · rw [hn] at hnext
        obtain rfl := Option.some.inj hnext
        exact hp
      · exact ih hu hb

/-- What is below a stacklet in use is in use. -/
theorem Under.inUse (h : Under s.store a below bs) (ha : s.InUse a) (hb : b ∈ below) :
    s.InUse b := by
  induction below generalizing a bs with
  | nil => simp at hb
  | cons d below ih =>
      obtain ⟨hp, hn, here, under, rfl, hf, hs, hu⟩ := h
      have hd := ha.prev hp
      rcases List.mem_cons.mp hb with rfl | hb
      · exact hd
      · exact ih hu hd hb

/-- Every block is in one of the stacklets. -/
theorem Under.filled (h : Under st a below bs) {d : Block} (hd : d ∈ bs) :
    ∃ b ∈ below, ∃ here, Filled (b + 48) here (st.stacklet b).mSp ∧ d ∈ here := by
  induction below generalizing a bs with
  | nil =>
      rw [h.2] at hd
      simp at hd
  | cons b below ih =>
      obtain ⟨hp, hn, here, under, rfl, hf, hs, hu⟩ := h
      rcases List.mem_append.mp hd with hd | hd
      · exact ⟨b, List.mem_cons_self, here, hf, hd⟩
      · obtain ⟨c, hc, hrest⟩ := ih hu hd
        exact ⟨c, List.mem_cons_of_mem _ hc, hrest⟩

/-- The blocks between `m_lo` and `m_sp` of a stacklet. -/
def Span (st : Store) (a : ℕ) (d : Block) : Prop :=
  a + 48 ≤ d.ptr ∧ d.ptr + d.size ≤ (st.stacklet a).mSp

/-- The blocks below do not overlap, if no two of their stacklets do. -/
theorem Under.pairwise (h : Under st a below bs) (hnodup : below.Nodup)
    (hapart : ∀ b ∈ below, ∀ c ∈ below, b ≠ c → ∀ d e, Span st b d → Span st c e → d.Apart e) :
    bs.Pairwise Block.Apart := by
  induction below generalizing a bs with
  | nil =>
      rw [h.2]
      exact List.Pairwise.nil
  | cons b below ih =>
      obtain ⟨hp, hn, here, under, rfl, hf, hs, hu⟩ := h
      obtain ⟨hb, hnodup⟩ := List.nodup_cons.mp hnodup
      refine List.pairwise_append.mpr ⟨hf.pairwise.imp Or.inr, ih hu hnodup ?_, ?_⟩
      · exact fun b hb c hc =>
          hapart b (List.mem_cons_of_mem _ hb) c (List.mem_cons_of_mem _ hc)
      · intro d hd e he
        obtain ⟨c, hc, bs, hbs, he⟩ := hu.filled he
        refine hapart b List.mem_cons_self c (List.mem_cons_of_mem _ hc) ?_ d e (hf.mem hd)
          (hbs.mem he)
        rintro rfl
        exact hb hc

/-! ## The whole stack -/

namespace Ready

variable (h : Ready s here under below)

include h

/-- The stacklets in use are the top one and those below it. -/
theorem inUse_iff : s.InUse a ↔ a ∈ s.mFib :: below := by
  constructor
  · intro ha
    induction ha with
    | top => exact List.mem_cons_self
    | prev ha hprev ih => exact List.mem_cons_of_mem _ (h.beneath.prev_mem ih hprev).1
  · intro ha
    rcases List.mem_cons.mp ha with rfl | ha
    · exact .top
    · exact h.beneath.inUse .top ha

/-- A stacklet in use lies in a chunk of its own. -/
theorem placed_of_inUse (ha : a ∈ s.mFib :: below) : ∃ n, Placed s.store a n := by
  apply h.placed
  rcases List.mem_cons.mp ha with rfl | ha
  · exact top_mem
  · exact below_mem ha

/-- Every block is in one of the stacklets. -/
theorem block {d : Block} (hd : d ∈ here ++ under) :
    ∃ b ∈ s.mFib :: below, ∃ bs, Filled (b + 48) bs (s.store.stacklet b).mSp ∧ d ∈ bs := by
  rcases List.mem_append.mp hd with hd | hd
  · exact ⟨s.mFib, List.mem_cons_self, here, h.filled, hd⟩
  · obtain ⟨b, hb, hrest⟩ := h.beneath.filled hd
    exact ⟨b, List.mem_cons_of_mem _ hb, hrest⟩

/-- Blocks of two stacklets in use do not overlap. -/
theorem span_apart (hb : b ∈ s.mFib :: below) (hc : c ∈ s.mFib :: below) (hne : b ≠ c)
    (d e : Block) (hd : Span s.store b d) (he : Span s.store c e) : d.Apart e := by
  obtain ⟨n, hn⟩ := h.placed_of_inUse hb
  obtain ⟨m, hm⟩ := h.placed_of_inUse hc
  have hbfits := h.fits b hb
  have hcfits := h.fits c hc
  have hapart := hn.owned.apart h.sound hm.owned hne
  rw [hn.hi] at hbfits
  rw [hm.hi] at hcfits
  unfold Span at hd he
  unfold Block.Apart
  omega

/-- No two live blocks overlap. -/
theorem apart : (here ++ under).Pairwise Block.Apart := by
  have hnodup := List.nodup_cons.mp h.below_nodup
  refine List.pairwise_append.mpr ⟨h.filled.pairwise.imp Or.inr, ?_, ?_⟩
  · apply h.beneath.pairwise hnodup.2
    exact fun b hb c hc => h.span_apart (List.mem_cons_of_mem _ hb) (List.mem_cons_of_mem _ hc)
  · intro d hd e he
    obtain ⟨c, hc, bs, hbs, he⟩ := h.beneath.filled he
    refine h.span_apart List.mem_cons_self (List.mem_cons_of_mem _ hc) ?_ d e (h.filled.mem hd)
      (hbs.mem he)
    rintro rfl
    exact hnodup.1 hc

/-- The stacklet that `m_fib` points to is the top one. -/
theorem isTop : s.store.isTop s.mFib = true := by
  unfold Store.isTop
  rcases hnext : (s.store.stacklet s.mFib).mNext with _ | c
  · rfl
  · obtain ⟨-, hnone, hempty⟩ := h.ahead c hnext
    simp [Stacklet.empty, hnone, hempty]

/-- A chunk was freed once, or it is live and belongs to a stacklet in use or to the spare. -/
theorem freed {i : ℕ} (hi : i < s.store.heap.serial) :
    s.store.heap.freed.count i = 1 ∨ s.store.heap.freed.count i = 0 ∧
      ∃ c ∈ s.store.heap.live, c.id = i ∧ (s.InUse c.addr ∨ s.fib.mNext = some c.addr) := by
  by_cases hlive : ∃ c ∈ s.store.heap.live, c.id = i
  · right
    obtain ⟨c, hc, rfl⟩ := hlive
    refine ⟨h.sound.count_live hc, c, hc, rfl, ?_⟩
    have hmem := h.live c hc
    simp only [Stack.reach, List.mem_cons, List.mem_append, Option.mem_toList] at hmem
    rcases hmem with hfib | hc | hb
    · exact Or.inl (h.inUse_iff.mpr (List.mem_cons.mpr (Or.inl hfib)))
    · exact Or.inr hc
    · exact Or.inl (h.inUse_iff.mpr (List.mem_cons_of_mem _ hb))
  · left
    exact h.sound.count_freed hi fun c hc heq => hlive ⟨c, hc, heq⟩

end Ready

/-- A stack without blocks has nothing but its root. -/
theorem Inv.drained (h : Inv s here under below) (hblocks : here ++ under = []) :
    s.empty = true ∧ ∀ a, s.InUse a → a = s.mFib := by
  obtain ⟨rfl, rfl⟩ := List.append_eq_nil_iff.mp hblocks
  have hempty : s.fib.mSp = s.fib.mLo := h.filled.trans h.top_lo.symm
  rcases h.below_cases with ⟨hprev, rfl, -⟩ | ⟨b, rest, hprev, -⟩
  · constructor
    · simp [Stack.empty, Stacklet.empty, hempty, hprev]
    · exact fun a ha => List.mem_singleton.mp (h.inUse_iff.mp ha)
  · exact absurd hempty (h.busy (by rw [hprev]; simp))

/-- What holds between the calls is what is to be shown. -/
theorem State.Holds.correct (h : t.Holds) : Correct t := by
  obtain ⟨here, under, below, hinv, hblocks⟩ := h
  constructor
  case aligned =>
    intro d hd
    rw [← hblocks] at hd
    obtain ⟨b, hb, bs, hbs, hd⟩ := hinv.block hd
    obtain ⟨n, hn⟩ := hinv.placed_of_inUse hb
    exact (hbs.aligned (Nat.dvd_add hn.aligned (by decide))).2 d hd
  case inside =>
    intro d hd
    rw [← hblocks] at hd
    obtain ⟨b, hb, bs, hbs, hd⟩ := hinv.block hd
    obtain ⟨n, hn⟩ := hinv.placed_of_inUse hb
    obtain ⟨hlo, hsp⟩ := hbs.mem hd
    refine ⟨b, hinv.inUse_iff.mpr hb, ?_, hsp, hinv.fits b hb, n, hn.owned, ?_, ?_⟩
    · rw [hn.lo]
      exact hlo
    · rw [hn.lo]
      exact Nat.le_add_right b 48
    · exact Nat.le_of_eq hn.hi
  case apart =>
    rw [← hblocks]
    exact hinv.apart
  case isTop => exact hinv.isTop
  case used =>
    intro a ha hprev
    apply beq_eq_false_iff_ne.mpr
    rcases List.mem_cons.mp (hinv.inUse_iff.mp ha) with rfl | hb
    · exact hinv.busy hprev
    · exact hinv.used a hb hprev
  case prev =>
    exact fun a b ha hprev => (hinv.beneath.prev_mem (hinv.inUse_iff.mp ha) hprev).2
  case next =>
    intro a b ha hnext
    rcases List.mem_cons.mp (hinv.inUse_iff.mp ha) with rfl | ha
    · exact (hinv.ahead b hnext).1
    · exact hinv.beneath.next_prev ha hnext
  case wild => exact hinv.sound.wild
  case freed => exact fun i hi => hinv.freed hi
  case drained =>
    rw [← hblocks]
    exact hinv.drained

/-! ## The main result -/

/-- An `allocate` that throws changes nothing. -/
theorem allocate_throws (s : Stack) (size : Size) (got : Option ℕ)
    (hthrows : (s.allocate size got).1 = none) : s.allocate size got = (none, s) := by
  rcases allocate_cases s size got with ⟨heq, -⟩ | ⟨e, -, -, heq⟩
  · exact heq
  · rw [heq] at hthrows
    simp [Stack.bump] at hthrows

/-- **The segmented stack is correct.** Whatever is allocated and given back in last-in-first-out
order, and whenever `malloc` fails. -/
theorem correct_of_run {acts : List Act} (hp : Rooted p)
    (hrun : machine.Run (fun _ act => act.Bounded) (State.new p) acts t) :
    Correct t ∧ ∀ size got, (t.stack.allocate size got).1 = none →
      t.stack.allocate size got = (none, t.stack) :=
  ⟨(holds_run hp (hrun.mono fun _ _ hbounded => hbounded.sized)).correct,
    fun size got => allocate_throws t.stack size got⟩

/-- A second stacklet is cached, freed for a larger one that is oversized once it is empty, and one
`malloc` fails. -/
theorem correct_of_run_regrow :
    ∃ t, machine.Run (fun _ act => act.Bounded) (State.new 4096)
        [.allocate 100 none, .allocate 0 none, .allocate 5000 (some 16384), .allocate 3 none,
          .deallocate 21440, .deallocate 16432, .allocate 9000 none, .allocate 90000 (some 65536),
          .coNew 2 8 none true, .deallocate 65584, .deallocate 4256, .deallocate 4144] t ∧
      t.blocks = [] ∧ t.stack.store.heap.freed = [2, 1] ∧ Correct t ∧
      ∀ size got, (t.stack.allocate size got).1 = none →
        t.stack.allocate size got = (none, t.stack) := by
  have h : (machine.exec (fun _ act => act.Bounded) (State.new 4096)
      [.allocate 100 none, .allocate 0 none, .allocate 5000 (some 16384), .allocate 3 none,
        .deallocate 21440, .deallocate 16432, .allocate 9000 none, .allocate 90000 (some 65536),
        .coNew 2 8 none true, .deallocate 65584, .deallocate 4256, .deallocate 4144]).map
      (fun t => (t.blocks, t.stack.store.heap.freed)) = some ([], [2, 1]) := by
    decide +kernel
  obtain ⟨t, ht, heq⟩ := Option.map_eq_some_iff.mp h
  have hrun := Machine.run_iff_exec.mpr ht
  obtain ⟨hblocks, hfreed⟩ := Prod.mk.inj heq
  exact ⟨t, hrun, hblocks, hfreed, correct_of_run (by decide) hrun⟩

end Libfork.SegmentedStack
