import Libfork.SegmentedStack.Stacklets

/-!
# The invariant of the segmented stack

The blocks of the client fill the stacklets from the root to the top without gaps.

* `Ready` — the shape of a stack whose top may be empty; `Inv` — that of one between two calls.
* `Ready.setSp`, `Ready.dropNext`, `Ready.enterCached`, `Ready.grow`, `Ready.leave` — the moves the
  calls are made of.

Source: `stack.hpp`, `class stack`.
-/

namespace Libfork.SegmentedStack

open Libfork.Found

variable {st : Store} {a b c : ℕ} {here under : List Block} {below : List ℕ}

/-! ## The whole stack -/

/-- The stacklets of a stack: the top, the one cached ahead of it, and those beneath. -/
def Stack.reach (s : Stack) (below : List ℕ) : List ℕ := s.mFib :: (s.fib.mNext.toList ++ below)

/-- A stack of stacklets with the blocks `here` in the top one, which may be empty, and `under` in
those beneath. -/
structure Ready (s : Stack) (here under : List Block) (below : List ℕ) : Prop where
  sound : s.store.heap.Sound
  placed : ∀ a ∈ s.reach below, ∃ n, Placed s.store a n
  nodup : (s.reach below).Nodup
  live : ∀ c ∈ s.store.heap.live, c.addr ∈ s.reach below
  filled : Filled (s.mFib + 48) here s.fib.mSp
  solid : s.fib.mPrev ≠ none → Solid (s.mFib + 48) here
  beneath : Under s.store s.mFib below under
  fits : ∀ a ∈ s.mFib :: below, (s.store.stacklet a).mSp ≤ (s.store.stacklet a).mHi
  used : ∀ a ∈ below, (s.store.stacklet a).mPrev ≠ none →
    (s.store.stacklet a).mSp ≠ (s.store.stacklet a).mLo
  ahead : ∀ c, s.fib.mNext = some c → (s.store.stacklet c).mPrev = some s.mFib ∧
    (s.store.stacklet c).mNext = none ∧ (s.store.stacklet c).mSp = (s.store.stacklet c).mLo

/-- The cached stacklet is not oversized. -/
def Guarded (s : Stack) : Prop :=
  ∀ c, s.fib.mNext = some c → ¬ 8 * s.fib.capacity < (s.store.stacklet c).capacity

/-- A stack between two calls. -/
structure Inv (s : Stack) (here under : List Block) (below : List ℕ) : Prop
    extends Ready s here under below where
  busy : s.fib.mPrev ≠ none → s.fib.mSp ≠ s.fib.mLo
  guarded : Guarded s

variable {s : Stack} {ptr : ℕ}

/-- Setting the pointer leaves the top where it is. -/
@[simp] theorem setSp_mFib : (s.setSp ptr).mFib = s.mFib := rfl

/-- It leaves the heap alone. -/
@[simp] theorem setSp_heap : (s.setSp ptr).store.heap = s.store.heap := rfl

/-- It is all that happens to the top stacklet. -/
@[simp] theorem setSp_fib : (s.setSp ptr).fib = { s.fib with mSp := ptr } :=
  Function.update_self _ _ _

/-- The top stacklet, in the store. -/
theorem setSp_stacklet_self : (s.setSp ptr).store.stacklet s.mFib = { s.fib with mSp := ptr } :=
  Function.update_self _ _ _

/-- The other stacklets stay as they are. -/
theorem setSp_stacklet_of_ne (h : a ≠ s.mFib) :
    (s.setSp ptr).store.stacklet a = s.store.stacklet a :=
  Function.update_of_ne h _ _

/-- The same stacklets are reachable. -/
theorem setSp_reach : (s.setSp ptr).reach below = s.reach below := by
  unfold Stack.reach
  rw [setSp_fib, setSp_mFib]

namespace Ready

/-- The top stacklet is reachable. -/
theorem top_mem : s.mFib ∈ s.reach below := List.mem_cons_self

/-- The stacklets below are reachable. -/
theorem below_mem (ha : a ∈ below) : a ∈ s.reach below :=
  List.mem_cons_of_mem _ (List.mem_append_right _ ha)

/-- So is the spare. -/
theorem ahead_mem (hc : s.fib.mNext = some c) : c ∈ s.reach below := by
  unfold Stack.reach
  simp [hc]

variable (h : Ready s here under below)

include h

/-- A stacklet below is not the top one. -/
theorem ne_of_below (ha : a ∈ below) : a ≠ s.mFib := by
  rintro rfl
  exact (List.nodup_cons.mp h.nodup).1 (List.mem_append_right _ ha)

/-- Neither is the spare. -/
theorem ne_of_ahead (hc : s.fib.mNext = some c) : c ≠ s.mFib := by
  rintro rfl
  apply (List.nodup_cons.mp h.nodup).1
  simp [hc]

/-- The spare is not below. -/
theorem not_below_of_ahead (hc : s.fib.mNext = some c) : c ∉ below := by
  have hnodup := (List.nodup_cons.mp h.nodup).2
  rw [hc] at hnodup
  exact (List.nodup_cons.mp hnodup).1

/-- The stacklets in use differ. -/
theorem below_nodup : (s.mFib :: below).Nodup :=
  h.nodup.sublist (List.Sublist.cons_cons _ (List.sublist_append_right _ _))

/-- A reachable stacklet has a chunk. -/
theorem owned (ha : a ∈ s.reach below) : ∃ n, s.store.heap.Owned a n := by
  obtain ⟨n, hn⟩ := h.placed a ha
  exact ⟨n, hn.owned⟩

/-- The room of the top stacklet begins after its header. -/
theorem top_lo : s.fib.mLo = s.mFib + 48 := by
  obtain ⟨n, hn⟩ := h.placed _ top_mem
  exact hn.lo

/-- The spare has a chunk. -/
theorem owned_ahead (hc : s.fib.mNext = some c) : ∃ n, s.store.heap.Owned c n :=
  h.owned (ahead_mem hc)

/-- Neither the top nor a stacklet beneath it is the cached one. -/
theorem ne_ahead (hb : b ∈ s.mFib :: below) : s.fib.mNext ≠ some b := by
  intro hc
  rcases List.mem_cons.mp hb with rfl | hb
  · exact h.ne_of_ahead hc rfl
  · exact h.not_below_of_ahead hc hb

/-- The stack pointer of the top is moved to where a block begins or ends. -/
theorem setSp {here' : List Block} (hf : Filled (s.mFib + 48) here' ptr)
    (hsolid : s.fib.mPrev ≠ none → Solid (s.mFib + 48) here') (hp : ptr ≤ s.fib.mHi) :
    Ready (s.setSp ptr) here' under below where
  sound := h.sound
  placed := by
    intro a ha
    rw [setSp_reach] at ha
    obtain ⟨n, hn⟩ := h.placed a ha
    by_cases hfib : a = s.mFib
    · subst hfib
      refine ⟨n, hn.congr hn.owned ?_ ?_⟩
      · rw [setSp_stacklet_self]
        rfl
      · rw [setSp_stacklet_self]
        rfl
    · exact ⟨n, hn.congr hn.owned (by rw [setSp_stacklet_of_ne hfib])
        (by rw [setSp_stacklet_of_ne hfib])⟩
  nodup := by
    rw [setSp_reach]
    exact h.nodup
  live := by
    intro c hc
    rw [setSp_reach]
    exact h.live c hc
  filled := by
    rw [setSp_fib]
    exact hf
  solid := by
    rw [setSp_fib]
    exact hsolid
  beneath := by
    apply h.beneath.congr
    · rw [setSp_stacklet_self]
      rfl
    · exact fun b hb => setSp_stacklet_of_ne (h.ne_of_below hb)
  fits := by
    intro a ha
    rcases List.mem_cons.mp ha with rfl | hb
    · rw [setSp_mFib, setSp_stacklet_self]
      exact hp
    · rw [setSp_stacklet_of_ne (h.ne_of_below hb)]
      exact h.fits a (List.mem_cons_of_mem _ hb)
  used := by
    intro a ha
    rw [setSp_stacklet_of_ne (h.ne_of_below ha)]
    exact h.used a ha
  ahead := by
    intro c hc
    rw [setSp_fib] at hc
    rw [setSp_stacklet_of_ne (h.ne_of_ahead hc)]
    exact h.ahead c hc

/-- The cached stacklet is freed. -/
theorem dropNext :
    Ready { s with store := s.store.setNext s.mFib none } here under below := by
  have hown := fun c => h.owned_ahead (c := c)
  have hself : (s.store.setNext s.mFib none).stacklet s.mFib = { s.fib with mNext := none } :=
    setNext_stacklet_self
  have hother : ∀ b ∈ below, (s.store.setNext s.mFib none).stacklet b = s.store.stacklet b :=
    fun b hb => setNext_stacklet_of_ne (h.ne_of_below hb)
  have hreach : ({ s with store := s.store.setNext s.mFib none } : Stack).reach below =
      s.mFib :: below := by
    unfold Stack.reach Stack.fib
    rw [hself]
    rfl
  have hkeep : ∀ b ∈ s.mFib :: below, ∃ m, (s.store.setNext s.mFib none).stacklet b =
      { s.store.stacklet b with mNext := m } := by
    intro b hb
    rcases List.mem_cons.mp hb with rfl | hb
    · exact ⟨none, hself⟩
    · exact ⟨_, hother b hb⟩
  constructor
  case sound => exact setNext_sound h.sound hown
  case placed =>
    rw [hreach]
    intro b hb
    obtain ⟨m, hm⟩ := hkeep b hb
    obtain ⟨n, hn⟩ := h.placed b (by
      rcases List.mem_cons.mp hb with rfl | hb
      · exact top_mem
      · exact below_mem hb)
    refine ⟨n, hn.congr (setNext_owned h.sound hown hn.owned (h.ne_ahead hb)) ?_ ?_⟩
    · rw [hm]
    · rw [hm]
  case nodup =>
    rw [hreach]
    exact h.below_nodup
  case live =>
    rw [hreach]
    intro d hd
    obtain ⟨hlive, hne⟩ := setNext_live h.sound hown hd
    have hmem := h.live d hlive
    simp only [Stack.reach, List.mem_cons, List.mem_append, Option.mem_toList] at hmem
    rcases hmem with hfib | hc | hb
    · exact List.mem_cons.mpr (Or.inl hfib)
    · exact absurd hc hne
    · exact List.mem_cons_of_mem _ hb
  case filled =>
    unfold Stack.fib
    rw [hself]
    exact h.filled
  case solid =>
    unfold Stack.fib
    rw [hself]
    exact h.solid
  case beneath =>
    apply h.beneath.congr
    · rw [hself]
      rfl
    · exact hother
  case fits =>
    intro b hb
    obtain ⟨m, hm⟩ := hkeep b hb
    rw [hm]
    exact h.fits b hb
  case used =>
    intro b hb
    rw [hother b hb]
    exact h.used b hb
  case ahead =>
    intro c hc
    unfold Stack.fib at hc
    rw [hself] at hc
    simp at hc

/-- The stack moves on to the cached stacklet. -/
theorem enterCached (hbusy : s.fib.mPrev ≠ none → s.fib.mSp ≠ s.fib.mLo)
    (hc : s.fib.mNext = some c) :
    Ready { s with mFib := c } [] (here ++ under) (s.mFib :: below) := by
  obtain ⟨hprev, hnext, hempty⟩ := h.ahead c hc
  have hreach : ({ s with mFib := c } : Stack).reach (s.mFib :: below) =
      c :: s.mFib :: below := by
    unfold Stack.reach Stack.fib
    rw [hnext]
    rfl
  have hold : s.reach below = s.mFib :: c :: below := by
    unfold Stack.reach
    rw [hc]
    rfl
  have hperm : (c :: s.mFib :: below).Perm (s.reach below) := by
    rw [hold]
    exact List.Perm.swap _ _ _
  obtain ⟨n, hn⟩ := h.placed c (ahead_mem hc)
  constructor
  case sound => exact h.sound
  case placed =>
    rw [hreach]
    exact fun b hb => h.placed b (hperm.mem_iff.mp hb)
  case nodup =>
    rw [hreach]
    exact hperm.nodup_iff.mpr h.nodup
  case live =>
    rw [hreach]
    exact fun d hd => hperm.mem_iff.mpr (h.live d hd)
  case filled => exact hempty.trans hn.lo
  case solid => exact fun _ b hb => absurd hb List.not_mem_nil
  case beneath => exact ⟨hprev, hc, here, under, rfl, h.filled, h.solid, h.beneath⟩
  case fits =>
    intro b hb
    rcases List.mem_cons.mp hb with rfl | hb
    · have hlo := hn.lo
      have hhi := hn.hi
      have hroom := hn.room
      simp only at hempty ⊢
      omega
    · exact h.fits b hb
  case used =>
    intro b hb
    rcases List.mem_cons.mp hb with rfl | hb
    · exact hbusy
    · exact h.used b hb
  case ahead =>
    intro d hd
    unfold Stack.fib at hd
    rw [hnext] at hd
    simp at hd

/-- A new chunk is not one of the stacklets. -/
theorem ne_new {size : Size} {p : ℕ} (hp : s.store.heap.Admits p (request size).toNat 16)
    (ha : a ∈ s.reach below) : a ≠ p := by
  obtain ⟨m, hm⟩ := h.owned ha
  have hroom := request_mod size
  exact (hp.ne hm (by omega) h.sound).symm

/-- A new stacklet is put on top, and what was cached is freed. -/
theorem grow {size : Size} {p : ℕ} (hbusy : s.fib.mPrev ≠ none → s.fib.mSp ≠ s.fib.mLo)
    (hp : s.store.heap.Admits p (request size).toNat 16) :
    Ready ⟨(s.store.nextStacklet size (some s.mFib) (some p)).2, p⟩ [] (here ++ under)
      (s.mFib :: below) := by
  have hmem : ∀ b ∈ s.mFib :: below, b ∈ s.reach below := by
    intro b hb
    rcases List.mem_cons.mp hb with rfl | hb
    · exact top_mem
    · exact below_mem hb
  have hown := fun c => h.owned_ahead (c := c)
  have hself : (s.store.nextStacklet size (some s.mFib) (some p)).2.stacklet p =
      ⟨p + 48, p + 48, p + (request size).toNat, some s.mFib, none⟩ := nextStacklet_self _
  have hfib : (s.store.nextStacklet size (some s.mFib) (some p)).2.stacklet s.mFib =
      { s.fib with mNext := some p } := nextStacklet_prev (h.ne_new hp top_mem)
  have hother : ∀ b ∈ below, (s.store.nextStacklet size (some s.mFib) (some p)).2.stacklet b =
      s.store.stacklet b := fun b hb =>
    nextStacklet_of_ne (h.ne_new hp (below_mem hb)) (h.ne_of_below hb)
  have hkeep : ∀ b ∈ s.mFib :: below,
      ∃ m, (s.store.nextStacklet size (some s.mFib) (some p)).2.stacklet b =
        { s.store.stacklet b with mNext := m } := by
    intro b hb
    rcases List.mem_cons.mp hb with rfl | hb
    · exact ⟨_, hfib⟩
    · exact ⟨_, hother b hb⟩
  have hreach : (⟨(s.store.nextStacklet size (some s.mFib) (some p)).2, p⟩ : Stack).reach
      (s.mFib :: below) = p :: s.mFib :: below := by
    unfold Stack.reach Stack.fib
    rw [hself]
    rfl
  constructor
  case sound => exact nextStacklet_sound h.sound hown hp
  case placed =>
    rw [hreach]
    intro b hb
    rcases List.mem_cons.mp hb with rfl | hb
    · refine ⟨_, nextStacklet_owned h.sound hown hp Heap.owned_malloc ?_, ?_, ?_,
        request_mod size, (request size).isLt, hp.2.1⟩
      · exact fun hc => h.ne_new hp (ahead_mem hc) rfl
      · rw [hself]
      · rw [hself]
    · obtain ⟨n, hn⟩ := h.placed b (hmem b hb)
      obtain ⟨m, hm⟩ := hkeep b hb
      have howned := nextStacklet_owned h.sound hown hp hn.owned.malloc (h.ne_ahead hb)
      refine ⟨n, hn.congr howned ?_ ?_⟩
      · rw [hm]
      · rw [hm]
  case nodup =>
    rw [hreach]
    exact List.nodup_cons.mpr ⟨fun hb => h.ne_new hp (hmem p hb) rfl, h.below_nodup⟩
  case live =>
    rw [hreach]
    intro d hd
    rcases nextStacklet_live h.sound hown hp hd with heq | ⟨hlive, hne⟩
    · exact List.mem_cons.mpr (Or.inl heq)
    · apply List.mem_cons_of_mem
      have hreached := h.live d hlive
      simp only [Stack.reach, List.mem_cons, List.mem_append, Option.mem_toList] at hreached
      rcases hreached with hfib | hc | hb
      · exact List.mem_cons.mpr (Or.inl hfib)
      · exact absurd hc hne
      · exact List.mem_cons_of_mem _ hb
  case filled =>
    unfold Stack.fib
    rw [hself]
    rfl
  case solid => exact fun _ b hb => absurd hb List.not_mem_nil
  case beneath =>
    refine ⟨?_, ?_, here, under, rfl, ?_, ?_, ?_⟩
    · rw [hself]
    · rw [hfib]
    · rw [hfib]
      exact h.filled
    · rw [hfib]
      exact h.solid
    · apply h.beneath.congr
      · rw [hfib]
        rfl
      · exact hother
  case fits =>
    intro b hb
    rcases List.mem_cons.mp hb with rfl | hb
    · rw [hself]
      have hroom := request_mod size
      simp only
      omega
    · obtain ⟨m, hm⟩ := hkeep b hb
      rw [hm]
      exact h.fits b hb
  case used =>
    intro b hb
    rcases List.mem_cons.mp hb with rfl | hb
    · rw [hfib]
      exact hbusy
    · rw [hother b hb]
      exact h.used b hb
  case ahead =>
    intro d hd
    unfold Stack.fib at hd
    rw [hself] at hd
    simp at hd

omit h

/-- An empty stacklet without a cached one becomes the cached one of the stacklet beneath. -/
theorem leave {rest : List ℕ} (h : Ready s [] under below)
    (hempty : s.fib.mSp = s.fib.mLo) (hnext : s.fib.mNext = none) (hb : below = b :: rest) :
    ∃ here' under', here' ++ under' = under ∧ Ready { s with mFib := b } here' under' rest := by
  subst hb
  obtain ⟨hp, hn, here', under', rfl, hf, hs, hu⟩ := h.beneath
  refine ⟨here', under', rfl, ?_⟩
  have hreach : ({ s with mFib := b } : Stack).reach rest = b :: s.mFib :: rest := by
    unfold Stack.reach Stack.fib
    rw [hn]
    rfl
  have hold : s.reach (b :: rest) = s.mFib :: b :: rest := by
    unfold Stack.reach
    rw [hnext]
    rfl
  have hperm : (b :: s.mFib :: rest).Perm (s.reach (b :: rest)) := by
    rw [hold]
    exact List.Perm.swap _ _ _
  constructor
  case sound => exact h.sound
  case placed =>
    rw [hreach]
    exact fun d hd => h.placed d (hperm.mem_iff.mp hd)
  case nodup =>
    rw [hreach]
    exact hperm.nodup_iff.mpr h.nodup
  case live =>
    rw [hreach]
    exact fun d hd => hperm.mem_iff.mpr (h.live d hd)
  case filled => exact hf
  case solid => exact hs
  case beneath => exact hu
  case fits => exact fun d hd => h.fits d (List.mem_cons_of_mem _ hd)
  case used => exact fun d hd => h.used d (List.mem_cons_of_mem _ hd)
  case ahead =>
    intro d hd
    have hdfib : d = s.mFib := by
      unfold Stack.fib at hd
      rw [hn] at hd
      exact (Option.some.inj hd).symm
    subst hdfib
    exact ⟨hp, hnext, hempty⟩

end Ready

end Libfork.SegmentedStack
