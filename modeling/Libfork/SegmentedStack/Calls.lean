import Libfork.SegmentedStack.Invariant

/-!
# The calls keep the invariant

* **`Ready.deallocate`**, **`Inv.allocate`** — `deallocate` and `allocate`, whatever `malloc`
  returns.
* `Entered.undo` — the `deallocate` of a `co_new` that throws.
* `Act.Sized` — the calls whose block is not too large to be counted in a `size_t`, or that throw;
  **`holds_run`** — runs of such calls keep the invariant.

Source: `stack.hpp`, `stack::allocate`, `stack::deallocate`; `awaitables.hpp`, `alloc_awaitable`.
-/

namespace Libfork.SegmentedStack

open Libfork.Found

variable {s : Stack} {ptr b c n : ℕ} {here under : List Block} {below : List ℕ}

/-! ## `deallocate` -/

/-- Only the pointer to the spare changes on the top stacklet. -/
theorem dropNext_fib (s : Stack) :
    ({ s with store := s.store.setNext s.mFib none } : Stack).fib = { s.fib with mNext := none } :=
  setNext_stacklet_self

/-- A stack without a spare needs no guard. -/
theorem guarded_of_none (hnext : s.fib.mNext = none) : Guarded s := by
  intro c hc
  rw [hnext] at hc
  simp at hc

/-- The spare goes, unless it is worth keeping. -/
theorem trim_cases (s : Stack) :
    (s.trim = s ∧ Guarded s) ∨ s.trim = { s with store := s.store.setNext s.mFib none } := by
  rcases hfilter : s.fib.mNext.filter fun c =>
      8 * s.fib.capacity < (s.store.stacklet c).capacity with _ | c
  · left
    constructor
    · unfold Stack.trim
      rw [hfilter]
    · intro c hc hlt
      rw [hc, Option.filter_some, if_pos (by simpa using hlt)] at hfilter
      simp at hfilter
  · right
    unfold Stack.trim
    rw [hfilter]

/-- What is left after the guard against over-caching. -/
theorem Ready.trim (h : Ready s here under below)
    (hbusy : s.fib.mPrev ≠ none → s.fib.mSp ≠ s.fib.mLo) : Inv s.trim here under below := by
  rcases trim_cases s with ⟨heq, hguarded⟩ | heq
  · rw [heq]
    exact ⟨h, hbusy, hguarded⟩
  · rw [heq]
    refine ⟨h.dropNext, ?_, guarded_of_none ?_⟩
    · rw [dropNext_fib]
      exact hbusy
    · rw [dropNext_fib]

/-- Only the root has no stacklet beneath it. -/
theorem Ready.below_cases (h : Ready s here under below) :
    (s.fib.mPrev = none ∧ below = [] ∧ under = []) ∨
      ∃ b rest, s.fib.mPrev = some b ∧ below = b :: rest := by
  have hbeneath := h.beneath
  rcases below with _ | ⟨b, rest⟩
  · exact Or.inl ⟨hbeneath.1, rfl, hbeneath.2⟩
  · exact Or.inr ⟨b, rest, hbeneath.1, rfl⟩

/-- **The last block is given back.** -/
theorem Ready.deallocate {here' : List Block} (h : Ready s here under below)
    (hguarded : Guarded s) (hf : Filled (s.mFib + 48) here' ptr)
    (hsolid : s.fib.mPrev ≠ none → Solid (s.mFib + 48) here') (hp : ptr ≤ s.fib.mHi) :
    ∃ here₂ under₂ below₂, Inv (s.deallocate ptr) here₂ under₂ below₂ ∧
      here₂ ++ under₂ = here' ++ under := by
  have hset := h.setSp hf hsolid hp
  unfold Stack.deallocate
  by_cases hempty : (s.setSp ptr).fib.empty = true
  · rw [if_pos hempty]
    have hlo : ptr = s.fib.mLo := by
      rw [setSp_fib] at hempty
      exact eq_of_beq hempty
    rcases h.below_cases with ⟨hprev, rfl, rfl⟩ | ⟨b, rest, hprev, hbelow⟩
    · -- The root stays, empty.
      have hstay : (s.setSp ptr).stepDown = s.setSp ptr := by
        unfold Stack.stepDown
        rw [setSp_fib, hprev]
      rw [hstay]
      refine ⟨here', [], [], hset.trim ?_, rfl⟩
      rw [setSp_fib]
      exact fun hne => absurd hprev hne
    · -- The stacklet had no other block, and the one beneath has one unless it is the root.
      have hnil : here' = [] := by
        rw [hlo, h.top_lo] at hf
        exact hf.eq_nil (hsolid (by rw [hprev]; simp))
      subst hnil
      have hstep : (s.setSp ptr).stepDown =
          ⟨(s.setSp ptr).store.setNext (s.setSp ptr).mFib none, b⟩ := by
        unfold Stack.stepDown
        rw [setSp_fib, hprev]
      have hdrop := hset.dropNext
      obtain ⟨here₂, under₂, happend, hleft⟩ := hdrop.leave
        (by rw [dropNext_fib, setSp_fib]; exact hlo) (by rw [dropNext_fib]) hbelow
      rw [hstep]
      refine ⟨here₂, under₂, rest, hleft.trim ?_, happend⟩
      exact hdrop.used b (by rw [hbelow]; exact List.mem_cons_self)
  · rw [if_neg hempty]
    refine ⟨here', under, below, ⟨hset, fun _ heq => hempty ?_, ?_⟩, rfl⟩
    · exact beq_iff_eq.mpr heq
    · intro c hc
      rw [setSp_fib] at hc
      rw [setSp_fib, setSp_stacklet_of_ne (h.ne_of_ahead hc)]
      exact hguarded c hc

/-! ## `allocate` -/

/-- No stacklet of the stack has room for `ext` bytes. -/
def Stack.Grows (s : Stack) (ext : Size) : Prop := s.fib.unused < ext ∧ s.cached ext = none

/-- The stack just before a block of `ext` bytes is taken from its top. -/
inductive Entered (s : Stack) (ext : Size) (got : Option ℕ) : Stack → Prop
  | top (hroom : ¬ s.fib.unused < ext) : Entered s ext got s
  | cached (c : ℕ) (hfull : s.fib.unused < ext) (hnext : s.fib.mNext = some c)
      (hroom : ext ≤ (s.store.stacklet c).capacity) : Entered s ext got { s with mFib := c }
  | grown (p : ℕ) (hfull : s.fib.unused < ext) (hgot : got = some p) :
      Entered s ext got ⟨(s.store.nextStacklet (s.growth ext) (some s.mFib) (some p)).2, p⟩

/-- `allocate` throws and leaves the stack as it is, or it enters a stacklet with room and bumps its
pointer. -/
theorem allocate_cases (s : Stack) (size : Size) (got : Option ℕ) :
    (s.allocate size got = (none, s) ∧ s.Grows (extSize size) ∧ got = none) ∨
      ∃ e, Entered s (extSize size) got e ∧ ¬ (s.Grows (extSize size) ∧ got = none) ∧
        s.allocate size got = e.bump (extSize size) := by
  unfold Stack.allocate
  by_cases hfull : s.fib.unused < extSize size
  · simp only [if_pos hfull]
    rcases hcached : s.cached (extSize size) with _ | c
    · rcases got with _ | p
      · exact Or.inl ⟨rfl, ⟨hfull, hcached⟩, rfl⟩
      · exact Or.inr ⟨_, .grown p hfull rfl, by simp, rfl⟩
    · obtain ⟨hnext, hroom⟩ := Option.filter_eq_some_iff.mp hcached
      refine Or.inr ⟨_, .cached c hfull hnext (of_decide_eq_true hroom), ?_, rfl⟩
      rintro ⟨hgrows, -⟩
      rw [hgrows.2] at hcached
      simp at hcached
  · simp only [if_neg hfull]
    exact Or.inr ⟨s, .top hfull, fun hgrows => hfull hgrows.1.1, rfl⟩

section Growth

variable {ext size : Size} {got : Option ℕ} {e : Stack}

/-- A new stacklet has room for the request that it is made for. -/
theorem le_growth (s : Stack) (ext : Size) : ext.toNat ≤ (s.growth ext).toNat := by
  unfold Stack.growth
  by_cases hlt : 2 * s.fib.capacity < ext
  · rw [if_pos hlt]
  · rw [if_neg hlt]
    exact BitVec.le_def.mp (BitVec.not_lt.mp hlt)

/-- Twice a capacity is not in the last page. -/
theorem Ready.growth_le (h : Ready s here under below) (hext : ext.toNat + 96 ≤ 2 ^ 64) :
    (s.growth ext).toNat + 96 ≤ 2 ^ 64 := by
  obtain ⟨n, hn⟩ := h.placed _ Ready.top_mem
  have hcap : s.fib.capacity.toNat = n - 48 := hn.toNat_capacity
  have hroom := hn.room
  unfold Stack.growth
  by_cases hlt : 2 * s.fib.capacity < ext
  · rw [if_pos hlt]
    exact hext
  · have htwo : (2 : Size).toNat = 2 := rfl
    rw [if_neg hlt, BitVec.toNat_mul, hcap, htwo]
    omega

variable (he : Entered s ext got e)

include he

/-- The top may be empty, but then a block is about to be put there. -/
theorem Inv.entered (h : Inv s here under below)
    (hgrants : ∀ p ∈ got, s.store.heap.Admits p (request (s.growth ext)).toNat 16) :
    ∃ here₂ under₂ below₂, Ready e here₂ under₂ below₂ ∧ here₂ ++ under₂ = here ++ under ∧
      Guarded e ∧ (e.fib.mPrev ≠ none → e.fib.mSp = e.fib.mLo → 0 < ext.toNat) := by
  have hpos : s.fib.unused < ext → 0 < ext.toNat := fun hlt =>
    Nat.lt_of_le_of_lt (Nat.zero_le _) (BitVec.lt_def.mp hlt)
  cases he with
  | top hroom =>
      exact ⟨here, under, below, h.toReady, rfl, h.guarded,
        fun hprev hempty => absurd hempty (h.busy hprev)⟩
  | cached c hfull hnext hroom =>
      refine ⟨[], here ++ under, _, h.toReady.enterCached h.busy hnext, rfl, ?_,
        fun _ _ => hpos hfull⟩
      exact guarded_of_none (h.ahead c hnext).2.1
  | grown p hfull hgot =>
      refine ⟨[], here ++ under, _, h.toReady.grow h.busy (hgrants p hgot), rfl, ?_,
        fun _ _ => hpos hfull⟩
      apply guarded_of_none
      unfold Stack.fib Store.nextStacklet Store.set
      simp only [Function.update_self]

/-- There is room for the block. -/
theorem Entered.room (h : Inv s here under below) (hext : ext.toNat + 96 ≤ 2 ^ 64) :
    e.fib.mSp + ext.toNat ≤ e.fib.mHi := by
  cases he with
  | top hroom =>
      obtain ⟨n, hn⟩ := h.placed _ Ready.top_mem
      have hfits := h.fits _ List.mem_cons_self
      have hle := h.filled.le
      have hlo : (s.store.stacklet s.mFib).mLo ≤ (s.store.stacklet s.mFib).mSp := by
        rw [hn.lo]
        exact hle
      have hunused : s.fib.unused.toNat = s.fib.mHi - s.fib.mSp := hn.toNat_unused hlo hfits
      have hroom' := BitVec.le_def.mp (BitVec.not_lt.mp hroom)
      rw [hunused] at hroom'
      change s.fib.mSp ≤ s.fib.mHi at hfits
      omega
  | cached c hfull hnext hroom =>
      obtain ⟨n, hn⟩ := h.placed c (Ready.ahead_mem hnext)
      have hcap := BitVec.le_def.mp hroom
      have hempty := (h.ahead c hnext).2.2
      have hn48 := hn.room
      rw [hn.toNat_capacity] at hcap
      unfold Stack.fib
      simp only [hempty, hn.lo, hn.hi]
      omega
  | grown p hfull hgot =>
      have hle := le_request (h.toReady.growth_le hext)
      have hge := le_growth s ext
      unfold Stack.fib Store.nextStacklet Store.set
      simp only [Function.update_self]
      omega

end Growth

/-- A block is put on the top. -/
theorem Ready.bump {ext : Size} (h : Ready s here under below) (hext : ext.toNat = padded n)
    (hroom : s.fib.mSp + ext.toNat ≤ s.fib.mHi) (hguarded : Guarded s)
    (hpos : s.fib.mPrev ≠ none → s.fib.mSp = s.fib.mLo → 0 < ext.toNat) :
    Inv (s.bump ext).2 (⟨s.fib.mSp, n⟩ :: here) under below := by
  have hle := h.filled.le
  have hlo := h.top_lo
  have hbusy : s.fib.mPrev ≠ none → s.mFib + 48 < s.fib.mSp + ext.toNat := by
    intro hprev
    have hp := hpos hprev
    omega
  have hfilled : Filled (s.mFib + 48) (⟨s.fib.mSp, n⟩ :: here) (s.fib.mSp + ext.toNat) :=
    ⟨by rw [hext], h.filled⟩
  have hset := h.setSp hfilled ?_ hroom
  · refine ⟨hset, ?_, ?_⟩
    · change (s.setSp _).fib.mPrev ≠ none → (s.setSp _).fib.mSp ≠ (s.setSp _).fib.mLo
      rw [setSp_fib]
      intro hprev
      have hb := hbusy hprev
      simp only
      omega
    · intro c hc
      change (s.setSp _).fib.mNext = some c at hc
      change ¬ 8 * (s.setSp _).fib.capacity < ((s.setSp _).store.stacklet c).capacity
      rw [setSp_fib] at hc
      rw [setSp_fib, setSp_stacklet_of_ne (h.ne_of_ahead hc)]
      exact hguarded c hc
  · intro hprev b hb
    rcases List.mem_cons.mp hb with rfl | hb
    · have hlt := hbusy hprev
      rw [hext] at hlt
      exact hlt
    · exact h.solid hprev b hb

/-- **A block is taken, or `malloc` failed and nothing has changed.** -/
theorem Inv.allocate {size : Size} {got : Option ℕ} (h : Inv s here under below)
    (hsize : size.toNat + 96 ≤ 2 ^ 64) (hgrants : s.Grants size got) :
    s.allocate size got = (none, s) ∨
      ∃ p here₂ under₂ below₂, (s.allocate size got).1 = some p ∧
        Inv (s.allocate size got).2 here₂ under₂ below₂ ∧
        here₂ ++ under₂ = ⟨p, size.toNat⟩ :: (here ++ under) := by
  rcases allocate_cases s size got with ⟨heq, -⟩ | ⟨e, he, -, heq⟩
  · exact Or.inl heq
  · right
    obtain ⟨here₂, under₂, below₂, hready, happend, hguarded, hpos⟩ := h.entered he hgrants
    have hroom := he.room h (extSize_le hsize)
    have hbump := hready.bump (toNat_extSize hsize) hroom hguarded hpos
    rw [heq]
    refine ⟨e.fib.mSp, _, under₂, below₂, rfl, hbump, ?_⟩
    rw [List.cons_append, happend]

/-! ## `co_new` -/

/-- Of two settings of the pointer the last one counts. -/
theorem setSp_setSp (s : Stack) (p q : ℕ) : (s.setSp p).setSp q = s.setSp q := by
  have hstore : ((s.setSp p).setSp q).store.stacklet = (s.setSp q).store.stacklet := by
    unfold Stack.setSp Store.set Stack.fib
    simp only [Function.update_self, Function.update_idem]
  unfold Stack.setSp Store.set at hstore ⊢
  simp only at hstore ⊢
  rw [hstore]

/-- What was put on the top is taken off again. -/
theorem bump_deallocate (e : Stack) (ext : Size) (q : ℕ) :
    (e.bump ext).2.deallocate q = e.deallocate q := by
  unfold Stack.deallocate Stack.bump
  simp only [setSp_setSp]

/-- Giving the room of an entered stacklet back leaves the blocks as they were before. -/
theorem Entered.undo {ext : Size} {got : Option ℕ} {e : Stack} (he : Entered s ext got e)
    (h : Inv s here under below)
    (hgrants : ∀ p ∈ got, s.store.heap.Admits p (request (s.growth ext)).toNat 16) :
    ∃ here₂ under₂ below₂, Inv (e.deallocate e.fib.mSp) here₂ under₂ below₂ ∧
      here₂ ++ under₂ = here ++ under := by
  obtain ⟨here₂, under₂, below₂, hready, happend, hguarded, -⟩ := h.entered he hgrants
  have hback := hready.deallocate hguarded hready.filled hready.solid
    (hready.fits _ List.mem_cons_self)
  rw [happend] at hback
  exact hback

/-- `co_new` in terms of `allocate`. -/
theorem coNew_eq (s : Stack) (frame : ℕ) (count elem : Size) (got : Option ℕ) (throws : Bool) :
    (s.allocate (count * elem) got = (none, s) ∧ s.Grows (extSize (count * elem)) ∧ got = none ∧
      s.coNew frame count elem got throws = (none, s, frame)) ∨
    ∃ e, Entered s (extSize (count * elem)) got e ∧
      ¬ (s.Grows (extSize (count * elem)) ∧ got = none) ∧
      s.coNew frame count elem got throws =
        if throws then (none, e.deallocate e.fib.mSp, frame)
        else (some e.fib.mSp, (e.bump (extSize (count * elem))).2, e.mFib) := by
  unfold Stack.coNew
  rcases allocate_cases s (count * elem) got with ⟨heq, hgrows, hgot⟩ | ⟨e, he, hnot, heq⟩
  · left
    rw [heq]
    exact ⟨rfl, hgrows, hgot, rfl⟩
  · right
    refine ⟨e, he, hnot, ?_⟩
    rw [heq, ← bump_deallocate e (extSize (count * elem))]
    rfl

/-! ## Runs -/

/-- The block of the call is small enough, or there is none: no room and no memory for it, or its
elements cannot be constructed. -/
def Act.Sized (s : State) : Act → Prop
  | .allocate size got =>
      size.toNat + 96 ≤ 2 ^ 64 ∨ (s.stack.Grows (extSize size) ∧ got = none)
  | .coNew count elem got throws =>
      count.toNat * elem.toNat + 96 ≤ 2 ^ 64 ∨
        (s.stack.Grows (extSize (count * elem)) ∧ got = none) ∨ throws = true
  | .deallocate _ => True

/-- The blocks of the client are those in the stacklets. -/
def State.Holds (t : State) : Prop :=
  ∃ here under below, Inv t.stack here under below ∧ here ++ under = t.blocks

/-- A product that fits does not wrap. -/
theorem toNat_mul_of_lt {count elem : Size} (h : count.toNat * elem.toNat + 96 ≤ 2 ^ 64) :
    (count * elem).toNat = count.toNat * elem.toNat := by
  rw [BitVec.toNat_mul]
  exact Nat.mod_eq_of_lt (by omega)

variable {t t' : State}

/-- The last block is in the top stacklet. -/
theorem Inv.last {b : Block} {bs : List Block} (h : Inv s here under below)
    (hblocks : here ++ under = b :: bs) : ∃ here', here = b :: here' ∧ here' ++ under = bs := by
  rcases here with _ | ⟨d, here'⟩
  · have hempty : s.fib.mSp = s.fib.mLo := h.filled.trans h.top_lo.symm
    rcases h.below_cases with ⟨-, -, rfl⟩ | ⟨c, rest, hprev, -⟩
    · simp at hblocks
    · exact absurd hempty (h.busy (by rw [hprev]; simp))
  · simp only [List.cons_append, List.cons.injEq] at hblocks
    obtain ⟨rfl, rfl⟩ := hblocks
    exact ⟨here', rfl, rfl⟩

/-- `allocate` keeps what holds between the calls. -/
theorem holds_allocate {size : Size} {got : Option ℕ} (h : t.Holds)
    (hok : Act.Sized t (.allocate size got)) (hgrants : t.stack.Grants size got) :
    (t.took size.toNat (t.stack.allocate size got)).Holds := by
  obtain ⟨here, under, below, hinv, hblocks⟩ := h
  have hcases : t.stack.allocate size got = (none, t.stack) ∨
      ∃ p here₂ under₂ below₂, (t.stack.allocate size got).1 = some p ∧
        Inv (t.stack.allocate size got).2 here₂ under₂ below₂ ∧
        here₂ ++ under₂ = ⟨p, size.toNat⟩ :: (here ++ under) := by
    rcases hok with hsize | hnone
    · exact hinv.allocate hsize hgrants
    · rcases allocate_cases t.stack size got with ⟨heq, -⟩ | ⟨-, -, hnot, -⟩
      · exact Or.inl heq
      · exact absurd hnone hnot
  rcases hcases with heq | ⟨p, here₂, under₂, below₂, hp, hinv₂, happend⟩
  · rw [heq]
    exact ⟨here, under, below, hinv, hblocks⟩
  · rw [← Prod.mk.eta (p := t.stack.allocate size got), hp]
    exact ⟨here₂, under₂, below₂, hinv₂, by rw [happend, hblocks]; rfl⟩

/-- So does `co_new`, whether the constructor throws or not. -/
theorem holds_coNew {count elem : Size} {got : Option ℕ} {throws : Bool} {frame : ℕ} (h : t.Holds)
    (hok : Act.Sized t (.coNew count elem got throws))
    (hgrants : t.stack.Grants (count * elem) got) :
    (t.took (count.toNat * elem.toNat)
      ((t.stack.coNew frame count elem got throws).1,
        (t.stack.coNew frame count elem got throws).2.1)).Holds := by
  obtain ⟨here, under, below, hinv, hblocks⟩ := h
  rcases coNew_eq t.stack frame count elem got throws with ⟨-, -, -, heq⟩ | ⟨e, he, hnot, heq⟩
  · rw [heq]
    exact ⟨here, under, below, hinv, hblocks⟩
  · rw [heq]
    rcases throws with _ | _
    · have hsize : count.toNat * elem.toNat + 96 ≤ 2 ^ 64 := by
        rcases hok with hsize | hnone | hthrows
        · exact hsize
        · exact absurd hnone hnot
        · simp at hthrows
      have hmul := toNat_mul_of_lt hsize
      obtain ⟨here₂, under₂, below₂, hready, happend, hguarded, hpos⟩ := hinv.entered he hgrants
      have hext : (extSize (count * elem)).toNat = padded (count.toNat * elem.toNat) := by
        rw [← hmul]
        exact toNat_extSize (by omega)
      have hroom := he.room hinv (extSize_le (by omega))
      refine ⟨_, under₂, below₂, hready.bump hext hroom hguarded hpos, ?_⟩
      rw [List.cons_append, happend, hblocks]
      rfl
    · obtain ⟨here₂, under₂, below₂, hback, happend⟩ := he.undo hinv hgrants
      exact ⟨here₂, under₂, below₂, hback, happend.trans hblocks⟩

/-- So does `deallocate`. -/
theorem holds_deallocate (h : t.Holds) (hstep : t.gave ptr t.blocks = some t') : t'.Holds := by
  obtain ⟨here, under, below, hinv, hblocks⟩ := h
  rcases hbs : t.blocks with _ | ⟨b, bs⟩
  · rw [hbs] at hstep
    simp [State.gave] at hstep
  · rw [hbs] at hstep hblocks
    simp only [State.gave] at hstep
    by_cases hptr : b.ptr = ptr
    · rw [if_pos hptr] at hstep
      obtain rfl := Option.some.inj hstep
      obtain ⟨here', rfl, rfl⟩ := hinv.last hblocks
      have hsp := hinv.filled.1
      have hfits := hinv.fits _ List.mem_cons_self
      obtain ⟨here₂, under₂, below₂, hback, happend⟩ := hinv.toReady.deallocate hinv.guarded
        (hptr ▸ hinv.filled.2) (fun hprev d hd => hinv.solid hprev d (List.mem_cons_of_mem _ hd))
        (by change t.stack.fib.mSp ≤ t.stack.fib.mHi at hfits; omega)
      exact ⟨here₂, under₂, below₂, hback, happend⟩
    · rw [if_neg hptr] at hstep
      simp at hstep

/-- Every call keeps what holds between the calls. -/
theorem holds_step {act : Act} (h : t.Holds) (hok : act.Sized t)
    (hstep : machine.step t act = some t') : t'.Holds := by
  cases act with
  | allocate size got =>
      simp only [machine, State.step] at hstep
      by_cases hgrants : t.stack.Grants size got
      · rw [if_pos hgrants] at hstep
        obtain rfl := Option.some.inj hstep
        exact holds_allocate h hok hgrants
      · rw [if_neg hgrants] at hstep
        simp at hstep
  | coNew count elem got throws =>
      simp only [machine, State.step] at hstep
      by_cases hgrants : t.stack.Grants (count * elem) got
      · rw [if_pos hgrants] at hstep
        obtain rfl := Option.some.inj hstep
        exact holds_coNew h hok hgrants
      · rw [if_neg hgrants] at hstep
        simp at hstep
  | deallocate ptr => exact holds_deallocate h hstep

/-! ## A new stack -/

/-- The first chunk may be anywhere. -/
def Rooted (p : ℕ) : Prop := Heap.empty.Admits p (request kFibreInitSize).toNat 16

instance (p : ℕ) : Decidable (Rooted p) := inferInstanceAs (Decidable (Heap.Admits _ _ _ _))

/-- A new stack has one empty stacklet. -/
theorem inv_new {p : ℕ} (hp : Rooted p) : Inv (Stack.new p) [] [] [] := by
  have hself : (Stack.new p).store.stacklet p =
      ⟨p + 48, p + 48, p + (request kFibreInitSize).toNat, none, none⟩ := nextStacklet_self none
  have hroom := request_mod kFibreInitSize
  have hfib : (Stack.new p).fib = _ := hself
  have hreach : (Stack.new p).reach [] = [p] := by
    unfold Stack.reach
    rw [hfib]
    rfl
  have hheap : (Stack.new p).store.heap = Heap.empty.malloc p (request kFibreInitSize).toNat := rfl
  constructor
  case busy =>
    rw [hfib]
    exact fun hne => absurd rfl hne
  case guarded => exact guarded_of_none (by rw [hfib])
  constructor
  case sound =>
    rw [hheap]
    exact Heap.sound_empty.malloc (by omega) hp
  case placed =>
    rw [hreach]
    intro a ha
    obtain rfl := List.mem_singleton.mp ha
    refine ⟨_, Heap.owned_malloc, ?_, ?_, hroom, (request kFibreInitSize).isLt, hp.2.1⟩
    · rw [hself]
    · rw [hself]
  case nodup =>
    rw [hreach]
    exact List.nodup_singleton p
  case live =>
    rw [hreach]
    intro c hc
    rcases Heap.mem_live_malloc hc with heq | hc
    · exact List.mem_singleton.mpr heq
    · simp [Heap.empty, Store.empty] at hc
  case filled =>
    rw [hfib]
    rfl
  case solid => exact fun _ b hb => absurd hb List.not_mem_nil
  case beneath =>
    constructor
    · exact congrArg Stacklet.mPrev hself
    · rfl
  case fits =>
    intro a ha
    obtain rfl : a = p := List.mem_singleton.mp ha
    rw [hself]
    simp only
    omega
  case used => exact fun a ha => absurd ha List.not_mem_nil
  case ahead =>
    intro c hc
    rw [hfib] at hc
    simp at hc

/-- **Every run of sized calls keeps the invariant.** -/
theorem holds_run {p : ℕ} {acts : List Act} (hp : Rooted p)
    (hrun : machine.Run (fun s act => act.Sized s) (State.new p) acts t) : t.Holds :=
  hrun.invariant (fun _ _ _ h hok hstep => holds_step h hok hstep) ⟨[], [], [], inv_new hp, rfl⟩

end Libfork.SegmentedStack
