import Libfork.SegmentedStack.Depths
import Libfork.Stacks.Model

/-!
# The stacks of the workers in bytes

`Stacks.Chains` has no addresses: a stacklet is as far away from the root of its chain as it is,
and a block is in one. Here a segmented stack has the stack of a worker beside it, and a client
calls both.

* `State.mirror` — what a call does to the stack of the worker. Whether the block comes from the
  top stacklet or the next one is what the bytes say.
* `Mirrors` — the two are the same stack; **`mirrors_step`** — every call keeps that.
* `Agrees` — what the code can see of a stack; **`agrees_of_run`** — it is the same for both.

Source: `stack.hpp`, `class stack`; `awaitables.hpp`, `alloc_awaitable`.
-/

namespace Libfork.SegmentedStack

open Libfork.Found
open Libfork.Stacks (Chains)

variable {t t' : State} {ch : Chains} {s e : Stack} {w f a d n p ptr : ℕ} {b : Block}
  {bs here under : List Block} {below : List ℕ} {ds : List Stacks.Block} {ext : Size}
  {got : Option ℕ}

/-! ## The two machines -/

/-- A call that began with the top at `fib` has returned a pointer to a block of the task `f`, or
thrown. -/
def followed (ch : Chains) (w f fib : ℕ) : Option ℕ × Stack → Chains
  | (none, _) => ch
  | (some _, s) => ch.coNew w f (s.mFib != fib)

/-- What a call of the task `f` does to the stack of the worker `w`. -/
def State.mirror (t : State) (ch : Chains) (w f : ℕ) : Act → Chains
  | .allocate size got => followed ch w f t.stack.mFib (t.stack.allocate size got)
  | .coNew count elem got throws =>
      let r := t.stack.coNew t.stack.top count elem got throws
      followed ch w f t.stack.mFib (r.1, r.2.1)
  | .deallocate _ => ch.deallocate w

/-- A segmented stack beside the stack of the worker `w`. A call is one of some task. -/
def twin (w : ℕ) : Machine (State × Chains) (ℕ × Act) where
  step x a := (x.1.step a.2).map fun t => (t, x.1.mirror x.2 w a.1 a.2)

/-- The first block on a stack is that of a frame, which is not an empty one. -/
def Act.Begins (t : State) : Act → Prop
  | .allocate size _ => t.blocks = [] → 0 < size.toNat
  | .coNew count elem _ _ => t.blocks = [] → 0 < count.toNat * elem.toNat
  | .deallocate _ => True

instance (t : State) : DecidablePred (Act.Begins t)
  | .allocate size _ => inferInstanceAs (Decidable (t.blocks = [] → 0 < size.toNat))
  | .coNew count elem _ _ =>
      inferInstanceAs (Decidable (t.blocks = [] → 0 < count.toNat * elem.toNat))
  | .deallocate _ => inferInstanceAs (Decidable True)

/-- The calls that do not overflow; on an empty stack they ask for a byte at least. -/
def Proper (x : State × Chains) (a : ℕ × Act) : Prop := a.2.Bounded ∧ a.2.Begins x.1

instance (x : State × Chains) (a : ℕ × Act) : Decidable (Proper x a) :=
  inferInstanceAs (Decidable (_ ∧ _))

/-- The stack of the worker `w` is the segmented one. -/
structure Mirrors (t : State) (ch : Chains) (w : ℕ) (ds : List Stacks.Block) : Prop where
  holds : t.Holds
  begun : Begun t.blocks
  chain : ch.chain (ch.mFib w).root = some ds
  top : t.stack.store.Depth t.stack.mFib (ch.mFib w).depth
  home : List.Forall₂ t.stack.Home t.blocks (ds.map Stacks.Block.depth)

/-- The same stacklets are empty. -/
theorem vacant_eq {k : ℕ} (h : Ready s here under below) (hbegun : Begun (here ++ under))
    (hhome : List.Forall₂ s.Home (here ++ under) (ds.map Stacks.Block.depth))
    (hchain : ch.chain k = some ds) (ha : s.InUse a) (hd : s.store.Depth a d) :
    ch.vacant ⟨k, d⟩ = (s.store.stacklet a).empty := by
  rw [Bool.eq_iff_iff, ← h.vacant_iff hbegun hhome ha hd]
  simp only [Chains.vacant, hchain, Option.any_some, List.all_eq_true, bne_iff_ne, List.mem_map]
  constructor
  · rintro hall ⟨x, hx, heq⟩
    exact hall x hx heq
  · intro hnone x hx heq
    exact hnone ⟨x, hx, heq⟩

/-! ## `allocate` -/

/-- A block is put on both. -/
theorem Mirrors.took (h : Mirrors t ch w ds) (hinv : Inv t.stack here under below)
    (hblocks : here ++ under = t.blocks) (he : Entered t.stack ext got e)
    (hgrants : ∀ p ∈ got, t.stack.store.heap.Admits p (request (t.stack.growth ext)).toNat 16)
    (hext : ext.toNat = padded n) (hle : ext.toNat + 96 ≤ 2 ^ 64)
    (hbegins : t.blocks = [] → 0 < n) (f : ℕ) :
    ∃ ds, Mirrors (t.took n (e.bump ext)) (ch.coNew w f (e.mFib != t.stack.mFib)) w ds := by
  obtain ⟨here₂, under₂, below₂, hready, happend, hguarded, hpos⟩ := hinv.entered he hgrants
  have hbump := hready.bump hext (he.room hinv hle) hguarded hpos
  have hgrow := he.extends hinv hgrants
  have hset : Extends e (e.bump ext).2 := (shrinks_setSp e _).extends rfl
  have hdepth : (e.bump ext).2.store.Depth e.mFib (ch.next w (e.mFib != t.stack.mFib)).depth := by
    apply hset.depth .top
    rcases he.eq_or_ne hinv hgrants with rfl | hne
    · simpa [Chains.next] using h.top
    · have hprev := (he.prev hinv hne).1
      simpa [Chains.next, hne] using Store.Depth.next hprev (hgrow.depth .top h.top)
  have hroot : (ch.next w (e.mFib != t.stack.mFib)).root = (ch.mFib w).root := by
    unfold Chains.next
    split <;> rfl
  refine ⟨⟨f, (ch.next w (e.mFib != t.stack.mFib)).depth⟩ :: ds, ⟨_, _, _, hbump, ?_⟩, ?_, ?_, ?_,
    ?_⟩
  · rw [List.cons_append, happend, hblocks]
    rfl
  · intro x (hx : x ∈ (⟨e.fib.mSp, n⟩ :: t.blocks : List Block).getLast?)
    rcases hbs : t.blocks with _ | ⟨b, bs⟩
    · rw [hbs] at hx
      cases hx
      exact hbegins hbs
    · rw [hbs, List.getLast?_cons_cons, ← hbs] at hx
      exact h.begun x hx
  · simp [Chains.coNew, Chains.record, Chains.allocate, hroot, h.chain]
  · change (e.bump ext).2.store.Depth e.mFib _
    simpa [Chains.coNew, Chains.record, Chains.allocate] using hdepth
  · rw [List.map_cons]
    refine .cons ⟨e.mFib, .top, hdepth, ?_⟩ ?_
    · exact hbump.inside .top (hbump.beneath.newest hbump.filled hbump.solid) List.mem_cons_self
    · refine forall₂_home h.home fun b hb d hd => ?_
      rw [← hblocks] at hb
      have hgrown := hgrow.home hinv.toReady hready (by rwa [happend]) hd
      refine hset.home hready hbump.toReady ?_ hgrown
      rw [List.cons_append, happend]
      exact List.mem_cons_of_mem _ hb

/-! ## `deallocate` -/

/-- The newest block is taken off both. -/
theorem Mirrors.gave (h : Mirrors t ch w ds) (hstep : t.gave ptr t.blocks = some t') :
    ∃ ds, Mirrors t' (ch.deallocate w) w ds := by
  have hholds' := holds_deallocate h.holds hstep
  obtain ⟨here, under, below, hinv, hblocks⟩ := h.holds
  have hhome := h.home
  have hbegun := h.begun
  rcases hbs : t.blocks with _ | ⟨b, bs⟩
  · rw [hbs] at hstep
    cases hstep
  rw [hbs] at hstep hblocks hhome hbegun
  obtain ⟨here', rfl, hbs'⟩ := hinv.last hblocks
  obtain ⟨x, ds, hxds⟩ : ∃ x xs, ds = x :: xs := by
    cases ds with
    | nil => cases hhome
    | cons x xs => exact ⟨x, xs, rfl⟩
  subst hxds
  obtain ⟨hx, hhome⟩ := List.forall₂_cons.mp hhome
  simp only [State.gave] at hstep
  split at hstep
  case isFalse => cases hstep
  rename_i hptr
  cases hstep
  have hsp := hinv.filled.1
  have hready := hinv.toReady.setSp (hptr ▸ hinv.filled.2)
    (fun hprev d hd => hinv.solid hprev d (List.mem_cons_of_mem _ hd))
    (by have hfits := hinv.fits _ List.mem_cons_self
        change t.stack.fib.mSp ≤ t.stack.fib.mHi at hfits
        omega)
  have hset := shrinks_setSp t.stack ptr
  have hbegun' : Begun bs := by
    intro x hx
    rcases bs with _ | ⟨b', bs⟩
    · cases hx
    · exact hbegun x (by rwa [List.getLast?_cons_cons])
  have hhome₁ : List.Forall₂ (t.stack.setSp ptr).Home bs (ds.map Stacks.Block.depth) := by
    refine forall₂_home hhome fun b hb d hd => ?_
    exact hset.home hinv.toReady hready (by rwa [hbs']) hd
  have hchain : (ch.setSp w).chain (ch.mFib w).root = some ds := by
    simp [Chains.setSp, h.chain]
  have hvacant : (ch.setSp w).vacant (ch.mFib w) = (t.stack.setSp ptr).fib.empty :=
    vacant_eq hready (by rwa [hbs']) (by rwa [hbs']) hchain .top (hset.depth h.top)
  have hshrinks := shrinks_deallocate t.stack ptr
  refine ⟨ds, hholds', hbegun', ?_, ?_, ?_⟩
  · unfold Chains.deallocate
    split
    · simpa using hchain
    · exact hchain
  · change (t.stack.deallocate ptr).store.Depth (t.stack.deallocate ptr).mFib _
    apply hshrinks.depth
    unfold Chains.deallocate
    rw [hvacant]
    by_cases hempty : (t.stack.setSp ptr).fib.empty = true
    · rw [if_pos hempty, deallocate_of_empty hempty]
      rcases hprev : t.stack.fib.mPrev with _ | c
      · have hzero := h.top.eq_zero hprev
        simpa [hzero] using h.top
      · simpa using h.top.pred hprev
    · rw [if_neg hempty, deallocate_of_not_empty hempty]
      exact h.top
  · obtain ⟨here₂, under₂, below₂, hinv', happend⟩ := hholds'
    refine forall₂_home hhome fun b hb d hd => ?_
    exact hshrinks.home hinv.toReady hinv'.toReady (by rwa [happend]) hd

/-! ## `co_new` -/

/-- What a `co_new` that throws has taken, it gives back, and the chain is as it was. -/
theorem Mirrors.undo (h : Mirrors t ch w ds) (he : Entered t.stack ext got e)
    (hgrants : ∀ p ∈ got, t.stack.store.heap.Admits p (request (t.stack.growth ext)).toNat 16) :
    Mirrors ⟨e.deallocate e.fib.mSp, t.blocks⟩ ch w ds := by
  obtain ⟨here, under, below, hinv, hblocks⟩ := h.holds
  obtain ⟨here₁, under₁, below₁, hready, happend₁, -⟩ := hinv.entered he hgrants
  obtain ⟨here₂, under₂, below₂, hinv', happend⟩ := he.undo hinv hgrants
  have hgrow := he.extends hinv hgrants
  have hback := shrinks_deallocate e e.fib.mSp
  refine ⟨⟨here₂, under₂, below₂, hinv', happend.trans hblocks⟩, h.begun, h.chain, ?_, ?_⟩
  · change (e.deallocate e.fib.mSp).store.Depth (e.deallocate e.fib.mSp).mFib _
    rw [he.undo_mFib hinv hgrants]
    exact hback.depth (hgrow.depth .top h.top)
  · refine forall₂_home h.home fun b hb d hd => ?_
    rw [← hblocks] at hb
    have hentered := hgrow.home hinv.toReady hready (by rwa [happend₁]) hd
    exact hback.home hready hinv'.toReady (by rwa [happend]) hentered

/-! ## Runs -/

/-- **Every call does the same to both.** -/
theorem mirrors_step {act : Act} (h : Mirrors t ch w ds) (hbounded : act.Bounded)
    (hbegins : act.Begins t) (hstep : t.step act = some t') :
    ∃ ds, Mirrors t' (t.mirror ch w f act) w ds := by
  obtain ⟨here, under, below, hinv, hblocks⟩ := h.holds
  cases act with
  | allocate size got =>
    simp only [State.step] at hstep
    split at hstep
    case isFalse => cases hstep
    rename_i hgrants
    cases hstep
    simp only [State.mirror]
    rcases allocate_cases t.stack size got with ⟨heq, -⟩ | ⟨e, he, -, heq⟩
    · rw [heq]
      exact ⟨ds, h⟩
    · rw [heq]
      exact h.took hinv hblocks he hgrants (toNat_extSize hbounded) (extSize_le hbounded) hbegins f
  | coNew count elem got throws =>
    simp only [State.step] at hstep
    split at hstep
    case isFalse => cases hstep
    rename_i hgrants
    cases hstep
    have hmul := toNat_mul_of_lt hbounded
    have hsize : (count * elem).toNat + 96 ≤ 2 ^ 64 := by
      rw [hmul]
      exact hbounded
    simp only [State.mirror]
    rcases coNew_eq t.stack t.stack.top count elem got throws with
      ⟨-, -, -, heq⟩ | ⟨e, he, -, heq⟩
    · rw [heq]
      exact ⟨ds, h⟩
    · rw [heq]
      cases throws with
      | true => exact ⟨ds, h.undo he hgrants⟩
      | false =>
        have hext := toNat_extSize hsize
        rw [hmul] at hext
        exact h.took hinv hblocks he hgrants hext (extSize_le hsize) hbegins f
  | deallocate ptr => exact h.gave hstep

/-! ## What the code can see -/

/-- What the code can see of the two stacks is the same. -/
structure Agrees (t : State) (ch : Chains) (w : ℕ) : Prop where
  /-- The stacklets that are in use have names. -/
  names : ∀ a c d, t.stack.InUse a → t.stack.InUse c → t.stack.store.Depth a d →
    t.stack.store.Depth c d → a = c
  /-- `stack::top` -/
  top : t.stack.store.Depth t.stack.top (ch.top w).depth
  /-- `stack::empty` -/
  empty : ch.empty w = t.stack.empty
  /-- `stacklet::empty`, `stacklet::is_top` -/
  stacklet : ∀ a d, t.stack.InUse a → t.stack.store.Depth a d →
    ch.vacant ⟨(ch.top w).root, d⟩ = (t.stack.store.stacklet a).empty ∧
    ch.isTop ⟨(ch.top w).root, d⟩ = t.stack.store.isTop a
  /-- The blocks are in the stacklets of these names. -/
  blocks : ∃ ds, ch.chain (ch.top w).root = some ds ∧
    List.Forall₂ t.stack.Home t.blocks (ds.map Stacks.Block.depth)

/-- Beneath the top there is a stacklet that is not empty after every one. -/
theorem Inv.isTop_below (h : Inv s here under below) (ha : a ∈ below) :
    s.store.isTop a = false := by
  obtain ⟨i, hi, hnext, hprev⟩ := h.beneath.exists_next ha
  have hbusy : (s.store.stacklet i).mSp ≠ (s.store.stacklet i).mLo := by
    have hne : (s.store.stacklet i).mPrev ≠ none := by simp [hprev]
    rcases List.mem_cons.mp hi with rfl | hi
    · exact h.busy hne
    · exact h.used i hi hne
  have hempty : (s.store.stacklet i).empty = false := beq_eq_false_iff_ne.mpr hbusy
  simp [Store.isTop, hnext, hempty]

/-- `is_top` says the same on both levels. -/
theorem isTop_eq {k : ℕ} (h : Inv s here under below) (hbegun : Begun (here ++ under))
    (hhome : List.Forall₂ s.Home (here ++ under) (ds.map Stacks.Block.depth))
    (hchain : ch.chain k = some ds) (ha : s.InUse a) (hd : s.store.Depth a d) :
    ch.isTop ⟨k, d⟩ = s.store.isTop a := by
  have htop := h.beneath.depth
  simp only [Chains.isTop, hchain, Option.any_some]
  rcases List.mem_cons.mp (h.inUse_iff.mp ha) with rfl | hbelow
  · rw [h.isTop, List.all_eq_true]
    intro x hx
    obtain ⟨b, -, c, hc, hdc, -⟩ :=
      exists_of_forall₂ (List.Forall₂.flip hhome) (List.mem_map_of_mem hx)
    rw [decide_eq_true_iff, hd.unique htop]
    exact h.depth_le hc hdc
  · -- The top is not the root, so it has a block.
    rw [h.isTop_below hbelow, List.all_eq_false]
    have hlt := h.beneath.depth_lt hbelow hd
    have hbusy : ¬ (s.store.stacklet s.mFib).empty = true := by
      obtain ⟨i, -, -⟩ := h.beneath.exists_next hbelow
      rcases h.below_cases with ⟨-, rfl, -⟩ | ⟨c, rest, hprev, -⟩
      · cases hbelow
      · exact fun hempty => h.busy (by simp [hprev]) (beq_iff_eq.mp hempty)
    have hmem : below.length ∈ ds.map Stacks.Block.depth := by
      by_contra hnone
      exact hbusy ((h.vacant_iff hbegun hhome .top htop).mp hnone)
    obtain ⟨x, hx, hxd⟩ := List.mem_map.mp hmem
    refine ⟨x, hx, ?_⟩
    rw [decide_eq_true_iff, hxd]
    exact Nat.not_le_of_lt hlt

/-- What mirrors a stack in bytes agrees with it. -/
theorem Mirrors.agrees (h : Mirrors t ch w ds) : Agrees t ch w := by
  obtain ⟨here, under, below, hinv, hblocks⟩ := h.holds
  have hbegun := h.begun
  have hhome := h.home
  rw [← hblocks] at hbegun hhome
  constructor
  case names => exact fun a c d ha hc => hinv.depth_inj ha hc
  case top => exact h.top
  case empty =>
    have hvacant := vacant_eq hinv.toReady hbegun hhome h.chain .top h.top
    unfold Chains.empty Stack.empty
    congr 1
    rw [Bool.eq_iff_iff, beq_iff_eq, beq_iff_eq]
    constructor
    · intro hzero
      rcases hprev : t.stack.fib.mPrev with _ | c
      · rfl
      · have htop := h.top
        rw [hzero] at htop
        cases htop with
        | root hroot => exact hprev.symm.trans hroot
    · exact h.top.eq_zero
  case stacklet =>
    exact fun a d ha hd => ⟨vacant_eq hinv.toReady hbegun hhome h.chain ha hd,
      isTop_eq hinv hbegun hhome h.chain ha hd⟩
  case blocks => exact ⟨ds, h.chain, h.home⟩

/-- **The stack of a worker is a segmented stack.** Whatever is allocated and given back on both in
last-in-first-out order, and whenever `malloc` or a constructor fails, as long as no size comes
within `96` bytes of `2 ^ 64` and the first block on an empty stack has at least one byte. -/
theorem agrees_of_run {k : ℕ} {ch₀ : Chains} {acts : List (ℕ × Act)} (hp : Rooted p)
    (hchain : ch₀.chain k = some []) (hfib : ch₀.mFib w = ⟨k, 0⟩)
    (hrun : (twin w).Run Proper (State.new p, ch₀) acts (t, ch)) : Agrees t ch w := by
  have hnew : ∃ ds, Mirrors (State.new p) ch₀ w ds := by
    have hinv := inv_new hp
    refine ⟨[], ⟨[], [], [], hinv, rfl⟩, nofun, ?_, ?_, .nil⟩
    · rw [hfib]
      exact hchain
    · rw [hfib]
      exact hinv.beneath.depth
  have hmirrors : ∃ ds, Mirrors t ch w ds := by
    refine hrun.invariant (P := fun x => ∃ ds, Mirrors x.1 x.2 w ds) ?_ hnew
    rintro ⟨s, ch₁⟩ ⟨f, act⟩ x ⟨ds, h⟩ ⟨hbounded, hbegins⟩ hstep
    obtain ⟨s', hs', rfl⟩ := Option.map_eq_some_iff.mp hstep
    exact mirrors_step h hbounded hbegins hs'
  obtain ⟨ds, h⟩ := hmirrors
  exact h.agrees

/-- The second frame has no room in the root, and one `co_new` throws. -/
theorem agrees_of_run_second :
    ∃ x, (twin 0).Run Proper (State.new 4096, Stacks.State.init.st)
        [(1, .allocate 100 none), (2, .allocate 5000 (some 16384)), (2, .coNew 3 1 none false),
          (2, .coNew 900 8 (some 65536) true), (2, .deallocate 21440)] x ∧
      x.1.blocks = [⟨16432, 5000⟩, ⟨4144, 100⟩] ∧ x.2.chain 0 = some [⟨2, 1⟩, ⟨1, 0⟩] ∧
      x.2.mFib 0 = ⟨0, 1⟩ ∧ Agrees x.1 x.2 0 := by
  have h : ((twin 0).exec Proper (State.new 4096, Stacks.State.init.st)
      [(1, .allocate 100 none), (2, .allocate 5000 (some 16384)), (2, .coNew 3 1 none false),
        (2, .coNew 900 8 (some 65536) true), (2, .deallocate 21440)]).map
      (fun x => (x.1.blocks, x.2.chain 0, x.2.mFib 0)) =
        some ([⟨16432, 5000⟩, ⟨4144, 100⟩], some [⟨2, 1⟩, ⟨1, 0⟩], ⟨0, 1⟩) := by
    decide +kernel
  obtain ⟨⟨t, ch⟩, hx, heq⟩ := Option.map_eq_some_iff.mp h
  have hrun := Machine.run_iff_exec.mpr hx
  simp only [Prod.mk.injEq] at heq
  exact ⟨(t, ch), hrun, heq.1, heq.2.1, heq.2.2, agrees_of_run (by decide) rfl rfl hrun⟩

end Libfork.SegmentedStack
