import Libfork.SegmentedStack.Growth
import Mathlib.Data.List.Forall2

/-!
# How far a stacklet is away from the root

* `Store.Depth` — the number of stacklets beneath one. In a stack no two stacklets have the same.
* `Stack.Home` — the depth of the stacklet that a block is in.
* `Layer` — what one stacklet holds of the blocks of the stack; **`Ready.vacant_iff`** — it holds
  nothing if and only if no block has its depth.
* `Extends` — nothing beneath the top has changed but the stack pointers. With `Shrinks`, what
  `allocate` and `deallocate` do to a stack; **`Extends.home`**, **`Shrinks.home`** — the blocks
  stay where they are.

Source: `stack.hpp`, `class stack`.
-/

namespace Libfork.SegmentedStack

open Libfork.Found

variable {s s' e : Stack} {st : Store} {a c d i j lo sp p : ℕ} {b : Block}
  {bs here under here' under' blocks : List Block} {below below' : List ℕ} {ext : Size}
  {got : Option ℕ}

/-! ## Depths -/

/-- The stacklet is `d` stacklets away from the root. -/
inductive Store.Depth (st : Store) : ℕ → ℕ → Prop
  | root {a : ℕ} (hprev : (st.stacklet a).mPrev = none) : Depth st a 0
  | next {a c d : ℕ} (hprev : (st.stacklet c).mPrev = some a) (ha : Depth st a d) :
      Depth st c (d + 1)

/-- The block is in a stacklet that is `d` stacklets away from the root. -/
def Stack.Home (s : Stack) (b : Block) (d : ℕ) : Prop :=
  ∃ a, s.InUse a ∧ s.store.Depth a d ∧ b.Inside s.store a

namespace Store.Depth

/-- A stacklet has one depth. -/
theorem unique (hi : st.Depth a i) (hj : st.Depth a j) : i = j := by
  induction hi generalizing j with
  | root hprev =>
    cases hj with
    | root => rfl
    | next hprev' => cases hprev.symm.trans hprev'
  | next hprev _ ih =>
    cases hj with
    | root hprev' => cases hprev.symm.trans hprev'
    | next hprev' ha =>
      cases hprev.symm.trans hprev'
      rw [ih ha]

/-- What is beneath a stacklet that is not the root is one step nearer to it. -/
theorem pred (hd : st.Depth a d) (hprev : (st.stacklet a).mPrev = some c) :
    st.Depth c (d - 1) := by
  cases hd with
  | root hprev' => cases hprev.symm.trans hprev'
  | next hprev' hc =>
    cases hprev.symm.trans hprev'
    exact hc

/-- The first stacklet has depth 0. -/
theorem eq_zero (hd : st.Depth a d) (hprev : (st.stacklet a).mPrev = none) : d = 0 :=
  hd.unique (.root hprev)

end Store.Depth

/-- The top stacklet is as deep as there are stacklets below it. -/
theorem Under.depth (h : Under st a below bs) : st.Depth a below.length := by
  induction below generalizing a bs with
  | nil => exact .root h.1
  | cons c below ih =>
    obtain ⟨hprev, -, here, under, -, -, -, hrest⟩ := h
    exact .next hprev (ih hrest)

/-- What is below is less deep. -/
theorem Under.depth_lt (h : Under st a below bs) (hc : c ∈ below) (hd : st.Depth c d) :
    d < below.length := by
  induction below generalizing a bs with
  | nil => cases hc
  | cons x below ih =>
    obtain ⟨-, -, here, under, -, -, -, hrest⟩ := h
    rcases List.mem_cons.mp hc with rfl | hc
    · rw [hd.unique hrest.depth]
      exact Nat.lt_succ_self _
    · exact Nat.lt_succ_of_lt (ih hrest hc)

/-- Two stacklets of a stack are not at one depth. -/
theorem Under.depth_inj (h : Under st a below bs) (hi : i ∈ a :: below) (hj : j ∈ a :: below)
    (hdi : st.Depth i d) (hdj : st.Depth j d) : i = j := by
  have hhead : ∀ {x y below bs}, Under st x below bs → st.Depth x d → y ∈ below →
      st.Depth y d → False := by
    intro x y below bs h hx hy hdy
    have hlt := h.depth_lt hy hdy
    rw [hx.unique h.depth] at hlt
    exact Nat.lt_irrefl _ hlt
  induction below generalizing a bs with
  | nil => rw [List.mem_singleton.mp hi, List.mem_singleton.mp hj]
  | cons c below ih =>
    rcases List.mem_cons.mp hi with rfl | hi'
    · rcases List.mem_cons.mp hj with rfl | hj'
      · rfl
      · exact (hhead h hdi hj' hdj).elim
    · rcases List.mem_cons.mp hj with rfl | hj'
      · exact (hhead h hdj hi' hdi).elim
      · obtain ⟨-, -, here, under, -, -, -, hrest⟩ := h
        exact ih hrest hi' hj'

/-- What is beneath a stacklet has one after it, which is in use. -/
theorem Under.exists_next (h : Under st a below bs) (hc : c ∈ below) :
    ∃ i ∈ a :: below, (st.stacklet c).mNext = some i ∧ (st.stacklet i).mPrev = some c := by
  induction below generalizing a bs with
  | nil => cases hc
  | cons x below ih =>
    obtain ⟨hprev, hnext, here, under, -, -, -, hrest⟩ := h
    rcases List.mem_cons.mp hc with rfl | hc
    · exact ⟨a, List.mem_cons_self, hnext, hprev⟩
    · obtain ⟨i, hi, hnext⟩ := ih hrest hc
      exact ⟨i, List.mem_cons_of_mem _ hi, hnext⟩

/-! ## What one stacklet holds -/

/-- The blocks `bs` of the stack are those in the stacklet at `a`. -/
structure Layer (st : Store) (blocks : List Block) (a : ℕ) (bs : List Block) : Prop where
  filled : Filled (a + 48) bs (st.stacklet a).mSp
  sub : bs ⊆ blocks
  solid : (st.stacklet a).mPrev ≠ none → Solid (a + 48) bs
  /-- The root has the oldest ones. -/
  oldest : (st.stacklet a).mPrev = none → bs <:+ blocks

/-- The oldest block is not an empty one. -/
def Begun (blocks : List Block) : Prop := ∀ b ∈ blocks.getLast?, 0 < b.size

/-- Blocks of which the oldest is not empty move the pointer up. -/
theorem Filled.lt (h : Filled lo bs sp) (hne : bs ≠ []) (hbegun : Begun bs) : lo < sp := by
  induction bs generalizing sp with
  | nil => exact absurd rfl hne
  | cons b bs ih =>
    have hsp := h.1
    rcases bs with _ | ⟨b', bs⟩
    · have hlo : b.ptr = lo := h.2
      have hsize := hbegun b rfl
      have hpad := le_padded b.size
      omega
    · have hlt := ih h.2 (by simp) fun x hx => hbegun x (by rwa [List.getLast?_cons_cons])
      omega

/-- The older ones of them begin with the same block. -/
theorem Begun.suffix (h : Begun blocks) (hbs : bs <:+ blocks) (hne : bs ≠ []) : Begun bs := by
  obtain ⟨newer, rfl⟩ := hbs
  intro b hb
  exact h b (by rwa [List.getLast?_append_of_ne_nil _ hne])

/-- A stacklet that holds a block is not empty. -/
theorem Layer.lt (h : Layer st blocks a bs) (hbegun : Begun blocks) (hne : bs ≠ []) :
    a + 48 < (st.stacklet a).mSp := by
  by_cases hprev : (st.stacklet a).mPrev = none
  · exact h.filled.lt hne (hbegun.suffix (h.oldest hprev) hne)
  · obtain ⟨b, bs, rfl⟩ := List.exists_cons_of_ne_nil hne
    rw [h.filled.1]
    exact h.solid hprev b List.mem_cons_self

/-- Newer blocks do not change the layer of a stacklet. -/
theorem Layer.append (h : Layer st blocks a bs) (newer : List Block) :
    Layer st (newer ++ blocks) a bs :=
  ⟨h.filled, fun _ hb => List.mem_append_right newer (h.sub hb), h.solid,
    fun hprev => (h.oldest hprev).trans (List.suffix_append _ _)⟩

/-- There is nothing beneath the root. -/
theorem Under.eq_nil (h : Under st a below bs) (hprev : (st.stacklet a).mPrev = none) :
    bs = [] := by
  rcases below with _ | ⟨c, below⟩
  · exact h.2
  · cases hprev.symm.trans h.1

/-- The newest blocks are the layer of the top stacklet. -/
theorem Under.newest (h : Under st a below under) (hf : Filled (a + 48) here (st.stacklet a).mSp)
    (hsolid : (st.stacklet a).mPrev ≠ none → Solid (a + 48) here) :
    Layer st (here ++ under) a here := by
  refine ⟨hf, List.subset_append_left _ _, hsolid, fun hprev => ?_⟩
  have hnil := h.eq_nil hprev
  subst hnil
  exact ⟨[], (List.append_nil here).symm⟩

/-- Every stacklet below has its layer. -/
theorem Under.layer (h : Under st a below bs) (hc : c ∈ below) : ∃ here, Layer st bs c here := by
  induction below generalizing a bs with
  | nil => cases hc
  | cons x below ih =>
    obtain ⟨-, -, here, under, rfl, hf, hsolid, hrest⟩ := h
    rcases List.mem_cons.mp hc with rfl | hc
    · exact ⟨here, hrest.newest hf hsolid⟩
    · exact (ih hrest hc).imp fun _ hl => hl.append here

/-- Every block below is in the layer of a stacklet. -/
theorem Under.layer_of_mem (h : Under st a below bs) (hb : b ∈ bs) :
    ∃ c ∈ below, ∃ here, Layer st bs c here ∧ b ∈ here := by
  induction below generalizing a bs with
  | nil =>
    rw [h.2] at hb
    cases hb
  | cons x below ih =>
    obtain ⟨-, -, here, under, rfl, hf, hsolid, hrest⟩ := h
    rcases List.mem_append.mp hb with hb | hb
    · exact ⟨x, List.mem_cons_self, here, hrest.newest hf hsolid, hb⟩
    · obtain ⟨c, hc, here', hl, hb⟩ := ih hrest hb
      exact ⟨c, List.mem_cons_of_mem _ hc, here', hl.append here, hb⟩

/-- Two lists in a relation have a partner for each element of the first. -/
theorem exists_of_forall₂ {α β : Type} {R : α → β → Prop} {xs : List α} {ys : List β} {x : α}
    (h : List.Forall₂ R xs ys) (hx : x ∈ xs) : ∃ y ∈ ys, R x y := by
  induction h with
  | nil => cases hx
  | @cons u v xs ys huv _ ih =>
    rcases List.mem_cons.mp hx with rfl | hx
    · exact ⟨v, List.mem_cons_self, huv⟩
    · obtain ⟨y, hy, hxy⟩ := ih hx
      exact ⟨y, List.mem_cons_of_mem _ hy, hxy⟩

/-- The address may be one of a block in the stacklet at `a`. -/
def Stack.Within (s : Stack) (a ptr : ℕ) : Prop := a + 48 ≤ ptr ∧ ptr ≤ a + 48 + s.capacityAt a

namespace Ready

variable (h : Ready s here under below)

include h

/-- Two stacklets in use at one depth are the same. -/
theorem depth_inj (hi : s.InUse i) (hj : s.InUse j) (hdi : s.store.Depth i d)
    (hdj : s.store.Depth j d) : i = j :=
  h.beneath.depth_inj (h.inUse_iff.mp hi) (h.inUse_iff.mp hj) hdi hdj

/-- No stacklet in use is deeper than the top one. -/
theorem depth_le (ha : s.InUse a) (hd : s.store.Depth a d) : d ≤ below.length := by
  rcases List.mem_cons.mp (h.inUse_iff.mp ha) with rfl | ha
  · rw [hd.unique h.beneath.depth]
  · exact Nat.le_of_lt (h.beneath.depth_lt ha hd)

/-- A stacklet in use has its layer of blocks. -/
theorem layer (ha : s.InUse a) : ∃ bs, Layer s.store (here ++ under) a bs := by
  rcases List.mem_cons.mp (h.inUse_iff.mp ha) with rfl | ha
  · exact ⟨here, h.beneath.newest h.filled h.solid⟩
  · exact (h.beneath.layer ha).imp fun _ hl => hl.append here

/-- A block is in the layer of a stacklet in use. -/
theorem layer_of_mem (hb : b ∈ here ++ under) :
    ∃ a, s.InUse a ∧ ∃ bs, Layer s.store (here ++ under) a bs ∧ b ∈ bs := by
  rcases List.mem_append.mp hb with hb | hb
  · exact ⟨s.mFib, .top, here, h.beneath.newest h.filled h.solid, hb⟩
  · obtain ⟨a, ha, bs, hl, hb⟩ := h.beneath.layer_of_mem hb
    exact ⟨a, h.beneath.inUse .top ha, bs, hl.append here, hb⟩

/-- A block of a layer lies inside its stacklet. -/
theorem inside (ha : s.InUse a) (hl : Layer s.store blocks a bs) (hb : b ∈ bs) :
    b.Inside s.store a := by
  obtain ⟨n, hn⟩ := h.placed_of_inUse (h.inUse_iff.mp ha)
  obtain ⟨hlo, hsp⟩ := hl.filled.mem hb
  refine ⟨by rwa [hn.lo], hsp, h.fits a (h.inUse_iff.mp ha), n, hn.owned, ?_, ?_⟩
  · rw [hn.lo]
    exact Nat.le_add_right a 48
  · exact Nat.le_of_eq hn.hi

/-- A block inside a stacklet begins within it. -/
theorem within (ha : s.InUse a) (hb : b.Inside s.store a) : s.Within a b.ptr := by
  obtain ⟨n, hn⟩ := h.placed_of_inUse (h.inUse_iff.mp ha)
  have hlo := hb.lo
  have hsp := hb.sp
  have hhi := hb.hi
  have hcap : s.capacityAt a = n - 48 := hn.toNat_capacity
  rw [hn.lo] at hlo
  rw [hn.hi] at hhi
  unfold Stack.Within
  omega

/-- An address is in one stacklet only. -/
theorem within_unique (hi : s.InUse i) (hj : s.InUse j) (hpi : s.Within i p)
    (hpj : s.Within j p) : i = j := by
  obtain ⟨n, hn⟩ := h.placed_of_inUse (h.inUse_iff.mp hi)
  obtain ⟨m, hm⟩ := h.placed_of_inUse (h.inUse_iff.mp hj)
  have hcapi : s.capacityAt i = n - 48 := hn.toNat_capacity
  have hcapj : s.capacityAt j = m - 48 := hm.toNat_capacity
  have hroomi := hn.room
  have hroomj := hm.room
  unfold Stack.Within at hpi hpj
  by_contra hne
  have hapart := hn.owned.apart h.sound hm.owned hne
  omega

/-- **A stacklet is empty if and only if no block has its depth.** -/
theorem vacant_iff {ds : List ℕ} (hbegun : Begun (here ++ under))
    (hhome : List.Forall₂ s.Home (here ++ under) ds) (ha : s.InUse a) (hd : s.store.Depth a d) :
    d ∉ ds ↔ (s.store.stacklet a).empty = true := by
  obtain ⟨n, hn⟩ := h.placed_of_inUse (h.inUse_iff.mp ha)
  unfold Stacklet.empty
  rw [beq_iff_eq, hn.lo]
  constructor
  · intro hnone
    obtain ⟨bs, hl⟩ := h.layer ha
    have hnil : bs = [] := by
      apply List.eq_nil_iff_forall_not_mem.mpr
      intro b hb
      obtain ⟨x, hx, c, hc, hdc, hin⟩ := exists_of_forall₂ hhome (hl.sub hb)
      have hca := h.within_unique hc ha (h.within hc hin) (h.within ha (h.inside ha hl hb))
      rw [hca] at hdc
      rw [hdc.unique hd] at hx
      exact hnone hx
    have hf := hl.filled
    rw [hnil] at hf
    exact hf
  · intro hempty hmem
    obtain ⟨b, hb, c, hc, hdc, hin⟩ := exists_of_forall₂ (List.Forall₂.flip hhome) hmem
    obtain ⟨x, hx, bs, hl, hbs⟩ := h.layer_of_mem hb
    have hxc := h.within_unique hx hc (h.within hx (h.inside hx hl hbs)) (h.within hc hin)
    rw [hxc.trans (h.depth_inj hc ha hdc hd)] at hl
    have hlt := hl.lt hbegun (List.ne_nil_of_mem hbs)
    omega

end Ready

/-! ## What the calls leave as it is -/

/-- What is in use stays in use, with what is beneath it. -/
structure Extends (s s' : Stack) : Prop where
  inUse : ∀ a, s.InUse a → s'.InUse a
  prev : ∀ a, s.InUse a → (s'.store.stacklet a).mPrev = (s.store.stacklet a).mPrev
  capacity : ∀ a, s.InUse a → s'.capacityAt a = s.capacityAt a

/-- The stacklets keep their depth when the stack shrinks. -/
theorem Shrinks.depth (h : Shrinks s s') (hd : s.store.Depth a d) : s'.store.Depth a d := by
  induction hd with
  | root hprev => exact .root ((h.prev _).trans hprev)
  | next hprev _ ih => exact .next ((h.prev _).trans hprev) ih

/-- Where the top is the same, so is the rest. -/
theorem Shrinks.extends (h : Shrinks s s') (htop : s'.mFib = s.mFib) : Extends s s' := by
  refine ⟨fun a ha => ?_, fun a _ => h.prev a, fun a _ => h.capacity a⟩
  induction ha with
  | top =>
    rw [← htop]
    exact .top
  | prev _ hprev ih => exact .prev ih ((h.prev _).trans hprev)

/-- So do those in use when it is extended. -/
theorem Extends.depth (h : Extends s s') (ha : s.InUse a) (hd : s.store.Depth a d) :
    s'.store.Depth a d := by
  induction hd with
  | root hprev => exact .root ((h.prev _ ha).trans hprev)
  | next hprev _ ih => exact .next ((h.prev _ ha).trans hprev) (ih (.prev ha hprev))

/-- **The blocks that are left stay where they are.** -/
theorem Shrinks.home (hs : Shrinks s s') (h : Ready s here under below)
    (h' : Ready s' here' under' below') (hb : b ∈ here' ++ under') (hhome : s.Home b d) :
    s'.Home b d := by
  obtain ⟨a, ha, hd, hin⟩ := hhome
  obtain ⟨c, hc, bs, hl, hbs⟩ := h'.layer_of_mem hb
  have hin' := h'.inside hc hl hbs
  have hwithin : s.Within c b.ptr := by
    have := h'.within hc hin'
    unfold Stack.Within at this ⊢
    rwa [hs.capacity] at this
  obtain rfl := h.within_unique ha (hs.inUse hc) (h.within ha hin) hwithin
  exact ⟨a, hc, hs.depth hd, hin'⟩

/-- A block keeps its home when the stack is extended. -/
theorem Extends.home (he : Extends s s') (h : Ready s here under below)
    (h' : Ready s' here' under' below') (hb : b ∈ here' ++ under') (hhome : s.Home b d) :
    s'.Home b d := by
  obtain ⟨a, ha, hd, hin⟩ := hhome
  obtain ⟨c, hc, bs, hl, hbs⟩ := h'.layer_of_mem hb
  have hin' := h'.inside hc hl hbs
  have hwithin : s'.Within a b.ptr := by
    have := h.within ha hin
    unfold Stack.Within at this ⊢
    rwa [← he.capacity a ha] at this
  obtain rfl := h'.within_unique (he.inUse a ha) hc hwithin (h'.within hc hin')
  exact ⟨a, hc, he.depth ha hd, hin'⟩

/-- What keeps the home of each block keeps the homes of all. -/
theorem forall₂_home {ds : List ℕ} (hhome : List.Forall₂ s.Home bs ds)
    (hkeep : ∀ b ∈ bs, ∀ d, s.Home b d → s'.Home b d) : List.Forall₂ s'.Home bs ds :=
  ((List.forall₂_and_left bs ds).mpr ⟨fun _ hb => hb, hhome⟩).imp fun b d hbd =>
    hkeep b hbd.1 d hbd.2

/-! ## What the calls do to the top -/

/-- Dropping the spare leaves the top where it is. -/
theorem trim_mFib (s : Stack) : s.trim.mFib = s.mFib := by
  rcases trim_cases s with ⟨heq, -⟩ | heq <;> rw [heq]

/-- `deallocate` of the last block of a stacklet goes down to the stacklet before. -/
theorem deallocate_of_empty {ptr : ℕ} (hempty : (s.setSp ptr).fib.empty = true) :
    (s.deallocate ptr).mFib = (s.fib.mPrev.getD s.mFib) := by
  unfold Stack.deallocate
  rw [if_pos hempty, trim_mFib]
  unfold Stack.stepDown
  rw [setSp_fib]
  cases s.fib.mPrev <;> rfl

/-- `deallocate` of another block sets the pointer only. -/
theorem deallocate_of_not_empty {ptr : ℕ} (hempty : ¬ (s.setSp ptr).fib.empty = true) :
    s.deallocate ptr = s.setSp ptr := by
  unfold Stack.deallocate
  exact if_neg hempty

section Entered

variable (he : Entered s ext got e) (h : Inv s here under below)
  (hgrants : ∀ p ∈ got, s.store.heap.Admits p (request (s.growth ext)).toNat 16)

include he h hgrants

/-- Entering a stacklet extends the stack. -/
theorem Entered.extends : Extends s e := by
  have hready := h.toReady
  cases he with
  | top => exact (Shrinks.refl s).extends rfl
  | cached c hfull hnext hroom =>
    have hcached := hready.enterCached h.busy hnext
    refine ⟨fun a ha => ?_, fun _ _ => rfl, fun _ _ => rfl⟩
    exact hcached.inUse_iff.mpr (List.mem_cons_of_mem _ (hready.inUse_iff.mp ha))
  | grown p hfull hgot =>
    have hgrown := hready.grow h.busy (hgrants p hgot)
    have hkeep : ∀ a, s.InUse a → ∃ next,
        (s.store.nextStacklet (s.growth ext) (some s.mFib) (some p)).2.stacklet a =
          { s.store.stacklet a with mNext := next } := by
      intro a ha
      have hmem := hready.inUse_iff.mp ha
      have hne : a ≠ p := by
        rcases List.mem_cons.mp hmem with rfl | hbelow
        · exact hready.ne_new (hgrants p hgot) Ready.top_mem
        · exact hready.ne_new (hgrants p hgot) (Ready.below_mem hbelow)
      by_cases hfib : a = s.mFib
      · subst hfib
        exact ⟨some p, nextStacklet_prev hne⟩
      · exact ⟨_, nextStacklet_of_ne hne hfib⟩
    refine ⟨fun a ha => ?_, fun a ha => ?_, fun a ha => ?_⟩
    · exact hgrown.inUse_iff.mpr (List.mem_cons_of_mem _ (hready.inUse_iff.mp ha))
    · obtain ⟨next, hnext⟩ := hkeep a ha
      rw [hnext]
    · obtain ⟨next, hnext⟩ := hkeep a ha
      unfold Stack.capacityAt
      rw [hnext]
      rfl

/-- The stacklet that is entered is the top one or another one. -/
theorem Entered.eq_or_ne : e = s ∨ e.mFib ≠ s.mFib := by
  cases he with
  | top => exact Or.inl rfl
  | cached c hfull hnext hroom => exact Or.inr (h.toReady.ne_of_ahead hnext)
  | grown p hfull hgot => exact Or.inr (h.toReady.ne_new (hgrants p hgot) Ready.top_mem).symm

omit hgrants in
/-- Another stacklet is entered only on top of the one that was the top. -/
theorem Entered.prev (hne : e.mFib ≠ s.mFib) :
    e.fib.mPrev = some s.mFib ∧ e.fib.mSp = e.fib.mLo := by
  cases he with
  | top => exact absurd rfl hne
  | cached c hfull hnext hroom =>
    obtain ⟨hprev, -, hempty⟩ := h.ahead c hnext
    exact ⟨hprev, hempty⟩
  | grown p hfull hgot =>
    unfold Stack.fib
    rw [nextStacklet_self]
    exact ⟨rfl, rfl⟩

/-- A `co_new` that throws leaves the top where it was. -/
theorem Entered.undo_mFib : (e.deallocate e.fib.mSp).mFib = s.mFib := by
  have hsame : (e.setSp e.fib.mSp).fib = e.fib := setSp_fib
  by_cases hempty : (e.setSp e.fib.mSp).fib.empty = true
  · rw [deallocate_of_empty hempty]
    rcases he.eq_or_ne h hgrants with rfl | hne
    · rw [hsame] at hempty
      have hroot : e.fib.mPrev = none := by
        by_contra hprev
        exact h.busy hprev (beq_iff_eq.mp hempty)
      rw [hroot]
      rfl
    · rw [(he.prev h hne).1]
      rfl
  · rw [deallocate_of_not_empty hempty]
    by_contra hne
    rw [hsame] at hempty
    exact hempty (beq_iff_eq.mpr (he.prev h hne).2)

end Entered

end Libfork.SegmentedStack
