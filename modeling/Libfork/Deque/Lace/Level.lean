import Libfork.Deque.Lace.Invariant

/-!
# Top, split and bottom under every interleaving

The indices of the deque, over runs of any length: the items need not be where they were put.

* `Level` — how the packed word, the owner's copies of it and the snapshots of the threads stand,
  and how many items are held.
* `Effect` — what a step of the owner does to the items: nothing, a claim at the back, a delivery,
  or a report that the deque is empty.
* **`level_ownerStep`**, **`level_thiefStep`**, `level_pushCall`, `level_popCall` — every step keeps
  the levels, as long as no push publishes an index of `2 ^ 32`.

Source: `deque_lace.hpp`, `push`, `pop`, `steal`, `shrink_shared`, `grow_shared`.
-/

namespace Libfork.Deque.Lace

open Libfork.Found

variable {α : Type} {cap : Capacity} {s : State α}

/-! ## The levels -/

/-- The number of items that are pushed and not claimed. -/
def pending (log : List (Event ℕ α Thread)) : ℕ := (pushes log).length - (claims log).length

/-- What the owner's locals add to `OwnerPc.Arith`. -/
def OwnerPc.Local (cap : Capacity) : OwnerPc α → Prop
  | .pushWord bot => bot.toNat + 1 < 2 ^ 32
  | .shrinkSub top split => split.toNat ≤ top.toNat + cap.val
  | _ => True

/-- How the indices stand. -/
structure Level (cap : Capacity) (s : State α) : Prop where
  arith : s.owner.Arith s.top s.split s.deque.mWorker
  locals : s.owner.Local cap
  room : s.back ≤ s.top + cap.val
  near : s.top < s.split + 2 ^ 31
  thieves : ∀ n v, s.thief n = .exchange v → (unpack v).top.toNat < (unpack v).split.toNat
  count : s.back + (claims s.log).length = s.top + (pushes s.log).length

/-- What the owner will return, or still has to read from the slot of its index, is the item of
the occurrence it claimed. -/
def OwnerPc.RingItem (cap : Capacity) (pushed : List (ℕ × α)) (mem : ℤ → α) (bottom : ℤ) :
    OwnerPc α → Prop
  | .popRead k => bottom < cap.val ∧ pushed[k]? = some (bottom.toNat, mem bottom)
  | .coldRead k => pushed[k]? = some (bottom.toNat, mem (bottom.toNat % cap.val : ℕ))
  | .popReq k i v => pushed[k]? = some (i.toNat, v)
  | .growAdd _ _ r | .growFlag r | .growClear r => r.Item pushed
  | _ => True

/-- The owner's claimed item is where it was. -/
def State.RingItem (cap : Capacity) (s : State α) (pushed : List (ℕ × α)) : Prop :=
  s.owner.RingItem cap pushed s.deque.mArray s.deque.mWorker.bottom

/-- What a step of the owner does to the items. -/
inductive Effect (cap : Capacity) (s : State α) : State α → Prop
  /-- Nothing. -/
  | quiet (d : LaceDeque α) (pc : OwnerPc α) (hmem : d.mArray = s.deque.mArray)
      (htop : (unpack d.mTopSplit).top = (unpack s.deque.mTopSplit).top)
      (hback : d.mWorker.bottom.toNat + (if pc.inPush then 1 else 0) = s.back)
      (hholds : pc.holds = s.owner.holds)
      (hitem : ∀ pushed, s.RingItem cap pushed →
        pc.RingItem cap pushed d.mArray d.mWorker.bottom) :
      Effect cap s { s with deque := d, owner := pc }
  /-- A `pop` claims the last item. -/
  | claim (i : ℕ) (pc : OwnerPc α) (hpc : pc = .popRead (s.occ i) ∨ pc = .coldRead (s.occ i))
      (hnone : s.owner.holds = none) (hback : s.back = i + 1) (htop : s.top ≤ i) :
      Effect cap s { s with
        deque := s.deque.publish i, owner := pc, log := s.log ++ [.claim .owner (s.occ i)] }
  /-- A `pop` returns the item it claimed. -/
  | deliver (d : LaceDeque α) (k i : ℕ) (v : α) (hmem : d.mArray = s.deque.mArray)
      (htop : (unpack d.mTopSplit).top = (unpack s.deque.mTopSplit).top)
      (hback : d.mWorker.bottom.toNat = s.back) (hholds : s.owner.holds = some k)
      (hitem : ∀ pushed, s.RingItem cap pushed → pushed[k]? = some (i, v)) :
      Effect cap s { s with
        deque := d, owner := .idle, log := s.log ++ [.deliver .owner k i v] }
  /-- A `pop` finds nothing. -/
  | empty (d : LaceDeque α) (hmem : d.mArray = s.deque.mArray)
      (htop : (unpack d.mTopSplit).top = (unpack s.deque.mTopSplit).top)
      (hback : d.mWorker.bottom.toNat = s.back) (hnone : s.owner.holds = none)
      (hempty : s.back = s.top) :
      Effect cap s { s with deque := d, owner := .idle, log := s.log ++ [.empty] }

/-! ## The rules -/

/-- The top is not beyond the back. -/
theorem Level.top_le_back (h : Level cap s) : s.top ≤ s.back := h.arith.bounds.2.1

/-- Neither is the split. -/
theorem Level.split_le_back (h : Level cap s) : s.split ≤ s.back := h.arith.bounds.2.2

/-- The bottom is not negative. -/
theorem Level.bottom_nonneg (h : Level cap s) : 0 ≤ s.deque.mWorker.bottom := h.arith.bounds.1

/-- As many items are held as there are indices between top and back. -/
theorem Level.pending_eq (h : Level cap s) : pending s.log = s.back - s.top := by
  have hcount := h.count
  have hle := h.top_le_back
  unfold pending
  omega

/-- The owner stands elsewhere, with the same items. -/
theorem Level.owner (h : Level cap s) {d : LaceDeque α} {pc : OwnerPc α}
    {log : List (Event ℕ α Thread)}
    (htop : (unpack d.mTopSplit).top = (unpack s.deque.mTopSplit).top)
    (hback : d.mWorker.bottom.toNat + (if pc.inPush then 1 else 0) = s.back)
    (hpushes : pushes log = pushes s.log) (hclaims : claims log = claims s.log)
    (harith : pc.Arith s.top (unpack d.mTopSplit).split.toNat d.mWorker)
    (hlocal : pc.Local cap) (hnear : s.top < (unpack d.mTopSplit).split.toNat + 2 ^ 31) :
    Level cap { s with deque := d, owner := pc, log := log } := by
  have htop' : State.top { s with deque := d, owner := pc, log := log } = s.top := by
    simp only [State.top, htop]
  have hback' : State.back { s with deque := d, owner := pc, log := log } = s.back := hback
  constructor
  case arith =>
    rw [htop']
    exact harith
  case locals => exact hlocal
  case room =>
    rw [htop', hback']
    exact h.room
  case near =>
    rw [htop']
    exact hnear
  case thieves => exact h.thieves
  case count =>
    rw [htop', hback', hpushes, hclaims]
    exact h.count

/-- An access of the owner that neither claims nor returns an item. -/
theorem Level.quiet (h : Level cap s) {d : LaceDeque α} {pc : OwnerPc α}
    (hmem : d.mArray = s.deque.mArray)
    (htop : (unpack d.mTopSplit).top = (unpack s.deque.mTopSplit).top)
    (hback : d.mWorker.bottom.toNat + (if pc.inPush then 1 else 0) = s.back)
    (hholds : pc.holds = s.owner.holds)
    (hitem : ∀ pushed, s.RingItem cap pushed → pc.RingItem cap pushed d.mArray d.mWorker.bottom)
    (harith : pc.Arith s.top (unpack d.mTopSplit).split.toNat d.mWorker)
    (hlocal : pc.Local cap) (hnear : s.top < (unpack d.mTopSplit).split.toNat + 2 ^ 31) :
    Level cap { s with deque := d, owner := pc } ∧
      Effect cap s { s with deque := d, owner := pc } :=
  ⟨h.owner htop hback rfl rfl harith hlocal hnear, .quiet d pc hmem htop hback hholds hitem⟩

/-- An access of the owner that moves neither the back nor an item. -/
theorem Level.still (h : Level cap s) {d : LaceDeque α} {pc : OwnerPc α}
    (hmem : d.mArray = s.deque.mArray)
    (htop : (unpack d.mTopSplit).top = (unpack s.deque.mTopSplit).top)
    (hbottom : d.mWorker.bottom = s.deque.mWorker.bottom) (hpush : pc.inPush = s.owner.inPush)
    (hholds : pc.holds = s.owner.holds)
    (hitem : ∀ pushed, s.RingItem cap pushed → pc.RingItem cap pushed d.mArray d.mWorker.bottom)
    (harith : pc.Arith s.top (unpack d.mTopSplit).split.toNat d.mWorker)
    (hlocal : pc.Local cap) (hnear : s.top < (unpack d.mTopSplit).split.toNat + 2 ^ 31) :
    Level cap { s with deque := d, owner := pc } ∧
      Effect cap s { s with deque := d, owner := pc } := by
  refine h.quiet hmem htop ?_ hholds hitem harith hlocal hnear
  unfold State.back
  rw [hbottom, hpush]

/-- The back of a `push` is one past `bottom`. -/
theorem back_of_inPush (hpush : s.owner.inPush = true) :
    s.back = s.deque.mWorker.bottom.toNat + 1 := by
  unfold State.back
  rw [hpush]
  rfl

/-- Outside a push the back is the bottom. -/
theorem back_of_not_inPush (hpush : s.owner.inPush = false) :
    s.back = s.deque.mWorker.bottom.toNat := by
  unfold State.back
  rw [hpush]
  rfl

/-- The end of a call of `grow_shared`. -/
theorem level_ret (h : Level cap s) {d : LaceDeque α} {r : Resume α}
    (hmem : d.mArray = s.deque.mArray) (hword : d.mTopSplit = s.deque.mTopSplit)
    (hworker : d.mWorker = s.deque.mWorker) (hp : Parted s.top s.split s.deque.mWorker)
    (hpush : s.owner.inPush = r.inPush) (hholds : s.owner.holds = r.holds)
    (hitem : ∀ pushed, s.RingItem cap pushed → r.Item pushed) :
    Level cap (ret { s with deque := d } r) ∧ Effect cap s (ret { s with deque := d } r) := by
  cases r with
  | push =>
      have hnone : OwnerPc.holds (.pushPublish : OwnerPc α) = s.owner.holds := hholds.symm
      refine h.quiet hmem (by rw [hword]) ?_ hnone (fun _ _ => trivial) ?_ trivial
        (by rw [hword]; exact h.near)
      · rw [hworker, back_of_inPush hpush]
        rfl
      · rw [hword, hworker]
        exact ⟨hp.flag, hp.osplit, hp.top_le, h.bottom_nonneg, Int.le_add_one hp.split_le⟩
  | pop k i v =>
      have hback := back_of_not_inPush hpush
      constructor
      · have harith : OwnerPc.Arith s.top (unpack d.mTopSplit).split.toNat d.mWorker
            (.idle : OwnerPc α) := by
          rw [hword, hworker]
          exact Or.inl hp
        refine h.owner (by rw [hword]) ?_ ?_ ?_ harith trivial (by rw [hword]; exact h.near)
        · rw [hworker, hback]
          rfl
        · simp [Event.pushed]
        · simp [Event.claimed]
      · exact .deliver d k i.toNat v hmem (by rw [hword]) (by rw [hworker, hback]) hholds hitem

/-- `grow_shared` picks a split between the old one and the bottom. Where `bottom` has passed
`2 ^ 32` and the split has not, there is nothing to pick. -/
theorem level_growCall (h : Level cap s) {r : Resume α}
    (hp : Parted s.top s.split s.deque.mWorker)
    (hpush : s.owner.inPush = r.inPush) (hholds : s.owner.holds = r.holds)
    (hitem : ∀ pushed, s.RingItem cap pushed → r.Item pushed) :
    Level cap (growCall s r) ∧ Effect cap s (growCall s r) := by
  have hcap := cap.val_le
  have hroom := h.room
  have hnn := h.bottom_nonneg
  have hsplit := hp.split_le
  have htop := hp.top_le
  have hsp : s.split < 2 ^ 32 := (unpack s.deque.mTopSplit).split.isLt
  have hle : s.deque.mWorker.bottom.toNat ≤ s.back := Nat.le_add_right _ _
  have hbot : s.deque.bot.toNat = s.deque.mWorker.bottom.toNat % 2 ^ 32 := by
    unfold LaceDeque.bot
    rw [BitVec.toNat_ofInt]
    omega
  have hos : (BitVec.ofInt 32 s.deque.mWorker.osplit).toNat = s.split := by
    rw [hp.osplit, toNat_ofInt_of_lt (by omega) (by omega)]
    rfl
  unfold growCall
  simp only
  by_cases hgrow : s.deque.bot ≤ BitVec.ofInt 32 s.deque.mWorker.osplit
  · rw [if_pos hgrow]
    exact level_ret h rfl rfl rfl hp hpush hholds hitem
  · rw [if_neg hgrow]
    rw [BitVec.not_le, BitVec.lt_def, hos, hbot] at hgrow
    have hbot' : s.deque.bot.toNat = s.deque.mWorker.bottom.toNat := by omega
    have hdiff : (growDiff s.deque.bot (BitVec.ofInt 32 s.deque.mWorker.osplit)).toNat =
        (s.deque.mWorker.bottom.toNat - s.split + 1) / 2 := by
      rw [toNat_growDiff (by omega) (by omega), hbot', hos]
    have hnew : (BitVec.ofInt 32 s.deque.mWorker.osplit +
        growDiff s.deque.bot (BitVec.ofInt 32 s.deque.mWorker.osplit)).toNat =
        s.split + (s.deque.mWorker.bottom.toNat - s.split + 1) / 2 := by
      rw [BitVec.toNat_add, hos, hdiff]
      omega
    refine h.still rfl rfl rfl hpush.symm hholds.symm hitem ⟨hp, ?_, ?_⟩ trivial h.near
    · rw [hnew, hdiff]
      rfl
    · rw [hnew]
      omega

/-! ## The word, step by step -/

/-- `push` on an all-stolen deque republishes the packed word: no thief can be claiming. -/
theorem level_pushWord (h : Level cap s) {bot : BitVec 32} (hpc : s.owner = .pushWord bot) :
    Level cap { s with
        deque := { s.deque with mTopSplit := pack bot (bot + 1) }, owner := .pushFlag bot } ∧
      Effect cap s { s with
        deque := { s.deque with mTopSplit := pack bot (bot + 1) }, owner := .pushFlag bot } := by
  have harith := h.arith
  have hlocal := h.locals
  rw [hpc] at harith hlocal
  obtain ⟨hd, hb⟩ := harith
  have hbot := hd.bottom
  have hlt : bot.toNat + 1 < 2 ^ 32 := hlocal
  have hsucc : (bot + 1).toNat = bot.toNat + 1 := by
    rw [BitVec.toNat_add]
    simp only [BitVec.ofNat_eq_ofNat, BitVec.toNat_ofNat]
    omega
  have htop : bot = (unpack s.deque.mTopSplit).top := by
    apply BitVec.eq_of_toNat_eq
    change bot.toNat = s.top
    omega
  have hle : s.top ≤ (bot + 1).toNat := by omega
  refine h.still rfl ?_ rfl (by rw [hpc]; rfl) (by rw [hpc]; rfl) (fun _ _ => trivial) ?_
    trivial ?_
  · rw [unpack_pack]
    exact htop
  · rw [unpack_pack]
    exact ⟨hb, hsucc, hle⟩
  · rw [unpack_pack]
    exact Nat.lt_of_le_of_lt hle (Nat.lt_add_of_pos_right (by decide))

/-- `push` remembers the split it has published. -/
theorem level_own (h : Level cap s) {bot : BitVec 32}
    (harith : s.deque.mWorker.bottom = bot.toNat ∧ s.split = bot.toNat + 1 ∧ s.top ≤ s.split)
    (hpush : s.owner.inPush = true) (hholds : s.owner.holds = none) {d : LaceDeque α}
    (hmem : d.mArray = s.deque.mArray) (hword : d.mTopSplit = s.deque.mTopSplit)
    (hworker : d.mWorker = s.deque.mWorker) :
    Level cap { s with deque := d.own (bot + 1), owner := .pushPublish } ∧
      Effect cap s { s with deque := d.own (bot + 1), owner := .pushPublish } := by
  obtain ⟨hb, hsp, htop⟩ := harith
  have hlt : s.split < 2 ^ 32 := (unpack s.deque.mTopSplit).split.isLt
  have hsucc : (bot + 1).toNat = s.split := by
    rw [BitVec.toNat_add]
    simp only [BitVec.ofNat_eq_ofNat, BitVec.toNat_ofNat]
    omega
  have hnn : 0 ≤ s.deque.mWorker.bottom := by omega
  have hsp' : (s.split : ℤ) ≤ s.deque.mWorker.bottom + 1 := by omega
  refine h.still hmem (by rw [LaceDeque.own_mTopSplit, hword]) ?_ hpush.symm hholds.symm
    (fun _ _ => trivial) ?_ trivial (by rw [LaceDeque.own_mTopSplit, hword]; exact h.near)
  · change d.mWorker.bottom = _
    rw [hworker]
  · rw [LaceDeque.own_mTopSplit, hword]
    refine ⟨rfl, congrArg Nat.cast hsucc, htop, ?_, ?_⟩
    · change 0 ≤ d.mWorker.bottom
      rw [hworker]
      exact hnn
    · change (s.split : ℤ) ≤ d.mWorker.bottom + 1
      rw [hworker]
      exact hsp'

/-- `push` publishes the new bottom. -/
theorem level_pushPublish (h : Level cap s) (hpc : s.owner = .pushPublish) :
    Level cap { s with
        deque := s.deque.publish (s.deque.mWorker.bottom + 1), owner := .idle } ∧
      Effect cap s { s with
        deque := s.deque.publish (s.deque.mWorker.bottom + 1), owner := .idle } := by
  have harith := h.arith
  rw [hpc] at harith
  obtain ⟨hflag, hos, htop, hnn, hsp⟩ := harith
  refine h.quiet rfl rfl ?_ (by rw [hpc]; rfl) (fun _ _ => trivial) ?_ trivial h.near
  · rw [back_of_inPush (by rw [hpc]; rfl)]
    change (s.deque.mWorker.bottom + 1).toNat + 0 = _
    omega
  · exact Or.inl ⟨hflag, hos, htop, hsp⟩

/-- `grow_shared` moves the split up to the chosen index. -/
theorem level_growAdd (h : Level cap s) {diff newSplit : BitVec 32} {r : Resume α}
    (hpc : s.owner = .growAdd diff newSplit r) :
    Level cap { s with
        deque := { s.deque with mTopSplit := s.deque.mTopSplit + onSplit diff }.own newSplit
        owner := .growFlag r } ∧
      Effect cap s { s with
        deque := { s.deque with mTopSplit := s.deque.mTopSplit + onSplit diff }.own newSplit
        owner := .growFlag r } := by
  have harith := h.arith
  rw [hpc] at harith
  obtain ⟨hp, hnew, hle⟩ := harith
  have hsplit : (unpack s.deque.mTopSplit).split + diff = newSplit := by
    apply BitVec.eq_of_toNat_eq
    have hlt := newSplit.isLt
    have hnew' : newSplit.toNat = (unpack s.deque.mTopSplit).split.toNat + diff.toNat := hnew
    rw [BitVec.toNat_add]
    omega
  have htop : s.top ≤ newSplit.toNat := by
    have hle' := hp.top_le
    omega
  refine h.still (LaceDeque.own_mArray _ _) ?_ rfl (by rw [hpc]; rfl) (by rw [hpc]; rfl) ?_ ?_
    trivial ?_
  · rw [LaceDeque.own_mTopSplit, unpack_add_onSplit]
  · intro pushed hitem
    have hr : r.Item pushed := by
      unfold State.RingItem at hitem
      rw [hpc] at hitem
      exact hitem
    change r.Item pushed
    exact hr
  · rw [LaceDeque.own_mTopSplit, unpack_add_onSplit, hsplit]
    exact ⟨rfl, rfl, htop, hle⟩
  · rw [LaceDeque.own_mTopSplit, unpack_add_onSplit, hsplit]
    exact Nat.lt_of_le_of_lt htop (Nat.lt_add_of_pos_right (by decide))

/-- `shrink_shared` moves the split to the midpoint; thieves may have passed it already. -/
theorem level_shrinkSub (h : Level cap s) {top split : BitVec 32}
    (hpc : s.owner = .shrinkSub top split) :
    Level cap { s with
        deque :=
          { s.deque with mTopSplit := s.deque.mTopSplit - onSplit (split - midpoint top split) }
        owner := .shrinkFresh split (midpoint top split) } ∧
      Effect cap s { s with
        deque :=
          { s.deque with mTopSplit := s.deque.mTopSplit - onSplit (split - midpoint top split) }
        owner := .shrinkFresh split (midpoint top split) } := by
  have harith := h.arith
  have hlocal := h.locals
  have hcap := cap.val_le
  rw [hpc] at harith hlocal
  obtain ⟨hflag, hos, hb, hsp, hlt, hle, hts⟩ := harith
  have hsnap : split.toNat ≤ top.toNat + cap.val := hlocal
  have hmid : (midpoint top split).toNat = top.toNat + (split.toNat - top.toNat) / 2 :=
    toNat_midpoint (by omega)
  have hnew : (unpack s.deque.mTopSplit).split - (split - midpoint top split) =
      midpoint top split := by
    have hsplit : (unpack s.deque.mTopSplit).split = split := BitVec.eq_of_toNat_eq hsp.symm
    rw [hsplit]
    apply BitVec.eq_of_toNat_eq
    have hlt' := split.isLt
    rw [BitVec.toNat_sub, BitVec.toNat_sub]
    omega
  have hos' : s.deque.mWorker.osplit = split.toNat := by omega
  have hb' : s.deque.mWorker.bottom = split.toNat := by omega
  have hlt' : (midpoint top split).toNat < split.toNat := by omega
  have hts' : s.top ≤ split.toNat := by omega
  have hnear : s.top < (midpoint top split).toNat + 2 ^ 31 := by omega
  refine h.still rfl ?_ rfl (by rw [hpc]; rfl) (by rw [hpc]; rfl) (fun _ _ => trivial) ?_
    trivial ?_
  · rw [unpack_sub_onSplit]
  · rw [unpack_sub_onSplit, hnew]
    exact ⟨hflag, hos', hb', rfl, hlt', hts'⟩
  · rw [unpack_sub_onSplit, hnew]
    exact hnear

/-- `shrink_shared` reads the top again and decides whether anything is left. -/
theorem level_shrinkFresh (h : Level cap s) {split newSplit : BitVec 32}
    (hpc : s.owner = .shrinkFresh split newSplit) {s' : State α}
    (hs : ownerStep cap s = some s') : Level cap s' ∧ Effect cap s s' := by
  have harith := h.arith
  rw [hpc] at harith
  obtain ⟨hflag, hos, hb, hnew, hlt, hts⟩ := harith
  unfold ownerStep at hs
  rw [hpc] at hs
  simp only at hs
  by_cases hfresh : (unpack s.deque.mTopSplit).top = split
  · rw [if_neg (not_not.mpr hfresh)] at hs
    obtain rfl := Option.some.inj hs
    have htop : s.top = split.toNat := congrArg BitVec.toNat hfresh
    refine h.still rfl rfl rfl (by rw [hpc]; rfl) (by rw [hpc]; rfl) (fun _ _ => trivial) ?_
      trivial h.near
    refine ⟨?_, by omega, by omega⟩
    change s.split ≤ s.top
    omega
  · rw [if_pos hfresh] at hs
    have hne : s.top ≠ split.toNat := fun he => hfresh (BitVec.eq_of_toNat_eq he)
    by_cases hgt : (unpack s.deque.mTopSplit).top > newSplit
    · rw [if_pos hgt] at hs
      obtain rfl := Option.some.inj hs
      have hgt' : newSplit.toNat < s.top := BitVec.lt_def.mp hgt
      have hcor : (correctedSplit (unpack s.deque.mTopSplit).top split).toNat =
          (s.top + split.toNat) / 2 := toNat_correctedSplit _ _
      have hsub : (correctedSplit (unpack s.deque.mTopSplit).top split - newSplit).toNat =
          (s.top + split.toNat) / 2 - newSplit.toNat := by
        have hlt' := split.isLt
        rw [BitVec.toNat_sub, hcor]
        omega
      refine h.still rfl rfl rfl (by rw [hpc]; rfl) (by rw [hpc]; rfl) (fun _ _ => trivial) ?_
        trivial h.near
      refine ⟨hflag, by omega, ?_, by omega⟩
      change _ = s.split + _
      omega
    · rw [if_neg hgt] at hs
      obtain rfl := Option.some.inj hs
      have hle : ¬ newSplit.toNat < s.top := fun hlt => hgt (BitVec.lt_def.mpr hlt)
      refine h.still rfl rfl rfl (by rw [hpc]; rfl) (by rw [hpc]; rfl) (fun _ _ => trivial) ?_
        trivial h.near
      refine ⟨⟨hflag, congrArg Nat.cast hnew, ?_, ?_⟩, ?_⟩
      · change s.top ≤ s.split
        omega
      · change (s.split : ℤ) ≤ s.deque.mWorker.bottom
        omega
      · change (s.split : ℤ) < s.deque.mWorker.bottom
        omega

/-- `shrink_shared` found thieves past the midpoint and moves the split up again. -/
theorem level_shrinkFix (h : Level cap s) {corrected correction : BitVec 32}
    (hpc : s.owner = .shrinkFix corrected correction) :
    Level cap { s with
        deque :=
          { s.deque with
            mTopSplit := s.deque.mTopSplit + onSplit correction
            mWorker := { s.deque.mWorker with osplit := corrected.toNat } }
        owner := .coldPublish } ∧
      Effect cap s { s with
        deque :=
          { s.deque with
            mTopSplit := s.deque.mTopSplit + onSplit correction
            mWorker := { s.deque.mWorker with osplit := corrected.toNat } }
        owner := .coldPublish } := by
  have harith := h.arith
  rw [hpc] at harith
  obtain ⟨hflag, hlt, hcor, htop⟩ := harith
  have hsplit : (unpack s.deque.mTopSplit).split + correction = corrected := by
    apply BitVec.eq_of_toNat_eq
    have hlt' := corrected.isLt
    have hcor' : corrected.toNat = (unpack s.deque.mTopSplit).split.toNat + correction.toNat := hcor
    rw [BitVec.toNat_add]
    omega
  refine h.still rfl ?_ rfl (by rw [hpc]; rfl) (by rw [hpc]; rfl) (fun _ _ => trivial) ?_
    trivial ?_
  · rw [unpack_add_onSplit]
  · rw [unpack_add_onSplit, hsplit]
    exact ⟨⟨hflag, rfl, htop, Int.le_of_lt hlt⟩, hlt⟩
  · rw [unpack_add_onSplit, hsplit]
    exact Nat.lt_of_le_of_lt htop (Nat.lt_add_of_pos_right (by decide))

/-- An all-stolen `pop` reports empty. -/
theorem level_shrinkEmpty (h : Level cap s) (hpc : s.owner = .shrinkEmpty) :
    Level cap { s with
        deque :=
          { s.deque with
            mAllstolen := true, mWorker := { s.deque.mWorker with oAllstolen := true } }
        owner := .idle
        log := s.log ++ [.empty] } ∧
      Effect cap s { s with
        deque :=
          { s.deque with
            mAllstolen := true, mWorker := { s.deque.mWorker with oAllstolen := true } }
        owner := .idle
        log := s.log ++ [.empty] } := by
  have harith := h.arith
  rw [hpc] at harith
  have hd : Drained s.top s.split s.deque.mWorker := harith
  have hback := back_of_not_inPush (s := s) (by rw [hpc]; rfl)
  have hempty : s.back = s.top := by
    have hbottom := hd.bottom
    omega
  constructor
  · refine h.owner rfl hback.symm ?_ ?_ ?_ trivial h.near
    · simp [Event.pushed]
    · simp [Event.claimed]
    · exact Or.inr ⟨⟨hd.split_le, hd.bottom, hd.osplit⟩, rfl⟩
  · exact .empty _ rfl rfl hback.symm (by rw [hpc]; rfl) hempty

/-- A `pop` claims the item before the back and publishes the decrement. -/
theorem level_claim (h : Level cap s) (hpush : s.owner.inPush = false)
    (hnone : s.owner.holds = none) (hp : Parted s.top s.split s.deque.mWorker)
    (hlt : (s.split : ℤ) < s.deque.mWorker.bottom) {pc : OwnerPc α}
    (hpc : pc = .popRead (s.occ (s.deque.mWorker.bottom - 1).toNat) ∨
      pc = .coldRead (s.occ (s.deque.mWorker.bottom - 1).toNat)) :
    Level cap { s with
        deque := s.deque.publish (s.deque.mWorker.bottom - 1)
        owner := pc
        log := s.log ++ [.claim .owner (s.occ (s.deque.mWorker.bottom - 1).toNat)] } ∧
      Effect cap s { s with
        deque := s.deque.publish (s.deque.mWorker.bottom - 1)
        owner := pc
        log := s.log ++ [.claim .owner (s.occ (s.deque.mWorker.bottom - 1).toNat)] } := by
  have hb := back_of_not_inPush hpush
  have htop := hp.top_le
  obtain ⟨i, hi⟩ : ∃ i : ℕ, s.back = i + 1 := ⟨s.back - 1, by omega⟩
  have hbi : s.deque.mWorker.bottom - 1 = i := by omega
  have hti : s.top ≤ i := by omega
  rw [hbi, Int.toNat_natCast] at hpc ⊢
  have hpc' : pc.inPush = false := by
    rcases hpc with rfl | rfl <;> rfl
  have hback' : State.back { s with
      deque := s.deque.publish i, owner := pc, log := s.log ++ [.claim .owner (s.occ i)] } = i := by
    rw [back_of_not_inPush hpc']
    rfl
  have hparted : Parted s.top s.split (s.deque.publish i).mWorker := by
    refine ⟨hp.flag, hp.osplit, htop, ?_⟩
    change (s.split : ℤ) ≤ (i : ℤ)
    omega
  have hroom := h.room
  have hcount := h.count
  refine ⟨?_, .claim i pc hpc hnone hi hti⟩
  constructor
  case arith =>
    change OwnerPc.Arith s.top s.split (s.deque.publish i).mWorker pc
    rcases hpc with rfl | rfl <;> exact hparted
  case locals =>
    change pc.Local cap
    rcases hpc with rfl | rfl <;> trivial
  case room =>
    rw [hback']
    change i ≤ s.top + cap.val
    omega
  case near => exact h.near
  case thieves => exact h.thieves
  case count =>
    rw [hback']
    change i + (claims (s.log ++ [_])).length = s.top + (pushes (s.log ++ [_])).length
    simp only [claims_snoc, pushes_snoc, Event.claimed, Event.pushed, List.length_append]
    simp
    omega

/-! ## Whole calls and steps -/

/-- One access of the owner. -/
theorem level_ownerStep (h : Level cap s) {s' : State α} (hs : ownerStep cap s = some s') :
    Level cap s' ∧ Effect cap s s' := by
  have harith := h.arith
  cases hpc : s.owner with
  | idle =>
      unfold ownerStep at hs
      rw [hpc] at hs
      cases hs
  | pushWord bot =>
      unfold ownerStep at hs
      rw [hpc] at hs
      cases hs
      exact level_pushWord h hpc
  | pushFlag bot =>
      unfold ownerStep at hs
      rw [hpc] at hs harith
      cases hs
      exact h.still rfl rfl rfl (by rw [hpc]; rfl) (by rw [hpc]; rfl) (fun _ _ => trivial)
        harith trivial h.near
  | pushCheck bot =>
      unfold ownerStep at hs
      rw [hpc] at hs harith
      simp only at hs
      split at hs
      · cases hs
        exact h.still rfl rfl rfl (by rw [hpc]; rfl) (by rw [hpc]; rfl) (fun _ _ => trivial)
          harith trivial h.near
      · cases hs
        exact level_own h harith (by rw [hpc]; rfl) (by rw [hpc]; rfl) rfl rfl rfl
  | pushClear bot =>
      unfold ownerStep at hs
      rw [hpc] at hs harith
      cases hs
      refine level_own h harith (by rw [hpc]; rfl) (by rw [hpc]; rfl) ?_ ?_ ?_
      · rfl
      · rfl
      · rfl
  | pushReq =>
      unfold ownerStep at hs
      rw [hpc] at hs harith
      simp only at hs
      split at hs
      · cases hs
        exact level_growCall h harith (by rw [hpc]; rfl) (by rw [hpc]; rfl) (fun _ _ => trivial)
      · cases hs
        refine h.still rfl rfl rfl (by rw [hpc]; rfl) (by rw [hpc]; rfl) (fun _ _ => trivial)
          ?_ trivial h.near
        exact ⟨harith.flag, harith.osplit, harith.top_le, h.bottom_nonneg,
          Int.le_add_one harith.split_le⟩
  | pushPublish =>
      unfold ownerStep at hs
      rw [hpc] at hs
      cases hs
      exact level_pushPublish h hpc
  | growAdd diff newSplit r =>
      unfold ownerStep at hs
      rw [hpc] at hs
      cases hs
      exact level_growAdd h hpc
  | growFlag r =>
      unfold ownerStep at hs
      rw [hpc] at hs harith
      cases hs
      refine h.still rfl rfl rfl (by rw [hpc]; rfl) (by rw [hpc]; rfl) ?_ harith trivial h.near
      intro pushed hitem
      unfold State.RingItem at hitem
      rw [hpc] at hitem
      exact hitem
  | growClear r =>
      unfold ownerStep at hs
      rw [hpc] at hs harith
      cases hs
      refine level_ret (d := { s.deque with mSplitreq := false }) h rfl rfl rfl harith
        (by rw [hpc]; rfl) (by rw [hpc]; rfl) ?_
      intro pushed hitem
      unfold State.RingItem at hitem
      rw [hpc] at hitem
      exact hitem
  | popRead k =>
      unfold ownerStep at hs
      rw [hpc] at hs harith
      cases hs
      refine h.still rfl rfl rfl (by rw [hpc]; rfl) (by rw [hpc]; rfl) ?_ harith trivial h.near
      intro pushed hitem
      unfold State.RingItem at hitem
      rw [hpc] at hitem
      exact hitem.2
  | popReq k i v =>
      unfold ownerStep at hs
      rw [hpc] at hs harith
      have hitem : ∀ pushed, s.RingItem cap pushed → (Resume.pop k i v).Item pushed := by
        intro pushed hitem
        unfold State.RingItem at hitem
        rw [hpc] at hitem
        exact hitem
      simp only at hs
      split at hs
      · cases hs
        exact level_growCall h harith (by rw [hpc]; rfl) (by rw [hpc]; rfl) hitem
      · cases hs
        exact level_ret h rfl rfl rfl harith (by rw [hpc]; rfl) (by rw [hpc]; rfl) hitem
  | shrinkSub top split =>
      unfold ownerStep at hs
      rw [hpc] at hs
      cases hs
      exact level_shrinkSub h hpc
  | shrinkFresh split newSplit => exact level_shrinkFresh h hpc hs
  | shrinkFix corrected correction =>
      unfold ownerStep at hs
      rw [hpc] at hs
      cases hs
      exact level_shrinkFix h hpc
  | shrinkEmpty =>
      unfold ownerStep at hs
      rw [hpc] at hs
      cases hs
      exact level_shrinkEmpty h hpc
  | coldPublish =>
      unfold ownerStep at hs
      rw [hpc] at hs harith
      cases hs
      exact level_claim h (by rw [hpc]; rfl) (by rw [hpc]; rfl) harith.1 harith.2 (Or.inr rfl)
  | coldRead k =>
      unfold ownerStep at hs
      rw [hpc] at hs harith
      cases hs
      refine h.still rfl rfl rfl (by rw [hpc]; rfl) (by rw [hpc]; rfl) ?_ harith trivial h.near
      intro pushed hitem
      unfold State.RingItem at hitem
      rw [hpc] at hitem
      have hmask : maskIndex cap s.deque.mWorker.bottom =
          s.deque.mWorker.bottom.toNat % cap.val := by
        conv_lhs => rw [← Int.toNat_of_nonneg h.bottom_nonneg]
        exact maskIndex_eq_mod cap _
      rw [hmask]
      exact hitem

/-- `pop` up to its first access. -/
theorem level_popCall (h : Level cap s) (hidle : s.owner = .idle) :
    Level cap (popCall s) ∧ Effect cap s (popCall s) := by
  have harith := h.arith
  rw [hidle] at harith
  unfold popCall
  simp only
  by_cases hgt : s.deque.mWorker.bottom > s.deque.mWorker.osplit
  · rw [if_pos hgt]
    rcases harith with hp | ⟨hd, -⟩
    · have hos := hp.osplit
      exact level_claim h (by rw [hidle]; rfl) (by rw [hidle]; rfl) hp (by omega) (Or.inl rfl)
    · have hbottom := hd.bottom
      have hos := hd.osplit
      omega
  · rw [if_neg hgt]
    have hback := back_of_not_inPush (s := s) (by rw [hidle]; rfl)
    by_cases hflag : s.deque.mWorker.oAllstolen = true
    · rw [if_pos hflag]
      rcases harith with hp | ⟨hd, -⟩
      · rw [hp.flag] at hflag
        cases hflag
      · have hempty : s.back = s.top := by
          have hbottom := hd.bottom
          omega
        have heq : ({ s with log := s.log ++ [.empty] } : State α) =
            { s with deque := s.deque, owner := .idle, log := s.log ++ [.empty] } := by
          rw [← hidle]
        rw [heq]
        constructor
        · refine h.owner rfl hback.symm ?_ ?_ (Or.inr ⟨hd, hflag⟩) trivial h.near
          · simp [Event.pushed]
          · simp [Event.claimed]
        · exact .empty s.deque rfl rfl hback.symm (by rw [hidle]; rfl) hempty
    · rw [if_neg hflag]
      rcases harith with hp | ⟨-, hflag'⟩
      · have hos := hp.osplit
        have hsplit := hp.split_le
        have htop := hp.top_le
        have hroom := h.room
        have hbottom : s.deque.mWorker.bottom = s.split := by omega
        by_cases hne : (unpack s.deque.mTopSplit).top ≠ (unpack s.deque.mTopSplit).split
        · rw [if_pos hne]
          have hne' : s.top ≠ s.split := fun he => hne (BitVec.eq_of_toNat_eq he)
          refine h.still rfl rfl rfl (by rw [hidle]; rfl) (by rw [hidle]; rfl)
            (fun _ _ => trivial) ?_ ?_ h.near
          · exact ⟨hp.flag, hp.osplit, hbottom, rfl, Nat.lt_of_le_of_ne htop hne',
              Nat.le_refl _, htop⟩
          · change s.split ≤ s.top + cap.val
            omega
        · rw [if_neg hne]
          have he : s.top = s.split := congrArg BitVec.toNat (not_not.mp hne)
          refine h.still rfl rfl rfl (by rw [hidle]; rfl) (by rw [hidle]; rfl)
            (fun _ _ => trivial) ?_ trivial h.near
          refine ⟨?_, by omega, by omega⟩
          change s.split ≤ s.top
          omega
      · exact absurd hflag' hflag

/-- `push` up to its first access. It must not publish an index of `2 ^ 32`. -/
theorem level_pushCall (h : Level cap s) (hidle : s.owner = .idle) (v : α)
    (hroom : pending s.log < cap.val)
    (hword : s.deque.mWorker.oAllstolen = true → s.deque.mWorker.bottom ≠ 2 ^ 32 - 1) :
    Level cap (pushCall cap s v) := by
  have harith := h.arith
  rw [hidle] at harith
  have hback := back_of_not_inPush (s := s) (by rw [hidle]; rfl)
  have hpend := h.pending_eq
  have hcount := h.count
  have hle := h.top_le_back
  have hnn := h.bottom_nonneg
  have hback' : (pushCall cap s v).back = s.back + 1 := by
    rw [back_of_inPush, hback]
    · rfl
    · unfold pushCall
      simp only
      split <;> rfl
  constructor
  case arith =>
    change OwnerPc.Arith s.top s.split s.deque.mWorker
      (if s.deque.mWorker.oAllstolen = true then .pushWord s.deque.bot else .pushReq)
    rcases harith with hp | ⟨hd, hflag⟩
    · rw [if_neg (by rw [hp.flag]; exact Bool.false_ne_true)]
      exact hp
    · rw [if_pos hflag]
      refine ⟨hd, ?_⟩
      have hbottom := hd.bottom
      have hlt : s.top < 2 ^ 32 := (unpack s.deque.mTopSplit).top.isLt
      unfold LaceDeque.bot
      rw [toNat_ofInt_of_lt hnn (by omega), Int.toNat_of_nonneg hnn]
  case locals =>
    change OwnerPc.Local cap
      (if s.deque.mWorker.oAllstolen = true then OwnerPc.pushWord s.deque.bot else .pushReq)
    rcases harith with hp | ⟨hd, hflag⟩
    · rw [if_neg (by rw [hp.flag]; exact Bool.false_ne_true)]
      trivial
    · rw [if_pos hflag]
      have hbottom := hd.bottom
      have hne := hword hflag
      have hlt : s.top < 2 ^ 32 := (unpack s.deque.mTopSplit).top.isLt
      change s.deque.bot.toNat + 1 < 2 ^ 32
      unfold LaceDeque.bot
      rw [toNat_ofInt_of_lt hnn (by omega)]
      omega
  case room =>
    rw [hback']
    change s.back + 1 ≤ s.top + cap.val
    omega
  case near => exact h.near
  case thieves => exact h.thieves
  case count =>
    rw [hback']
    change s.back + 1 + (claims (s.log ++ [_])).length = s.top + (pushes (s.log ++ [_])).length
    simp only [claims_snoc, pushes_snoc, Event.claimed, Event.pushed, List.length_append]
    simp
    omega

/-- A thief moves on and changes neither the word nor the items. -/
theorem Level.thief (h : Level cap s) {n : ℕ} {pc : ThiefPc} {d : LaceDeque α}
    {log : List (Event ℕ α Thread)} (hword : d.mTopSplit = s.deque.mTopSplit)
    (hworker : d.mWorker = s.deque.mWorker)
    (hpushes : pushes log = pushes s.log) (hclaims : claims log = claims s.log)
    (hpc : ∀ v, pc = .exchange v → (unpack v).top.toNat < (unpack v).split.toNat) :
    Level cap { s with deque := d, thief := Function.update s.thief n pc, log := log } := by
  have htop : State.top { s with
      deque := d, thief := Function.update s.thief n pc, log := log } = s.top := by
    simp only [State.top, hword]
  have hsplit : State.split { s with
      deque := d, thief := Function.update s.thief n pc, log := log } = s.split := by
    simp only [State.split, hword]
  have hback : State.back { s with
      deque := d, thief := Function.update s.thief n pc, log := log } = s.back := by
    simp only [State.back, hworker]
  constructor
  case arith =>
    rw [htop, hsplit]
    change s.owner.Arith s.top s.split d.mWorker
    rw [hworker]
    exact h.arith
  case locals => exact h.locals
  case room =>
    rw [hback, htop]
    exact h.room
  case near =>
    rw [hsplit, htop]
    exact h.near
  case thieves =>
    intro m v hm
    change Function.update s.thief n pc m = .exchange v at hm
    by_cases hmn : m = n
    · subst hmn
      rw [Function.update_self] at hm
      exact hpc v hm
    · rw [Function.update_of_ne hmn] at hm
      exact h.thieves m v hm
  case count =>
    rw [hback, htop, hpushes, hclaims]
    exact h.count

/-- One past the top, as a number. -/
theorem top_succ (hlt : s.top < s.split) :
    ((unpack s.deque.mTopSplit).top + 1).toNat = s.top + 1 := by
  have hsplit : s.split < 2 ^ 32 := (unpack s.deque.mTopSplit).split.isLt
  have htop : (unpack s.deque.mTopSplit).top.toNat = s.top := rfl
  rw [BitVec.toNat_add, htop]
  simp only [BitVec.ofNat_eq_ofNat, BitVec.toNat_ofNat]
  omega

/-- A thief's compare-exchange succeeds. -/
theorem level_thiefClaim (h : Level cap s) {n k : ℕ} {top : BitVec 32} (hlt : s.top < s.split) :
    Level cap { s with
      deque :=
        { s.deque with
          mTopSplit :=
            pack ((unpack s.deque.mTopSplit).top + 1) (unpack s.deque.mTopSplit).split }
      thief := Function.update s.thief n (.read top k)
      log := s.log ++ [.claim (.thief n) k] } := by
  set s' : State α := { s with
    deque :=
      { s.deque with
        mTopSplit :=
          pack ((unpack s.deque.mTopSplit).top + 1) (unpack s.deque.mTopSplit).split }
    thief := Function.update s.thief n (.read top k)
    log := s.log ++ [.claim (.thief n) k] } with hs'
  have htop : s'.top = s.top + 1 := by
    change (unpack (pack _ _)).top.toNat = _
    rw [unpack_pack]
    exact top_succ hlt
  have hsplit : s'.split = s.split := by
    change (unpack (pack _ _)).split.toNat = _
    rw [unpack_pack]
    rfl
  have hback : s'.back = s.back := rfl
  have hroom := h.room
  have hcount := h.count
  constructor
  case arith =>
    rw [htop, hsplit]
    exact h.arith.steal hlt
  case locals => exact h.locals
  case room =>
    rw [hback, htop]
    omega
  case near =>
    rw [hsplit, htop]
    omega
  case thieves =>
    intro m v hm
    change Function.update s.thief n (.read top k) m = .exchange v at hm
    by_cases hmn : m = n
    · subst hmn
      rw [Function.update_self] at hm
      cases hm
    · rw [Function.update_of_ne hmn] at hm
      exact h.thieves m v hm
  case count =>
    rw [hback, htop]
    change s.back + (claims (s.log ++ [_])).length = _ + (pushes (s.log ++ [_])).length
    simp only [claims_snoc, pushes_snoc, Event.claimed, Event.pushed, List.length_append]
    simp
    omega

/-- One access of a thief. -/
theorem level_thiefStep (h : Level cap s) (n : ℕ) : Level cap (thiefStep cap s n) := by
  unfold thiefStep
  cases hpc : s.thief n with
  | idle =>
      simp only
      split
      · exact h
      · exact h.thief rfl rfl rfl rfl (fun _ hv => by cases hv)
  | load =>
      simp only
      split
      · rename_i hpos
        refine h.thief rfl rfl rfl rfl ?_
        rintro v ⟨⟩
        exact lt_of_toInt_sub_pos (Nat.le_of_lt h.near) hpos
      · exact h.thief rfl rfl rfl rfl (fun _ hv => by cases hv)
  | exchange v =>
      simp only
      split
      · rename_i hv
        subst hv
        exact level_thiefClaim h (h.thieves n _ hpc)
      · exact h.thief rfl rfl rfl rfl (fun _ hv => by cases hv)
  | read top k =>
      refine h.thief rfl rfl ?_ ?_ (fun _ hv => by cases hv)
      · simp [Event.pushed]
      · simp [Event.claimed]
  | request => exact h.thief rfl rfl rfl rfl (fun _ hv => by cases hv)

/-- A new deque. -/
theorem level_new (cap : Capacity) (mem : ℤ → α) : Level cap (State.new mem) := by
  have htop : (State.new mem).top = 0 := congrArg (fun w => w.top.toNat) (unpack_pack 0 0)
  have hsplit : (State.new mem).split = 0 := congrArg (fun w => w.split.toNat) (unpack_pack 0 0)
  have hback : (State.new mem).back = 0 := rfl
  constructor
  case arith =>
    rw [htop, hsplit]
    exact Or.inr ⟨⟨Nat.le_refl _, rfl, rfl⟩, rfl⟩
  case locals => trivial
  case room =>
    rw [hback]
    exact Nat.zero_le _
  case near =>
    rw [htop]
    exact Nat.add_pos_right _ (by decide)
  case thieves =>
    intro n v hv
    cases hv
  case count =>
    rw [hback, htop]
    rfl

/-! ## The guard -/

/-- No `push` starts with as many items held as there are slots. -/
def Held (cap : Capacity) (s : State α) : Act α → Prop
  | .push _ => pending s.log < cap.val
  | _ => True

instance (cap : Capacity) (s : State α) : (a : Act α) → Decidable (Held cap s a)
  | .push _ => inferInstanceAs (Decidable (pending s.log < cap.val))
  | .pop => inferInstanceAs (Decidable True)
  | .owner => inferInstanceAs (Decidable True)
  | .thief _ => inferInstanceAs (Decidable True)

end Libfork.Deque.Lace
