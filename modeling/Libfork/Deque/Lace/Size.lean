import Libfork.Deque.Lace.Delivery

/-!
# `size`, `ssize` and `empty` when nothing is in flight

The three functions read what the owner publishes: `m_top_split`, `m_bottom` and `m_allstolen`.
Between two calls of the owner these agree with its private copies, whatever the thieves left in
`m_splitreq` and however far `shrink_shared` moved the split.

* `Published` — how `m_bottom` and `m_allstolen` stand to the owner's copies at each access;
  `published_step`.
* **`size_of_run`** — with no call in progress, `ssize()` and `size()` are the number of items
  pushed and not returned, and `empty()` says whether it is zero.

Source: `deque_lace.hpp`, `size`, `ssize`, `empty`.
-/

namespace Libfork.Deque.Lace

open Libfork.Found

variable {α : Type} {cap : Capacity} {s : State α}

/-! ## The functions -/

namespace LaceDeque

/-- Source: `deque_lace.hpp`, `lace_deque::ssize` -/
def ssize (d : LaceDeque α) : ℤ :=
  let v := unpack d.mTopSplit
  let bot := d.mBottom
  if bot ≤ v.top then 0 else (bot - v.top).toNat

/-- Source: `deque_lace.hpp`, `lace_deque::size` -/
def size (d : LaceDeque α) : BitVec 64 := BitVec.ofInt 64 d.ssize

/-- Source: `deque_lace.hpp`, `lace_deque::empty` -/
def empty (d : LaceDeque α) : Bool :=
  if d.mAllstolen then true
  else
    let v := unpack d.mTopSplit
    let bot := d.mBottom
    v.top ≥ bot

end LaceDeque

/-! ## What the owner has published -/

/-- `m_allstolen` is the owner's copy of it, which lags behind while `push` shares an item. -/
def OwnerPc.Flag (allstolen oAllstolen : Bool) : OwnerPc α → Prop
  | .pushCheck _ | .pushClear _ => allstolen = false
  | _ => allstolen = oAllstolen

/-- What others read of the owner's copies. -/
structure Published (d : LaceDeque α) (pc : OwnerPc α) : Prop where
  bottom : d.mBottom = d.bot
  flag : pc.Flag d.mAllstolen d.mWorker.oAllstolen

/-- An owner that returns leaves what is published right. -/
theorem published_ret (h : Published s.deque .idle) (r : Resume α) :
    Published (ret s r).deque (ret s r).owner := by
  cases r with
  | push => exact ⟨h.bottom, h.flag⟩
  | pop k i v => exact h

/-- So does one that grows the shared part. -/
theorem published_growCall (h : Published s.deque .idle) (r : Resume α) :
    Published (growCall s r).deque (growCall s r).owner := by
  unfold growCall
  simp only
  split
  · exact published_ret h r
  · exact ⟨h.bottom, h.flag⟩

/-- So does one that pops. -/
theorem published_popCall (h : Published s.deque s.owner) (hidle : s.owner = .idle) :
    Published (popCall s).deque (popCall s).owner := by
  rw [hidle] at h
  unfold popCall
  simp only
  split
  · exact ⟨rfl, h.flag⟩
  · split
    · rw [hidle]
      exact h
    · split
      · exact ⟨h.bottom, h.flag⟩
      · exact ⟨h.bottom, h.flag⟩

/-- An access of the owner. -/
theorem published_ownerStep (h : Published s.deque s.owner) (hl : Level cap s) {s' : State α}
    (hs : ownerStep cap s = some s') : Published s'.deque s'.owner := by
  have harith := hl.arith
  obtain ⟨hbottom, hflag⟩ := h
  unfold ownerStep at hs
  cases hpc : s.owner with
  | idle =>
      rw [hpc] at hs
      cases hs
  | pushWord bot =>
      rw [hpc] at hs hflag
      cases hs
      exact ⟨hbottom, hflag⟩
  | pushFlag bot =>
      rw [hpc] at hs
      cases hs
      exact ⟨hbottom, rfl⟩
  | pushCheck bot =>
      rw [hpc] at hs hflag
      simp only at hs
      split at hs <;> cases hs <;> exact ⟨hbottom, hflag⟩
  | pushClear bot =>
      rw [hpc] at hs hflag
      cases hs
      exact ⟨hbottom, hflag⟩
  | pushReq =>
      rw [hpc] at hs hflag
      simp only at hs
      split at hs
      · cases hs
        exact published_growCall ⟨hbottom, hflag⟩ _
      · cases hs
        exact ⟨hbottom, hflag⟩
  | pushPublish =>
      rw [hpc] at hs hflag
      cases hs
      exact ⟨rfl, hflag⟩
  | growAdd diff newSplit r =>
      -- nothing is all stolen while there is a shared part to grow
      rw [hpc] at hs hflag harith
      simp only at hs
      generalize s.deque.mTopSplit + onSplit diff = word at hs
      cases hs
      exact ⟨hbottom, hflag.trans harith.1.flag⟩
  | growFlag r =>
      rw [hpc] at hs harith
      cases hs
      exact ⟨hbottom, harith.flag.symm⟩
  | growClear r =>
      rw [hpc] at hs hflag
      cases hs
      apply published_ret
      exact ⟨hbottom, hflag⟩
  | popRead k =>
      rw [hpc] at hs hflag
      cases hs
      exact ⟨hbottom, hflag⟩
  | popReq k i v =>
      rw [hpc] at hs hflag
      simp only at hs
      split at hs
      · cases hs
        exact published_growCall ⟨hbottom, hflag⟩ _
      · cases hs
        exact published_ret ⟨hbottom, hflag⟩ _
  | shrinkSub top split =>
      rw [hpc] at hs hflag
      simp only at hs
      generalize s.deque.mTopSplit - _ = word at hs
      cases hs
      exact ⟨hbottom, hflag⟩
  | shrinkFresh split newSplit =>
      rw [hpc] at hs hflag
      simp only at hs
      split at hs
      · split at hs <;> cases hs <;> exact ⟨hbottom, hflag⟩
      · cases hs
        exact ⟨hbottom, hflag⟩
  | shrinkFix corrected correction =>
      rw [hpc] at hs hflag
      simp only at hs
      generalize s.deque.mTopSplit + onSplit correction = word at hs
      cases hs
      exact ⟨hbottom, hflag⟩
  | shrinkEmpty =>
      rw [hpc] at hs
      cases hs
      exact ⟨hbottom, rfl⟩
  | coldPublish =>
      rw [hpc] at hs hflag
      cases hs
      exact ⟨rfl, hflag⟩
  | coldRead k =>
      rw [hpc] at hs hflag
      cases hs
      exact ⟨hbottom, hflag⟩

/-- A thief touches neither `m_bottom` nor `m_allstolen`. -/
theorem published_thiefStep (h : Published s.deque s.owner) (n : ℕ) :
    Published (thiefStep cap s n).deque (thiefStep cap s n).owner := by
  unfold thiefStep
  simp only
  split
  · split <;> exact h
  · split <;> exact h
  · split
    · exact ⟨h.bottom, h.flag⟩
    · exact h
  · exact h
  · exact ⟨h.bottom, h.flag⟩

/-- One step of any thread. -/
theorem published_step (h : Published s.deque s.owner) (hl : Level cap s) {a : Act α}
    {s' : State α} (hs : (machine cap).step s a = some s') : Published s'.deque s'.owner := by
  unfold machine at hs
  cases a with
  | push v =>
      simp only at hs
      split at hs
      · rename_i hidle
        cases hs
        rw [hidle] at h
        refine ⟨h.bottom, ?_⟩
        unfold pushCall
        simp only
        split <;> exact h.flag
      · cases hs
  | pop =>
      simp only at hs
      split at hs
      · rename_i hidle
        cases hs
        exact published_popCall h hidle
      · cases hs
  | owner => exact published_ownerStep h hl hs
  | thief n =>
      cases hs
      exact published_thiefStep h n

/-! ## Nothing in flight -/

/-- No call is in progress. -/
structure Quiescent (s : State α) : Prop where
  owner : s.owner = .idle
  thieves : ∀ n, s.thief n = .idle

/-- Nobody holds an item between the calls. -/
theorem Quiescent.holds (h : Quiescent s) (c : Thread) : s.holds c = none := by
  cases c with
  | owner =>
      unfold State.holds
      rw [h.owner]
      rfl
  | thief n =>
      change (s.thief n).holds = none
      rw [h.thieves n]
      rfl

/-- The number of items that are pushed and not returned. -/
def remaining (log : List (Event ℕ α Thread)) : ℤ :=
  (pushes log).length - (deliveries log).length

/-- What is held lies between top and bottom. -/
theorem remaining_eq (h : RingInv cap s) (hq : Quiescent s) :
    s.top + remaining s.log = s.deque.mWorker.bottom.toNat ∧ 0 ≤ remaining s.log := by
  have hlen := h.ideal.length_deliveries hq.holds
  have hback := back_of_not_inPush (s := s) (by rw [hq.owner]; rfl)
  have hle := h.inSlots.level.top_le_back
  have hheld : (occurrences s.occ s.top s.back).length = s.back - s.top := by
    simp [occurrences]
  unfold remaining
  constructor <;> omega

/-- `ssize()` subtracts the top from the published bottom. -/
theorem ssize_eq {d : LaceDeque α} {n : ℕ}
    (h : (unpack d.mTopSplit).top.toNat + n = d.mBottom.toNat) : d.ssize = n := by
  unfold LaceDeque.ssize
  simp only [BitVec.le_def]
  split
  · omega
  · rw [BitVec.toNat_sub_of_le (by rw [BitVec.le_def]; omega)]
    omega

/-- What the owner has published, in every state of every run that respects the capacity. -/
theorem published_run {mem : ℤ → α} {as : List (Act α)}
    (h : (machine cap).Run (Room cap) (State.new mem) as s) :
    Published s.deque s.owner := by
  refine (h.invariant (P := fun t => (RingInv cap t ∧ Flat cap t) ∧ Published t.deque t.owner)
    ?_ ⟨⟨ringInv_new cap mem, flat_new cap mem⟩, rfl, rfl⟩).2
  rintro t a t' ⟨hring, hpub⟩ hroom hs
  exact ⟨room_step hring hroom hs, published_step hpub hring.1.inSlots.level hs⟩

/-- **`size`, `ssize` and `empty` are exact when nothing is in flight**, under every interleaving
in which no `push` starts with `bottom` at the capacity or beyond. -/
theorem size_of_run (cap : Capacity) (mem : ℤ → α) (as : List (Act α)) (t : State α)
    (h : (machine cap).Run (Room cap) (State.new mem) as t) (hq : Quiescent t) :
    t.deque.ssize = remaining t.log ∧
      (t.deque.size.toNat : ℤ) = remaining t.log ∧
      (t.deque.empty = true ↔ remaining t.log = 0) := by
  obtain ⟨hring, hflat⟩ := flat_run h
  have hpub := published_run h
  have hl := hring.inSlots.level
  obtain ⟨hrem, hnonneg⟩ := remaining_eq hring hq
  obtain ⟨n, hn⟩ := Int.eq_ofNat_of_zero_le hnonneg
  rw [hn] at hrem ⊢
  have hback := back_of_not_inPush (s := t) (by rw [hq.owner]; rfl)
  have hle := hflat.back_le
  have hcap := cap.val_le
  have hbottom : t.deque.mBottom.toNat = t.deque.mWorker.bottom.toNat := by
    rw [hpub.bottom]
    exact toNat_ofInt_of_lt hl.bottom_nonneg (by omega)
  have htop : (unpack t.deque.mTopSplit).top.toNat = t.top := rfl
  have hssize : t.deque.ssize = n := ssize_eq (by omega)
  refine ⟨hssize, ?_, ?_⟩
  · unfold LaceDeque.size
    rw [hssize, BitVec.toNat_ofInt]
    omega
  · have hflag := hpub.flag
    have harith := hl.arith
    rw [hq.owner] at hflag harith
    unfold LaceDeque.empty
    split
    · rename_i hall
      rcases harith with hparted | ⟨hdrained, -⟩
      · rw [hflag, hparted.flag] at hall
        cases hall
      · have hbot := hdrained.bottom
        simp only [true_iff]
        omega
    · simp only [decide_eq_true_eq, ge_iff_le, BitVec.le_def]
      omega

/-- One thief has stolen the shared item, and another one has asked for the private one. -/
theorem size_of_run_requested :
    ∃ t : State ℕ, (machine twoSlots).Run (Room twoSlots) (State.new fun _ => 0)
        [.push 7, .owner, .owner, .owner, .owner, .push 8, .owner, .owner, .thief 0, .thief 0,
          .thief 0, .thief 0, .thief 1, .thief 1, .thief 1] t ∧
      Quiescent t ∧ t.deque.mSplitreq = true ∧ remaining t.log = 1 ∧
      t.deque.ssize = 1 ∧ t.deque.size.toNat = 1 ∧ t.deque.empty = false := by
  have hrun : ∃ t : State ℕ, (machine twoSlots).Run (Room twoSlots) (State.new fun _ => 0)
      [.push 7, .owner, .owner, .owner, .owner, .push 8, .owner, .owner, .thief 0, .thief 0,
        .thief 0, .thief 0, .thief 1, .thief 1, .thief 1] t ∧ t.owner = .idle ∧
      (∀ n, t.thief n = .idle) ∧ t.deque.mSplitreq = true ∧ remaining t.log = 1 := by
    refine ⟨_, ⟨(by decide), _, rfl, trivial, _, rfl, trivial, _, rfl, trivial, _, rfl, trivial, _,
      rfl, (by decide), _, rfl, trivial, _, rfl, trivial, _, rfl, trivial, _, rfl, trivial, _,
      rfl, trivial, _, rfl, trivial, _, rfl, trivial, _, rfl, trivial, _, rfl, trivial, _, rfl,
      rfl⟩, rfl, ?_, rfl, rfl⟩
    rintro (_ | _ | n) <;> rfl
  obtain ⟨t, hrun, howner, hthieves, hrequest, hone⟩ := hrun
  obtain ⟨hssize, hsize, hempty⟩ := size_of_run _ _ _ t hrun ⟨howner, hthieves⟩
  rw [hone] at hssize hsize hempty
  exact ⟨t, hrun, ⟨howner, hthieves⟩, hrequest, hone, hssize, Int.ofNat.inj hsize,
    Bool.eq_false_iff.mpr fun h => absurd (hempty.mp h) (by decide)⟩

end Libfork.Deque.Lace
