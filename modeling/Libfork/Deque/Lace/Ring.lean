import Libfork.Deque.Lace.Level
import Libfork.Found.Ring

/-!
# The slots of `lace_deque` under every interleaving

The item of the index `i` is in the slot `i % capacity`, for as long as it is held, and for as
long as a thief that has claimed it has not read it.

* `Slots` — where the items are; **`slots_step`**: every step of every thread keeps it, if it
  meets `Held`, `Indices` and `Spares`.
* `RingInv` — what the owner has claimed as well, and the ideal deque that the log is one of;
  **`ring_step`**: every step keeps it, if it meets `FastFits` too.
* `slots_run`, `ring_run` — the invariants of every run.

Source: `deque_lace.hpp`, `push`, `pop`, `steal`, `mask_index`.
-/

namespace Libfork.Deque.Lace

open Libfork.Found

variable {α : Type} {cap : Capacity} {s : State α}

/-! ## Who holds what after a step -/

/-- What the owner holds is what it stands for. -/
theorem holds_owner (pc : OwnerPc α) (d : LaceDeque α) (occ : ℕ → ℕ)
    (log : List (Event ℕ α Thread)) :
    State.holds { s with deque := d, owner := pc, occ := occ, log := log } =
      Function.update s.holds .owner pc.holds := by
  funext c
  cases c with
  | owner => rw [Function.update_self]; rfl
  | thief n => rw [Function.update_of_ne (by simp)]; rfl

/-- What a thief holds is what it stands for. -/
theorem holds_thief (n : ℕ) (pc : ThiefPc) (d : LaceDeque α) (occ : ℕ → ℕ)
    (log : List (Event ℕ α Thread)) :
    State.holds { s with
      deque := d, thief := Function.update s.thief n pc, occ := occ, log := log } =
      Function.update s.holds (.thief n) pc.holds := by
  funext c
  cases c with
  | owner => rw [Function.update_of_ne (by simp)]; rfl
  | thief m =>
      by_cases h : m = n
      · subst h
        rw [Function.update_self]
        simp [State.holds]
      · rw [Function.update_of_ne (by simpa using h)]
        simp [State.holds, Function.update_of_ne h]

/-- A step of the owner that leaves what it holds. -/
theorem holds_owner_same {pc : OwnerPc α} (hholds : pc.holds = s.owner.holds)
    (d : LaceDeque α) (occ : ℕ → ℕ) (log : List (Event ℕ α Thread)) :
    State.holds { s with deque := d, owner := pc, occ := occ, log := log } = s.holds := by
  rw [holds_owner pc d occ log, hholds]
  exact Function.update_eq_self Thread.owner s.holds

/-- A step of a thief that leaves what it holds. -/
theorem holds_thief_same {n : ℕ} {pc : ThiefPc} (hholds : pc.holds = (s.thief n).holds)
    (d : LaceDeque α) (occ : ℕ → ℕ) (log : List (Event ℕ α Thread)) :
    State.holds { s with
      deque := d, thief := Function.update s.thief n pc, occ := occ, log := log } = s.holds := by
  rw [holds_thief n pc d occ log, hholds]
  exact Function.update_eq_self (Thread.thief n) s.holds

/-! ## The invariants -/

/-- The thief `n` has claimed the occurrence `k` at the index `top`, and its item is in its
slot. -/
structure Awaits (cap : Capacity) (log : List (Event ℕ α Thread)) (mem : ℤ → α) (n : ℕ)
    (top : BitVec 32) (k : ℕ) : Prop where
  slot : (pushes log)[k]? = some (top.toNat, mem (top.toNat % cap.val : ℕ))
  last : lastOf (.thief n) log = some (.claim (.thief n) k)

/-- A `steal` returns the value pushed at the index it claimed. -/
def Stolen (pre : List (Event ℕ α Thread)) : Event ℕ α Thread → Prop
  | .deliver (.thief n) k i v =>
      (pushes pre)[k]? = some (i, v) ∧ lastOf (.thief n) pre = some (.claim (.thief n) k)
  | _ => True

/-- Where the items are. -/
structure Slots (cap : Capacity) (s : State α) : Prop where
  level : Level cap s
  slots : ∀ i, s.top ≤ i → i < s.back →
    (pushes s.log)[s.occ i]? = some (i, s.deque.mArray (i % cap.val : ℕ))
  reads : ∀ n top k, s.thief n = .read top k → Awaits cap s.log s.deque.mArray n top k
  stolen : AllJustified Stolen s.log

/-- Where the items are, who holds them, and that all goes by the ideal deque. -/
structure RingInv (cap : Capacity) (s : State α) : Prop where
  inSlots : Slots cap s
  item : s.RingItem cap (pushes s.log)
  ideal : Ideal Thread.side s.log (occurrences s.occ s.top s.back) s.holds

/-- The indices stay below `2 ^ 32`. -/
def Indices (s : State α) : Act α → Prop
  | .push _ => s.deque.mWorker.bottom + 1 < 2 ^ 32
  | _ => True

/-- No `push` changes the slot of an item that a thief has claimed and not read yet. -/
def Spares (cap : Capacity) (s : State α) : Act α → Prop
  | .push v => ∀ n top k, s.thief n = .read top k →
      maskIndex cap top.toNat = maskIndex cap s.deque.bot.toNat →
        s.deque.mArray (maskIndex cap top.toNat) = v
  | _ => True

/-- The fast path of `pop`, which does not mask its index, stays inside the slots. -/
def FastFits (cap : Capacity) (s : State α) : Act α → Prop
  | .pop => s.deque.mWorker.bottom > s.deque.mWorker.osplit → s.deque.mWorker.bottom ≤ cap.val
  | _ => True

/-! ## Rules -/

/-- An event of another thread does not matter to a thief that has claimed an item. -/
theorem Awaits.snoc {log : List (Event ℕ α Thread)} {mem : ℤ → α} {n k : ℕ} {top : BitVec 32}
    (h : Awaits cap log mem n top k) {e : Event ℕ α Thread} (he : e.caller ≠ some (.thief n)) :
    Awaits cap (log ++ [e]) mem n top k := by
  constructor
  · exact pushes_snoc_of_some log e h.slot
  · rw [lastOf_snoc_of_ne _ he]
    exact h.last

/-- A step of the owner that writes no slot, and logs at most one event of its own. -/
theorem Slots.grow (h : Slots cap s) {s' : State α} (hl : Level cap s')
    (hmem : s'.deque.mArray = s.deque.mArray) (hthief : s'.thief = s.thief)
    (hocc : s'.occ = s.occ) (htop : s'.top = s.top) (hback : s'.back ≤ s.back)
    (hlog : s'.log = s.log ∨
      ∃ e, s'.log = s.log ++ [e] ∧ (∀ n, e.caller ≠ some (.thief n)) ∧ Stolen s.log e) :
    Slots cap s' := by
  constructor
  case level => exact hl
  case slots =>
    rw [hmem, hocc, htop]
    intro i hi hib
    have hslot := h.slots i hi (Nat.lt_of_lt_of_le hib hback)
    rcases hlog with hlog | ⟨e, hlog, -⟩
    · rw [hlog]
      exact hslot
    · rw [hlog]
      exact pushes_snoc_of_some s.log e hslot
  case reads =>
    rw [hmem, hthief]
    intro n top k hn
    rcases hlog with hlog | ⟨e, hlog, hcaller, -⟩
    · rw [hlog]
      exact h.reads n top k hn
    · rw [hlog]
      exact (h.reads n top k hn).snoc (hcaller n)
  case stolen =>
    rcases hlog with hlog | ⟨e, hlog, -, he⟩
    · rw [hlog]
      exact h.stolen
    · rw [hlog]
      exact allJustified_snoc h.stolen he

/-! ## Steps of the owner -/

/-- What a step of the owner does to the items leaves them where they are. -/
theorem slots_effect (h : Slots cap s) {s' : State α} (hl : Level cap s')
    (he : Effect cap s s') : Slots cap s' := by
  cases he with
  | quiet d pc hmem htop hback hholds hitem =>
      refine h.grow hl hmem rfl rfl ?_ (Nat.le_of_eq hback) (Or.inl rfl)
      simp only [State.top, htop]
  | claim i pc hpc hnone hback htop =>
      have hback' : State.back { s with
          deque := s.deque.publish i, owner := pc, log := s.log ++ [.claim .owner (s.occ i)] } =
          i := by
        rw [back_of_not_inPush (by rcases hpc with rfl | rfl <;> rfl)]
        rfl
      refine h.grow hl rfl rfl rfl rfl ?_ (Or.inr ⟨_, rfl, ?_, trivial⟩)
      · rw [hback']
        omega
      · simp [Event.caller]
  | deliver d k i v hmem htop hback hholds hitem =>
      refine h.grow hl hmem rfl rfl ?_ (Nat.le_of_eq hback) (Or.inr ⟨_, rfl, ?_, trivial⟩)
      · simp only [State.top, htop]
      · simp [Event.caller]
  | empty d hmem htop hback hnone hempty =>
      refine h.grow hl hmem rfl rfl ?_ (Nat.le_of_eq hback) (Or.inr ⟨_, rfl, ?_, trivial⟩)
      · simp only [State.top, htop]
      · simp [Event.caller]

/-- What a step of the owner does to the items goes by the ideal deque. -/
theorem ring_effect (h : RingInv cap s) {s' : State α} (hl : Level cap s') (he : Effect cap s s')
    (hfast : ∀ k, s'.owner = .popRead k → s'.deque.mWorker.bottom < cap.val) :
    RingInv cap s' := by
  refine ⟨slots_effect h.inSlots hl he, ?_, ?_⟩
  case refine_1 =>
    cases he with
    | quiet d pc hmem htop hback hholds hitem => exact hitem _ h.item
    | claim i pc hpc hnone hback htop =>
        have hpushed := pushes_snoc_of_some s.log (.claim .owner (s.occ i))
          (h.inSlots.slots i htop (by omega))
        rcases hpc with rfl | rfl
        · have hlt : (i : ℤ) < cap.val := hfast _ rfl
          rw [Nat.mod_eq_of_lt (Int.ofNat_lt.mp hlt)] at hpushed
          exact ⟨hlt, hpushed⟩
        · exact hpushed
    | deliver d k i v hmem htop hback hholds hitem => trivial
    | empty d hmem htop hback hnone hempty => trivial
  case refine_2 =>
    have hideal := h.ideal
    cases he with
    | quiet d pc hmem htop hback hholds hitem =>
        have htop' : State.top { s with deque := d, owner := pc } = s.top := by
          simp only [State.top, htop]
        have hback' : State.back { s with deque := d, owner := pc } = s.back := hback
        have hholds' : State.holds { s with deque := d, owner := pc } = s.holds :=
          holds_owner_same hholds d s.occ s.log
        rw [htop', hback', hholds']
        exact hideal
    | claim i pc hpc hnone hback htop =>
        have hpc' : pc.inPush = false ∧ pc.holds = some (s.occ i) := by
          rcases hpc with rfl | rfl <;> exact ⟨rfl, rfl⟩
        have hback' : State.back { s with
            deque := s.deque.publish i, owner := pc
            log := s.log ++ [.claim .owner (s.occ i)] } = i := by
          rw [back_of_not_inPush hpc'.1]
          rfl
        have hholds' : State.holds { s with
            deque := s.deque.publish i, owner := pc
            log := s.log ++ [.claim .owner (s.occ i)] } =
            Function.update s.holds .owner (some (s.occ i)) := by
          rw [holds_owner pc _ s.occ, hpc'.2]
        rw [hback, occurrences_back s.occ htop] at hideal
        rw [hback', hholds']
        exact hideal.claimBack Thread.owner rfl hnone
    | deliver d k i v hmem htop hback hholds hitem =>
        have htop' : State.top { s with
            deque := d, owner := .idle, log := s.log ++ [.deliver .owner k i v] } = s.top := by
          simp only [State.top, htop]
        have hback' : State.back { s with
            deque := d, owner := .idle, log := s.log ++ [.deliver .owner k i v] } = s.back :=
          hback
        have hholds' : State.holds { s with
            deque := d, owner := .idle, log := s.log ++ [.deliver .owner k i v] } =
            Function.update s.holds .owner none :=
          holds_owner .idle d s.occ _
        rw [htop', hback', hholds']
        exact hideal.deliver Thread.owner hholds (hitem _ h.item)
    | empty d hmem htop hback hnone hempty =>
        have htop' : State.top { s with
            deque := d, owner := .idle, log := s.log ++ [.empty] } = s.top := by
          simp only [State.top, htop]
        have hback' : State.back { s with
            deque := d, owner := .idle, log := s.log ++ [.empty] } = s.back := hback
        have hholds' : State.holds { s with
            deque := d, owner := .idle, log := s.log ++ [.empty] } = s.holds :=
          holds_owner_same (show OwnerPc.holds .idle = _ from hnone.symm) d s.occ _
        rw [htop', hback', hholds']
        rw [occurrences_empty s.occ (Nat.le_of_eq hempty)] at hideal ⊢
        exact hideal.empty

/-- The owner enters the fast path of `pop` in a call only. -/
theorem not_popRead_of_ownerStep {s' : State α} (hs : ownerStep cap s = some s') (k : ℕ) :
    s'.owner ≠ .popRead k := by
  have hret : ∀ (t : State α) r, (ret t r).owner ≠ .popRead k := by
    intro t r
    cases r <;> simp [ret]
  have hgrow : ∀ (t : State α) r, (growCall t r).owner ≠ .popRead k := by
    intro t r
    unfold growCall
    simp only
    split
    · exact hret t r
    · simp
  unfold ownerStep at hs
  cases hpc : s.owner with
  | idle =>
      rw [hpc] at hs
      cases hs
  | pushCheck bot =>
      rw [hpc] at hs
      simp only at hs
      split at hs <;> cases hs <;> simp
  | pushReq =>
      rw [hpc] at hs
      simp only at hs
      split at hs <;> cases hs
      · exact hgrow s .push
      · simp
  | growClear r =>
      rw [hpc] at hs
      cases hs
      exact hret _ r
  | popReq k i v =>
      rw [hpc] at hs
      simp only at hs
      split at hs <;> cases hs
      · exact hgrow s _
      · exact hret s _
  | shrinkFresh split newSplit =>
      rw [hpc] at hs
      simp only at hs
      split at hs
      · split at hs <;> cases hs <;> simp
      · cases hs
        simp
  | _ =>
      rw [hpc] at hs
      cases hs
      simp

/-- `pop` enters its fast path inside the slots. -/
theorem popRead_of_popCall (hidle : s.owner = .idle) (hfast : FastFits cap s .pop) (k : ℕ)
    (hk : (popCall s).owner = .popRead k) : (popCall s).deque.mWorker.bottom < cap.val := by
  unfold popCall at hk ⊢
  simp only at hk ⊢
  by_cases hgt : s.deque.mWorker.bottom > s.deque.mWorker.osplit
  · rw [if_pos hgt]
    change s.deque.mWorker.bottom - 1 < cap.val
    have hle := hfast hgt
    omega
  · rw [if_neg hgt] at hk
    split at hk
    · rw [hidle] at hk
      cases hk
    · simp only at hk
      split at hk <;> cases hk

/-! ### `push` -/

section pushCall

variable (v : α)

/-- The bottom as a 32-bit index. -/
theorem toNat_bot (h : Level cap s) (hidle : s.owner = .idle)
    (hlt : s.deque.mWorker.bottom + 1 < 2 ^ 32) : s.deque.bot.toNat = s.back := by
  have hnn := h.bottom_nonneg
  rw [back_of_not_inPush (by rw [hidle]; rfl)]
  exact toNat_ofInt_of_lt hnn (by omega)

/-- A push is one more item. -/
theorem back_pushCall (hidle : s.owner = .idle) : (pushCall cap s v).back = s.back + 1 := by
  rw [back_of_inPush, back_of_not_inPush (s := s) (by rw [hidle]; rfl)]
  · rfl
  · unfold pushCall
    simp only
    split <;> rfl

/-- It holds no item that was pushed before. -/
theorem holds_pushCall (hidle : s.owner = .idle) : (pushCall cap s v).holds = s.holds := by
  refine holds_owner_same ?_ _ _ _
  rw [hidle]
  split <;> rfl

/-- `push` writes the slot of the back. -/
theorem slots_pushCall (h : Slots cap s) (hidle : s.owner = .idle)
    (hheld : pending s.log < cap.val) (hlt : s.deque.mWorker.bottom + 1 < 2 ^ 32)
    (hspare : Spares cap s (.push v)) : Slots cap (pushCall cap s v) := by
  have hpend := h.level.pending_eq
  have htop := h.level.top_le_back
  have hbot := toNat_bot h.level hidle hlt
  have hslot : maskIndex cap s.deque.bot.toNat = s.back % cap.val := by
    rw [hbot]
    exact maskIndex_eq_mod cap _
  have hlog : (pushCall cap s v).log = s.log ++ [.push s.back v] := by
    change s.log ++ [.push s.deque.bot.toNat v] = _
    rw [hbot]
  have hmem : ∀ j : ℕ, j ≠ s.back % cap.val →
      (pushCall cap s v).deque.mArray j = s.deque.mArray j := by
    intro j hj
    change Function.update s.deque.mArray _ v (j : ℤ) = _
    rw [hslot, Function.update_of_ne (by omega)]
  have hnew : (pushCall cap s v).deque.mArray (s.back % cap.val : ℕ) = v := by
    change Function.update s.deque.mArray _ v _ = _
    rw [hslot, Function.update_self]
  constructor
  case level => exact level_pushCall h.level hidle v hheld fun _ => by omega
  case slots =>
    rw [back_pushCall v hidle, hlog]
    change ∀ i, s.top ≤ i → i < s.back + 1 →
      _[Function.update s.occ s.deque.bot.toNat (pushes s.log).length i]? = _
    rw [hbot]
    intro i hi hib
    by_cases hlast : i = s.back
    · subst hlast
      rw [Function.update_self, hnew]
      exact pushes_push_last s.log s.back v
    · rw [Function.update_of_ne hlast, hmem _ (mod_ne_of_lt_add (by omega) (by omega))]
      exact pushes_snoc_of_some s.log _ (h.slots i hi (by omega))
  case reads =>
    intro n top k hn
    have hread : Awaits cap (s.log ++ [.push s.back v]) s.deque.mArray n top k :=
      (h.reads n top k hn).snoc (by simp [Event.caller])
    rw [hlog]
    refine ⟨?_, hread.last⟩
    by_cases hsame : top.toNat % cap.val = s.back % cap.val
    · have hv := hspare n top k hn (by rw [hslot, maskIndex_eq_mod cap, hsame])
      rw [maskIndex_eq_mod cap] at hv
      have hkept := hread.slot
      rw [hv] at hkept
      rw [hsame, hnew]
      exact hkept
    · rw [hmem _ hsame]
      exact hread.slot
  case stolen =>
    rw [hlog]
    exact allJustified_snoc h.stolen trivial

/-- `push` adds the newest item. -/
theorem ring_pushCall (h : RingInv cap s) (hidle : s.owner = .idle)
    (hheld : pending s.log < cap.val) (hlt : s.deque.mWorker.bottom + 1 < 2 ^ 32)
    (hspare : Spares cap s (.push v)) : RingInv cap (pushCall cap s v) := by
  refine ⟨slots_pushCall v h.inSlots hidle hheld hlt hspare, ?_, ?_⟩
  · change OwnerPc.RingItem cap _ _ _
      (if s.deque.mWorker.oAllstolen = true then .pushWord s.deque.bot else .pushReq)
    split <;> trivial
  · rw [back_pushCall v hidle, holds_pushCall v hidle]
    change Ideal Thread.side (s.log ++ [.push s.deque.bot.toNat v])
      (occurrences (Function.update s.occ s.deque.bot.toNat (pushes s.log).length) s.top _) s.holds
    rw [toNat_bot h.inSlots.level hidle hlt, occurrences_push s.occ h.inSlots.level.top_le_back]
    exact h.ideal.push s.back v

end pushCall

/-! ## Steps of the thieves -/

/-- What a step of a thief does to the items. -/
inductive ThiefEffect (cap : Capacity) (s : State α) (n : ℕ) : State α → Prop
  /-- Nothing. -/
  | quiet (d : LaceDeque α) (pc : ThiefPc) (hmem : d.mArray = s.deque.mArray)
      (hword : d.mTopSplit = s.deque.mTopSplit) (hworker : d.mWorker = s.deque.mWorker)
      (hholds : pc.holds = (s.thief n).holds) (hread : ∀ top k, pc ≠ .read top k) :
      ThiefEffect cap s n { s with deque := d, thief := Function.update s.thief n pc }
  /-- A `steal` claims the first item. -/
  | claim (hnone : (s.thief n).holds = none) (hlt : s.top < s.split) :
      ThiefEffect cap s n { s with
        deque :=
          { s.deque with
            mTopSplit :=
              pack ((unpack s.deque.mTopSplit).top + 1) (unpack s.deque.mTopSplit).split }
        thief := Function.update s.thief n (.read (unpack s.deque.mTopSplit).top (s.occ s.top))
        log := s.log ++ [.claim (.thief n) (s.occ s.top)] }
  /-- A `steal` returns what it reads from the slot it claimed. -/
  | deliver (top : BitVec 32) (k : ℕ) (hpc : s.thief n = .read top k) :
      ThiefEffect cap s n { s with
        thief := Function.update s.thief n .idle
        log := s.log ++
          [.deliver (.thief n) k top.toNat (s.deque.mArray (top.toNat % cap.val : ℕ))] }

/-- One access of a thief. -/
theorem thiefEffect_of_thiefStep (h : Level cap s) (n : ℕ) :
    ThiefEffect cap s n (thiefStep cap s n) := by
  unfold thiefStep
  cases hpc : s.thief n with
  | idle =>
      simp only
      split
      · have hquiet : ThiefEffect cap s n { s with
            deque := s.deque, thief := Function.update s.thief n .idle } :=
          .quiet s.deque .idle rfl rfl rfl (by rw [hpc]) (by simp)
        rw [← hpc, Function.update_eq_self] at hquiet
        exact hquiet
      · exact .quiet s.deque .load rfl rfl rfl (by rw [hpc]; rfl) (by simp)
  | load =>
      simp only
      split
      · exact .quiet s.deque _ rfl rfl rfl (by rw [hpc]; rfl) (by simp)
      · exact .quiet s.deque _ rfl rfl rfl (by rw [hpc]; rfl) (by simp)
  | exchange v =>
      simp only
      split
      · rename_i hv
        subst hv
        exact .claim (by rw [hpc]; rfl) (h.thieves n _ hpc)
      · exact .quiet s.deque _ rfl rfl rfl (by rw [hpc]; rfl) (by simp)
  | read top k =>
      simp only
      rw [maskIndex_eq_mod cap]
      exact .deliver top k hpc
  | request => exact .quiet _ _ rfl rfl rfl (by rw [hpc]; rfl) (by simp)

/-- What a step of a thief does to the items leaves the others where they are. -/
theorem slots_thiefEffect (h : Slots cap s) {n : ℕ} {s' : State α} (hl : Level cap s')
    (he : ThiefEffect cap s n s') : Slots cap s' := by
  cases he with
  | quiet d pc hmem hword hworker hholds hread =>
      have htop' : State.top { s with deque := d, thief := Function.update s.thief n pc } =
          s.top := by
        simp only [State.top, hword]
      have hback' : State.back { s with deque := d, thief := Function.update s.thief n pc } =
          s.back := by
        simp only [State.back, hworker]
      constructor
      case level => exact hl
      case slots =>
        rw [htop', hback']
        change ∀ i, s.top ≤ i → i < s.back → (pushes s.log)[s.occ i]? = some (i, d.mArray _)
        rw [hmem]
        exact h.slots
      case reads =>
        intro m top k hm
        change Awaits cap s.log d.mArray m top k
        rw [hmem]
        change Function.update s.thief n pc m = .read top k at hm
        by_cases hmn : m = n
        · subst hmn
          rw [Function.update_self] at hm
          exact absurd hm (hread top k)
        · rw [Function.update_of_ne hmn] at hm
          exact h.reads m top k hm
      case stolen => exact h.stolen
  | claim hnone hlt =>
      have hle := h.level.split_le_back
      constructor
      case level => exact hl
      case slots =>
        change ∀ i, (unpack (pack _ _)).top.toNat ≤ i → i < s.back → _
        rw [unpack_pack, top_succ hlt]
        intro i hi hib
        exact pushes_snoc_of_some s.log _ (h.slots i (Nat.le_of_succ_le hi) hib)
      case reads =>
        intro m top k hm
        change Function.update s.thief n _ m = .read top k at hm
        by_cases hmn : m = n
        · subst hmn
          rw [Function.update_self] at hm
          cases hm
          constructor
          · exact pushes_snoc_of_some s.log _ (h.slots s.top (Nat.le_refl _) (by omega))
          · exact lastOf_snoc_self s.log rfl
        · rw [Function.update_of_ne hmn] at hm
          refine (h.reads m top k hm).snoc ?_
          simpa [Event.caller] using Ne.symm hmn
      case stolen => exact allJustified_snoc h.stolen trivial
  | deliver top k hpc =>
      have hread := h.reads n top k hpc
      constructor
      case level => exact hl
      case slots =>
        intro i hi hib
        exact pushes_snoc_of_some s.log _ (h.slots i hi hib)
      case reads =>
        intro m top' k' hm
        change Function.update s.thief n _ m = .read top' k' at hm
        by_cases hmn : m = n
        · subst hmn
          rw [Function.update_self] at hm
          cases hm
        · rw [Function.update_of_ne hmn] at hm
          refine (h.reads m top' k' hm).snoc ?_
          simpa [Event.caller] using Ne.symm hmn
      case stolen => exact allJustified_snoc h.stolen ⟨hread.slot, hread.last⟩

/-- What a step of a thief does to the items goes by the ideal deque. -/
theorem ring_thiefEffect (h : RingInv cap s) {n : ℕ} {s' : State α} (hl : Level cap s')
    (he : ThiefEffect cap s n s') : RingInv cap s' := by
  refine ⟨slots_thiefEffect h.inSlots hl he, ?_, ?_⟩
  case refine_1 =>
    have hsame : ∀ e : Event ℕ α Thread, e.pushed = none →
        pushes (s.log ++ [e]) = pushes s.log := by
      intro e he
      simp [he]
    cases he with
    | quiet d pc hmem hword hworker hholds hread =>
        change s.owner.RingItem cap _ d.mArray d.mWorker.bottom
        rw [hmem, hworker]
        exact h.item
    | claim hnone hlt =>
        change s.owner.RingItem cap (pushes (s.log ++ [_])) _ _
        rw [hsame _ rfl]
        exact h.item
    | deliver top k hpc =>
        change s.owner.RingItem cap (pushes (s.log ++ [_])) _ _
        rw [hsame _ rfl]
        exact h.item
  case refine_2 =>
    have hideal := h.ideal
    cases he with
    | quiet d pc hmem hword hworker hholds hread =>
        have htop' : State.top { s with deque := d, thief := Function.update s.thief n pc } =
            s.top := by
          simp only [State.top, hword]
        have hback' : State.back { s with deque := d, thief := Function.update s.thief n pc } =
            s.back := by
          simp only [State.back, hworker]
        have hholds' : State.holds { s with
            deque := d, thief := Function.update s.thief n pc } = s.holds :=
          holds_thief_same hholds d s.occ s.log
        rw [htop', hback', hholds']
        exact hideal
    | claim hnone hlt =>
        have hle := h.inSlots.level.split_le_back
        change Ideal Thread.side _ (occurrences s.occ (unpack (pack _ _)).top.toNat s.back) _
        rw [unpack_pack, top_succ hlt, holds_thief n _ _ s.occ _]
        rw [occurrences_front s.occ (show s.top < s.back by omega)] at hideal
        exact hideal.claimFront (Thread.thief n) rfl hnone
    | deliver top k hpc =>
        rw [holds_thief n _ s.deque s.occ _]
        refine hideal.deliver (Thread.thief n) ?_ (h.inSlots.reads n top k hpc).slot
        change (s.thief n).holds = some k
        rw [hpc]
        rfl

/-! ## Every run -/

/-- A new deque has nothing in its slots. -/
theorem slots_new (cap : Capacity) (mem : ℤ → α) : Slots cap (State.new mem) := by
  constructor
  case level => exact level_new cap mem
  case slots =>
    intro i _ hi
    exact absurd hi (Nat.not_lt_zero i)
  case reads =>
    intro n top k hn
    cases hn
  case stolen => exact allJustified_nil

/-- The invariant of the ring holds of a new deque. -/
theorem ringInv_new (cap : Capacity) (mem : ℤ → α) : RingInv cap (State.new mem) := by
  refine ⟨slots_new cap mem, trivial, ?_⟩
  have hback : (State.new mem).back = 0 := rfl
  have hholds : (State.new mem).holds = fun _ => none := by
    funext c
    cases c <;> rfl
  rw [hback, occurrences_empty _ (Nat.zero_le _), hholds]
  exact Ideal.nil

/-- The guard of the runs in which every item stays in its slot for as long as it is wanted. -/
def Kept (cap : Capacity) (s : State α) (a : Act α) : Prop :=
  Held cap s a ∧ Indices s a ∧ Spares cap s a

/-- One step of any thread. -/
theorem slots_step (h : Slots cap s) {a : Act α} (hok : Kept cap s a) {s' : State α}
    (hs : (machine cap).step s a = some s') : Slots cap s' := by
  obtain ⟨hheld, hindices, hspare⟩ := hok
  unfold machine at hs
  cases a with
  | push v =>
      simp only at hs
      split at hs
      · rename_i hidle
        cases hs
        exact slots_pushCall v h hidle hheld hindices hspare
      · cases hs
  | pop =>
      simp only at hs
      split at hs
      · rename_i hidle
        cases hs
        obtain ⟨hl, he⟩ := level_popCall h.level hidle
        exact slots_effect h hl he
      · cases hs
  | owner =>
      obtain ⟨hl, he⟩ := level_ownerStep h.level hs
      exact slots_effect h hl he
  | thief n =>
      cases hs
      exact slots_thiefEffect h (level_thiefStep h.level n) (thiefEffect_of_thiefStep h.level n)

/-- One step of any thread. -/
theorem ring_step (h : RingInv cap s) {a : Act α} (hok : Kept cap s a) (hfast : FastFits cap s a)
    {s' : State α} (hs : (machine cap).step s a = some s') : RingInv cap s' := by
  obtain ⟨hheld, hindices, hspare⟩ := hok
  unfold machine at hs
  cases a with
  | push v =>
      simp only at hs
      split at hs
      · rename_i hidle
        cases hs
        exact ring_pushCall v h hidle hheld hindices hspare
      · cases hs
  | pop =>
      simp only at hs
      split at hs
      · rename_i hidle
        cases hs
        obtain ⟨hl, he⟩ := level_popCall h.inSlots.level hidle
        exact ring_effect h hl he (popRead_of_popCall hidle hfast)
      · cases hs
  | owner =>
      obtain ⟨hl, he⟩ := level_ownerStep h.inSlots.level hs
      exact ring_effect h hl he fun k hk => absurd hk (not_popRead_of_ownerStep hs k)
  | thief n =>
      cases hs
      exact ring_thiefEffect h (level_thiefStep h.inSlots.level n)
        (thiefEffect_of_thiefStep h.inSlots.level n)

/-- The items are where they were put, in every state of every run that spares their slots. -/
theorem slots_run {mem : ℤ → α} {as : List (Act α)}
    (h : (machine cap).Run (Kept cap) (State.new mem) as s) : Slots cap s :=
  h.invariant (fun _ _ _ h hok hs => slots_step h hok hs) (slots_new cap mem)

/-- All goes by the ideal deque, if the fast path of `pop` stays inside the slots as well. -/
theorem ring_run {mem : ℤ → α} {as : List (Act α)}
    (h : (machine cap).Run (fun s a => Kept cap s a ∧ FastFits cap s a) (State.new mem) as s) :
    RingInv cap s :=
  h.invariant (fun _ _ _ h hok hs => ring_step h hok.1 hok.2 hs) (ringInv_new cap mem)

end Libfork.Deque.Lace
