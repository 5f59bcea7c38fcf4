import Libfork.Deque.Lace.Model

/-!
# The calls of `lace_deque`, one at a time

`push`, `pop` and `steal` as functions of the deque, with the slots they access. They are what
the machine does when one thread takes all the steps:

* **`solo_push`, `solo_pop`, `solo_steal`** — from any state of the machine in which the caller
  is between two calls, the caller alone takes its call to its end and leaves the deque that the
  function computes.

Source: `deque_lace.hpp`, `push`, `pop`, `steal`, `pop_cold_path`, `pop_empty`, `shrink_shared`,
`grow_shared`.
-/

namespace Libfork.Deque.Lace

open Libfork.Found

/-! ## The functions -/

/-- What a call returns, the deque it leaves, and the slots of `m_array` it accesses. -/
structure Outcome (ρ α : Type) where
  ret : ρ
  deque : LaceDeque α
  slots : List ℤ

namespace LaceDeque

variable {α : Type} (cap : Capacity) (d : LaceDeque α)

/-- Source: `deque_lace.hpp`, `grow_shared` -/
def growShared : LaceDeque α :=
  let split := BitVec.ofInt 32 d.mWorker.osplit
  let bot := d.bot
  if bot ≤ split then d
  else
    let diff := growDiff bot split
    let newSplit := split + diff
    { { d with mTopSplit := d.mTopSplit + onSplit diff }.own newSplit with
      mAllstolen := false
      mSplitreq := false }

/-- `if (m_splitreq.load()) grow_shared();`. Source: `deque_lace.hpp`, `push` and `pop` -/
def serveRequest : LaceDeque α := if d.mSplitreq then d.growShared else d

/-- `if (m_splitreq.load()) { m_splitreq.store(false); }`. Source: `deque_lace.hpp`, `push` -/
def clearRequest : LaceDeque α := if d.mSplitreq then { d with mSplitreq := false } else d

/-- `m_allstolen.store(true); m_worker.o_allstolen = true`.
Source: `deque_lace.hpp`, `shrink_shared` and `pop_empty` -/
def setAllstolen : LaceDeque α :=
  { d with mAllstolen := true, mWorker := { d.mWorker with oAllstolen := true } }

/-- `shrink_shared` from its fence on: it loads the top again and corrects the split if thieves
have overtaken it. -/
def recheck (split newSplit : BitVec 32) : Bool × LaceDeque α :=
  let freshT := (unpack d.mTopSplit).top
  if freshT ≠ split then
    if freshT > newSplit then
      let corrected := correctedSplit freshT split
      (false, { d with
        mTopSplit := d.mTopSplit + onSplit (corrected - newSplit)
        mWorker := { d.mWorker with osplit := corrected.toNat } })
    else (false, { d with mWorker := { d.mWorker with osplit := newSplit.toNat } })
  else (true, d.setAllstolen)

/-- Whether nothing is left. Source: `deque_lace.hpp`, `shrink_shared` -/
def shrinkShared : Bool × LaceDeque α :=
  let v := unpack d.mTopSplit
  if v.top ≠ v.split then
    let newSplit := midpoint v.top v.split
    { d with mTopSplit := d.mTopSplit - onSplit (v.split - newSplit) }.recheck v.split newSplit
  else (true, d.setAllstolen)

/-- `if (!o_allstolen) ..`. Source: `deque_lace.hpp`, `pop_empty` -/
def popEmpty : LaceDeque α := if d.mWorker.oAllstolen then d else d.setAllstolen

/-- Source: `deque_lace.hpp`, `push` -/
def push (v : α) : Outcome Unit α :=
  let bot := d.bot
  let slot : ℤ := maskIndex cap bot.toNat
  let d₁ := d.write slot v
  let d₂ :=
    if d₁.mWorker.oAllstolen then
      { d₁ with mTopSplit := pack bot (bot + 1), mAllstolen := false }.clearRequest.own (bot + 1)
    else d₁.serveRequest
  ⟨(), d₂.publish (d₂.mWorker.bottom + 1), [slot]⟩

/-- Source: `deque_lace.hpp`, `pop_cold_path` -/
def popColdPath : Outcome (Option α) α :=
  if d.mWorker.oAllstolen then ⟨.none, d, []⟩
  else
    let (gone, d₁) := d.shrinkShared
    if gone then ⟨.none, d₁.popEmpty, []⟩
    else
      let d₂ := d₁.publish (d₁.mWorker.bottom - 1)
      let slot : ℤ := maskIndex cap d₂.mWorker.bottom
      ⟨some (d₂.mArray slot), d₂.serveRequest, [slot]⟩

/-- `none` is the result of the default `when_empty`. Source: `deque_lace.hpp`, `pop` -/
def pop : Outcome (Option α) α :=
  if d.mWorker.bottom > d.mWorker.osplit then
    let d₁ := d.publish (d.mWorker.bottom - 1)
    ⟨some (d₁.mArray d₁.mWorker.bottom), d₁.serveRequest, [d₁.mWorker.bottom]⟩
  else d.popColdPath cap

/-- `m_top_split.compare_exchange_strong(old_v, new_v)`, `none` where it fails. -/
def compareExchange (oldV newV : BitVec 64) : Option (LaceDeque α) :=
  if d.mTopSplit = oldV then some { d with mTopSplit := newV } else none

/-- Source: `deque_lace.hpp`, `steal` -/
def steal [Inhabited α] : Outcome (StealT α) α :=
  if d.mAllstolen then ⟨⟨.empty, default⟩, d, []⟩
  else
    let oldV := d.mTopSplit
    let s := unpack oldV
    if 0 < (s.split - s.top).toInt then
      let newV := pack (s.top + 1) s.split
      match d.compareExchange oldV newV with
      | some d₁ =>
          let slot : ℤ := maskIndex cap s.top.toNat
          ⟨⟨.none, d₁.mArray slot⟩, d₁, [slot]⟩
      | none => ⟨⟨.lost, default⟩, d, []⟩
    else ⟨⟨.empty, default⟩, { d with mSplitreq := true }, []⟩

end LaceDeque

/-! ## One thread alone -/

section solo

variable {α : Type} {cap : Capacity} {s : State α}

/-- `s` reaches `t` by steps that the owner alone takes to end its call. -/
def OwnerRun (cap : Capacity) (s t : State α) : Prop :=
  ∃ n, (machine cap).Run Machine.free s (List.replicate n .owner) t

/-- The owner does nothing. -/
theorem OwnerRun.refl : OwnerRun cap s s := Machine.Solo.refl s

/-- The owner makes one step more at the beginning. -/
theorem OwnerRun.head {s' t : State α} (hs : ownerStep cap s = some s')
    (h : OwnerRun cap s' t) : OwnerRun cap s t := Machine.Solo.head hs h

/-- The owner makes one step. -/
theorem OwnerRun.single {t : State α} (hs : ownerStep cap s = some t) : OwnerRun cap s t :=
  Machine.Solo.single hs

/-- One run of the owner after another. -/
theorem OwnerRun.trans {s' t : State α} (h₁ : OwnerRun cap s s') (h₂ : OwnerRun cap s' t) :
    OwnerRun cap s t := Machine.Solo.trans h₁ h₂

/-- `grow_shared` alone, up to its return. -/
theorem solo_grow (s : State α) (r : Resume α) :
    OwnerRun cap (growCall s r) (ret { s with deque := s.deque.growShared } r) := by
  unfold growCall LaceDeque.growShared
  simp only
  split
  · exact OwnerRun.refl
  · exact OwnerRun.head rfl (OwnerRun.head rfl (OwnerRun.single rfl))

/-- A pending request is served by `grow_shared`. -/
theorem solo_serve {r : Resume α}
    (hstep : ownerStep cap s = some (if s.deque.mSplitreq then growCall s r else ret s r)) :
    OwnerRun cap s (ret { s with deque := s.deque.serveRequest } r) := by
  unfold LaceDeque.serveRequest
  by_cases hreq : s.deque.mSplitreq
  · rw [if_pos hreq] at hstep ⊢
    exact OwnerRun.head hstep (solo_grow s r)
  · rw [if_neg hreq] at hstep ⊢
    exact OwnerRun.single hstep

/-- **`push` alone** ends with the deque that the function computes. -/
theorem solo_push (s : State α) (v : α) :
    OwnerRun cap (pushCall cap s v)
      { pushCall cap s v with deque := (s.deque.push cap v).deque, owner := .idle } := by
  set d₁ := s.deque.write (maskIndex cap s.deque.bot.toNat) v with hd₁
  unfold pushCall LaceDeque.push LaceDeque.clearRequest
  simp only [← hd₁]
  have hflag : s.deque.mWorker.oAllstolen = d₁.mWorker.oAllstolen := rfl
  by_cases hstolen : d₁.mWorker.oAllstolen
  · simp only [hflag, if_pos hstolen]
    by_cases hreq : d₁.mSplitreq
    · refine ⟨5, ?_⟩
      simp [machine, Machine.free, ownerStep, hreq]
    · refine ⟨4, ?_⟩
      simp [machine, Machine.free, ownerStep, hreq]
  · simp only [hflag, if_neg hstolen]
    refine (solo_serve (r := .push) ?_).trans (OwnerRun.single rfl)
    simp only [ownerStep]
    exact (apply_ite some _ _ _).symm

/-- The log of a call that returned `r`: what it claimed and delivered, or that it found nothing. -/
def LogsPop (log log' : List (Event ℕ α Thread)) : Option α → Prop
  | none => log' = log ++ [.empty]
  | some v => ∃ k i, log' = log ++ [.claim .owner k] ++ [.deliver .owner k i v]

/-- `pop` from its slot read to its return. -/
theorem solo_popRead {d : LaceDeque α} {k : ℕ} (slot : ℤ) (s' : State α)
    (hd : s'.deque = d) (hstep : ownerStep cap s' =
      some { s' with owner := .popReq k d.mWorker.bottom (d.mArray slot) }) :
    OwnerRun cap s' { s' with
      deque := d.serveRequest
      owner := .idle
      log := s'.log ++ [.deliver .owner k d.mWorker.bottom.toNat (d.mArray slot)] } := by
  subst hd
  refine OwnerRun.head hstep ?_
  refine solo_serve (r := .pop k s'.deque.mWorker.bottom (s'.deque.mArray slot)) ?_
  simp only [ownerStep]
  exact (apply_ite some _ _ _).symm

/-- The end of a call of `shrink_shared`: `pop` goes on, or reports empty. -/
def shrinkRet (s : State α) : Bool × LaceDeque α → State α
  | (true, d) => { s with deque := d, owner := .idle, log := s.log ++ [.empty] }
  | (false, d) => { s with deque := d, owner := .coldPublish }

/-- `shrink_shared` alone, from its fence on. -/
theorem solo_recheck {split newSplit : BitVec 32} (hpc : s.owner = .shrinkFresh split newSplit) :
    OwnerRun cap s (shrinkRet s (s.deque.recheck split newSplit)) := by
  unfold LaceDeque.recheck
  by_cases hfresh : (unpack s.deque.mTopSplit).top = split
  · simp only [hfresh, ne_eq, not_true, if_false]
    have hstep : ownerStep cap s = some { s with owner := .shrinkEmpty } := by
      simp [ownerStep, hpc, hfresh]
    exact OwnerRun.head hstep (OwnerRun.single rfl)
  · simp only [ne_eq, hfresh, not_false_eq_true, if_true]
    by_cases hgt : (unpack s.deque.mTopSplit).top > newSplit
    · simp only [if_pos hgt]
      set corrected := correctedSplit (unpack s.deque.mTopSplit).top split with hcorrected
      have hstep : ownerStep cap s =
          some { s with owner := .shrinkFix corrected (corrected - newSplit) } := by
        simp [ownerStep, hpc, hfresh, hgt, hcorrected]
      exact OwnerRun.head hstep (OwnerRun.single rfl)
    · simp only [if_neg hgt]
      refine OwnerRun.single ?_
      simp [ownerStep, hpc, hfresh, hgt, shrinkRet]

/-- `shrink_shared` alone. -/
theorem solo_shrink (cap : Capacity) (s : State α) :
    OwnerRun cap
      { s with owner :=
        if (unpack s.deque.mTopSplit).top ≠ (unpack s.deque.mTopSplit).split then
          .shrinkSub (unpack s.deque.mTopSplit).top (unpack s.deque.mTopSplit).split
        else .shrinkEmpty }
      (shrinkRet s s.deque.shrinkShared) := by
  unfold LaceDeque.shrinkShared
  by_cases hne : (unpack s.deque.mTopSplit).top = (unpack s.deque.mTopSplit).split
  · simp only [ne_eq, hne, not_true, if_false]
    exact OwnerRun.single rfl
  · simp only [ne_eq, hne, not_false_eq_true, if_true]
    refine OwnerRun.head rfl ((solo_recheck rfl).trans ?_)
    exact OwnerRun.refl

/-- An empty `shrink_shared` has already recorded that all is stolen. -/
theorem popEmpty_shrinkShared (d : LaceDeque α) (h : d.shrinkShared.1) :
    d.shrinkShared.2.popEmpty = d.shrinkShared.2 := by
  have hflag : d.shrinkShared.2.mWorker.oAllstolen = true := by
    revert h
    unfold LaceDeque.shrinkShared LaceDeque.recheck
    simp only
    split_ifs <;> simp [LaceDeque.setAllstolen]
  unfold LaceDeque.popEmpty
  rw [if_pos hflag]

/-- **`pop` alone** ends with the result and the deque that the function computes. -/
theorem solo_pop (s : State α) (hidle : s.owner = .idle) :
    ∃ t, OwnerRun cap (popCall s) t ∧ t.owner = .idle ∧ t.thief = s.thief ∧
      t.deque = (s.deque.pop cap).deque ∧ LogsPop s.log t.log (s.deque.pop cap).ret := by
  unfold popCall LaceDeque.pop LaceDeque.popColdPath
  simp only
  split
  · refine ⟨_, solo_popRead (s.deque.mWorker.bottom - 1) _ rfl rfl, rfl, rfl, rfl, ?_⟩
    exact ⟨_, _, rfl⟩
  · split
    · exact ⟨_, OwnerRun.refl, hidle, rfl, rfl, rfl⟩
    · have hshrink := solo_shrink cap s
      have hempty := popEmpty_shrinkShared s.deque
      rcases hd : s.deque.shrinkShared with ⟨_ | _, d⟩
      · rw [hd] at hshrink
        refine ⟨_, hshrink.trans (OwnerRun.head rfl (solo_popRead _ _ rfl rfl)), rfl, rfl, rfl, ?_⟩
        exact ⟨_, _, rfl⟩
      · rw [hd] at hshrink hempty
        refine ⟨_, hshrink, rfl, rfl, ?_, rfl⟩
        exact (hempty rfl).symm

/-- The log of a call of the thief `n` that returned `r`. -/
def LogsSteal (n : ℕ) (log log' : List (Event ℕ α Thread)) (r : StealT α) : Prop :=
  match r.code with
  | .none => ∃ k i, log' = log ++ [.claim (.thief n) k] ++ [.deliver (.thief n) k i r.val]
  | _ => log' = log

/-- **`steal` alone** ends with the result and the deque that the function computes. -/
theorem solo_steal [Inhabited α] (s : State α) (n : ℕ) (hidle : s.thief n = .idle) :
    ∃ m t, (machine cap).Run Machine.free s (List.replicate m (.thief n)) t ∧
      t.owner = s.owner ∧ t.thief = s.thief ∧ t.deque = (s.deque.steal cap).deque ∧
      LogsSteal n s.log t.log (s.deque.steal cap).ret := by
  have hself : Function.update s.thief n .idle = s.thief := by
    rw [← hidle, Function.update_eq_self]
  set v := unpack s.deque.mTopSplit with hv
  by_cases hflag : s.deque.mAllstolen
  · refine ⟨1, s, ?_, rfl, rfl, ?_, ?_⟩
    · simp [machine, Machine.free, thiefStep, hidle, hflag]
    · simp [LaceDeque.steal, hflag]
    · simp [LaceDeque.steal, hflag, LogsSteal]
  · by_cases hlt : 0 < (v.split - v.top).toInt
    · have hsteal : s.deque.steal cap = ⟨⟨.none, s.deque.mArray (maskIndex cap v.top.toNat)⟩,
          { s.deque with mTopSplit := pack (v.top + 1) v.split }, [maskIndex cap v.top.toNat]⟩ := by
        simp [LaceDeque.steal, LaceDeque.compareExchange, hflag, ← hv, hlt, -BitVec.toInt_sub]
      refine ⟨4, { s with
        deque := { s.deque with mTopSplit := pack (v.top + 1) v.split }
        log := s.log ++ [.claim (.thief n) (s.occ v.top.toNat)] ++
          [.deliver (.thief n) (s.occ v.top.toNat) v.top.toNat
            (s.deque.mArray (maskIndex cap v.top.toNat))] }, ?_, rfl, rfl, ?_, ?_⟩
      · simp [machine, Machine.free, thiefStep, hidle, hflag, ← hv, hlt, hself, -BitVec.toInt_sub]
      · rw [hsteal]
      · rw [hsteal]
        exact ⟨_, _, rfl⟩
    · have hsteal : s.deque.steal cap =
          ⟨⟨.empty, default⟩, { s.deque with mSplitreq := true }, []⟩ := by
        simp [LaceDeque.steal, hflag, ← hv, hlt, -BitVec.toInt_sub]
      refine ⟨3, { s with deque := { s.deque with mSplitreq := true } }, ?_, rfl, rfl, ?_, ?_⟩
      · simp [machine, Machine.free, thiefStep, hidle, hflag, ← hv, hlt, hself, -BitVec.toInt_sub]
      · rw [hsteal]
      · rw [hsteal]
        rfl

end solo

end Libfork.Deque.Lace
