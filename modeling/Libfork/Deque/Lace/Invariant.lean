import Libfork.Deque.Lace.Model

/-!
# The invariant of `lace_deque` under every interleaving
-/

namespace Libfork.Deque.Lace

open Libfork.Found

variable {α : Type}

/-! ## Top, split and bottom -/

namespace State

/-- The top, as a number. -/
def top (s : State α) : ℕ := (unpack s.deque.mTopSplit).top.toNat

/-- The split, as a number. -/
def split (s : State α) : ℕ := (unpack s.deque.mTopSplit).split.toNat

end State

/-- `grow_shared` was called by `push`. -/
def Resume.inPush : Resume α → Bool
  | .push => true
  | .pop _ _ _ => false

/-- The item of a `push` is in its slot and the owner has not advanced `bottom` yet. -/
def OwnerPc.inPush : OwnerPc α → Bool
  | .pushWord _ | .pushFlag _ | .pushCheck _ | .pushClear _ | .pushReq | .pushPublish => true
  | .growAdd _ _ r | .growFlag r | .growClear r => r.inPush
  | _ => false

/-- One past the last pushed index that no pop has claimed. -/
def State.back (s : State α) : ℕ :=
  s.deque.mWorker.bottom.toNat + if s.owner.inPush then 1 else 0

/-- The deque has a shared part `[top, split)` and a private part `[split, bottom)`. -/
structure Parted (t sp : ℕ) (w : Worker) : Prop where
  flag : w.oAllstolen = false
  osplit : w.osplit = sp
  top_le : t ≤ sp
  split_le : (sp : ℤ) ≤ w.bottom

/-- Every item has been stolen, and no thief can claim another. -/
structure Drained (t sp : ℕ) (w : Worker) : Prop where
  split_le : sp ≤ t
  bottom : w.bottom = t
  osplit : w.osplit = t

/-- How top, split and the owner's private copies stand at each access of the owner. -/
def OwnerPc.Arith (t sp : ℕ) (w : Worker) : OwnerPc α → Prop
  | .idle => Parted t sp w ∨ (Drained t sp w ∧ w.oAllstolen = true)
  | .pushWord bot => Drained t sp w ∧ w.bottom = bot.toNat
  | .pushFlag bot | .pushCheck bot | .pushClear bot =>
      w.bottom = bot.toNat ∧ sp = bot.toNat + 1 ∧ t ≤ sp
  | .pushReq => Parted t sp w
  | .pushPublish =>
      w.oAllstolen = false ∧ w.osplit = sp ∧ t ≤ sp ∧ 0 ≤ w.bottom ∧ (sp : ℤ) ≤ w.bottom + 1
  | .growAdd diff newSplit _ =>
      Parted t sp w ∧ newSplit.toNat = sp + diff.toNat ∧ (newSplit.toNat : ℤ) ≤ w.bottom
  | .growFlag _ | .growClear _ => Parted t sp w
  | .popRead _ | .popReq _ _ _ | .coldRead _ => Parted t sp w
  | .shrinkSub top split =>
      w.oAllstolen = false ∧ w.osplit = sp ∧ w.bottom = sp ∧ split.toNat = sp ∧
        top.toNat < sp ∧ top.toNat ≤ t ∧ t ≤ sp
  | .shrinkFresh split newSplit =>
      w.oAllstolen = false ∧ w.osplit = split.toNat ∧ w.bottom = split.toNat ∧
        newSplit.toNat = sp ∧ sp < split.toNat ∧ t ≤ split.toNat
  | .shrinkFix corrected correction =>
      w.oAllstolen = false ∧ (corrected.toNat : ℤ) < w.bottom ∧
        corrected.toNat = sp + correction.toNat ∧ t ≤ corrected.toNat
  | .shrinkEmpty => Drained t sp w
  | .coldPublish => Parted t sp w ∧ (sp : ℤ) < w.bottom

/-- A thief's claim keeps the owner's picture true. -/
theorem OwnerPc.Arith.steal {t sp : ℕ} {w : Worker} {pc : OwnerPc α} (h : pc.Arith t sp w)
    (hlt : t < sp) : pc.Arith (t + 1) sp w := by
  have hp : Parted t sp w → Parted (t + 1) sp w := fun h => ⟨h.flag, h.osplit, hlt, h.split_le⟩
  have hd : Drained t sp w → False := fun h => absurd h.split_le (by omega)
  cases pc with
  | idle =>
      rcases h with h | ⟨h, -⟩
      · exact Or.inl (hp h)
      · exact (hd h).elim
  | pushWord bot => exact (hd h.1).elim
  | pushFlag bot => exact ⟨h.1, h.2.1, hlt⟩
  | pushCheck bot => exact ⟨h.1, h.2.1, hlt⟩
  | pushClear bot => exact ⟨h.1, h.2.1, hlt⟩
  | pushReq => exact hp h
  | pushPublish =>
      obtain ⟨h₁, h₂, -, h₃⟩ := h
      exact ⟨h₁, h₂, hlt, h₃⟩
  | growAdd diff newSplit r => exact ⟨hp h.1, h.2⟩
  | growFlag r => exact hp h
  | growClear r => exact hp h
  | popRead k => exact hp h
  | popReq k i v => exact hp h
  | coldRead k => exact hp h
  | shrinkSub top split =>
      obtain ⟨h₁, h₂, h₃, h₄, h₅, h₆, -⟩ := h
      exact ⟨h₁, h₂, h₃, h₄, h₅, Nat.le_succ_of_le h₆, hlt⟩
  | shrinkFresh split newSplit =>
      obtain ⟨h₁, h₂, h₃, h₄, h₅, -⟩ := h
      exact ⟨h₁, h₂, h₃, h₄, h₅, by omega⟩
  | shrinkFix corrected correction =>
      obtain ⟨h₁, h₂, h₃, -⟩ := h
      exact ⟨h₁, h₂, h₃, by omega⟩
  | shrinkEmpty => exact (hd h).elim
  | coldPublish => exact ⟨hp h.1, h.2⟩

/-- Wherever the owner stands, what is shared is pushed, and `bottom` is not negative. -/
theorem OwnerPc.Arith.bounds {t sp : ℕ} {w : Worker} {pc : OwnerPc α} (h : pc.Arith t sp w) :
    0 ≤ w.bottom ∧ t ≤ w.bottom.toNat + (if pc.inPush then 1 else 0) ∧
      sp ≤ w.bottom.toNat + (if pc.inPush then 1 else 0) := by
  have hp : ∀ e : ℕ, Parted t sp w →
      0 ≤ w.bottom ∧ t ≤ w.bottom.toNat + e ∧ sp ≤ w.bottom.toNat + e := by
    rintro e ⟨-, -, h₁, h₂⟩
    omega
  have hd : ∀ e : ℕ, Drained t sp w →
      0 ≤ w.bottom ∧ t ≤ w.bottom.toNat + e ∧ sp ≤ w.bottom.toNat + e := by
    rintro e ⟨h₁, h₂, -⟩
    omega
  cases pc with
  | idle => exact h.elim (hp _) fun h => hd _ h.1
  | pushWord bot => exact hd _ h.1
  | pushFlag bot =>
      obtain ⟨h₁, h₂, h₃⟩ := h
      simp only [inPush, if_true]
      omega
  | pushCheck bot =>
      obtain ⟨h₁, h₂, h₃⟩ := h
      simp only [inPush, if_true]
      omega
  | pushClear bot =>
      obtain ⟨h₁, h₂, h₃⟩ := h
      simp only [inPush, if_true]
      omega
  | pushReq => exact hp _ h
  | pushPublish =>
      obtain ⟨-, -, h₁, h₂, h₃⟩ := h
      simp only [inPush, if_true]
      omega
  | growAdd diff newSplit r => exact hp _ h.1
  | growFlag r => exact hp _ h
  | growClear r => exact hp _ h
  | popRead k => exact hp _ h
  | popReq k i v => exact hp _ h
  | coldRead k => exact hp _ h
  | shrinkSub top split =>
      obtain ⟨-, -, h₁, -, -, -, h₂⟩ := h
      simp only [inPush]
      omega
  | shrinkFresh split newSplit =>
      obtain ⟨-, -, h₁, -, h₂, h₃⟩ := h
      simp only [inPush]
      omega
  | shrinkFix corrected correction =>
      obtain ⟨-, h₁, h₂, h₃⟩ := h
      simp only [inPush]
      omega
  | shrinkEmpty => exact hd _ h
  | coldPublish => exact hp _ h.1

/-! ## Claimed items on their way out -/

/-- The occurrence claimed by the `pop` that called `grow_shared`. -/
def Resume.holds : Resume α → Option ℕ
  | .push => none
  | .pop k _ _ => some k

/-- The occurrence that the owner's call has claimed and not returned yet. -/
def OwnerPc.holds : OwnerPc α → Option ℕ
  | .popRead k | .coldRead k | .popReq k _ _ => some k
  | .growAdd _ _ r | .growFlag r | .growClear r => r.holds
  | _ => none

/-- The occurrence that a thief's call has claimed and not returned yet. -/
def ThiefPc.holds : ThiefPc → Option ℕ
  | .read _ k => some k
  | _ => none

/-- The occurrence that the call of a thread has claimed and not returned yet. -/
def State.holds (s : State α) : Thread → Option ℕ
  | .owner => s.owner.holds
  | .thief n => (s.thief n).holds

/-- What the `pop` that called `grow_shared` will return is the item it claimed. -/
def Resume.Item (pushed : List (ℕ × α)) : Resume α → Prop
  | .push => True
  | .pop k i v => pushed[k]? = some (i.toNat, v)

/-- What the owner will return, or still has to read, is the item of the occurrence it claimed. -/
def OwnerPc.Item (cap : Capacity) (pushed : List (ℕ × α)) (mem : ℤ → α) (bottom : ℤ) :
    OwnerPc α → Prop
  | .popRead k | .coldRead k =>
      bottom < cap.val ∧ pushed[k]? = some (bottom.toNat, mem bottom)
  | .popReq k i v => pushed[k]? = some (i.toNat, v)
  | .growAdd _ _ r | .growFlag r | .growClear r => r.Item pushed
  | _ => True

/-- What a thief's locals say about the deque. -/
def ThiefPc.Ok (t : ℕ) (occ : ℕ → ℕ) : ThiefPc → Prop
  | .exchange v => (unpack v).top.toNat < (unpack v).split.toNat
  | .read top k => top.toNat < t ∧ k = occ top.toNat
  | _ => True

/-- **The invariant**, for runs in which no push starts at the capacity or beyond. -/
structure Inv (cap : Capacity) (s : State α) : Prop where
  arith : s.owner.Arith s.top s.split s.deque.mWorker
  back_le : s.back ≤ cap.val
  slots : ∀ i < s.back, (pushes s.log)[s.occ i]? = some (i, s.deque.mArray i)
  item : s.owner.Item cap (pushes s.log) s.deque.mArray s.deque.mWorker.bottom
  thieves : ∀ n, (s.thief n).Ok s.top s.occ
  ideal : Ideal Thread.side s.log (occurrences s.occ s.top s.back) s.holds

end Libfork.Deque.Lace
