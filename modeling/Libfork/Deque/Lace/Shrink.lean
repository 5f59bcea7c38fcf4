import Libfork.Deque.Lace.Model
import Mathlib.Data.BitVec

/-!
# `shrink_shared` at every position of the window

The shared part is a window of 32-bit indices, which may run over `2 ^ 32`. `shrink_shared` loads
the packed word, subtracts from its split, loads it again, and may add to its split; thieves claim
items before and after each of these accesses.

* `Claims` — what any number of claims do to the word; `Thieves` — the thieves take any steps.
* `ShrinkRun` — `shrink_shared` from its first load to its return.
* `shrinkRight_iff` — it is right if and only if all items are claimed, or the comparison and the
  mean that it computes are of indices on the same side of `2 ^ 32`.
* **`shrinkRight_of_window`** — so it is right on every window that ends below `2 ^ 32`.
* **`not_shrinkRight_wrapped`** — it goes wrong on a window of two items that nobody steals from.

Source: `deque_lace.hpp`, `shrink_shared`, `steal`.
-/

namespace Libfork.Deque.Lace

open Libfork.Found

variable {α : Type} {cap : Capacity} {s t : State α}

/-! ## Claims -/

/-- Any number of claims: each needs a top before the split, as signed numbers.
Source: `deque_lace.hpp`, `steal` -/
inductive Claims : SplitState → SplitState → Prop
  | refl (v : SplitState) : Claims v v
  | claim {v w : SplitState} (hlt : 0 < (v.split - v.top).toInt)
      (h : Claims ⟨v.top + 1, v.split⟩ w) : Claims v w

namespace Claims

variable {v w : SplitState}

/-- Claims do not move the split. -/
theorem split_eq (h : Claims v w) : w.split = v.split := by
  induction h with
  | refl v => rfl
  | claim hlt _ ih => exact ih

/-- Claims after claims are claims. -/
theorem trans {x : SplitState} (h : Claims v w) (h' : Claims w x) : Claims v x := by
  induction h with
  | refl v => exact h'
  | claim hlt _ ih => exact .claim hlt (ih h')

end Claims

/-- A signed difference is positive up to `2 ^ 31`. -/
theorem toNat_of_toInt_pos {d : BitVec 32} (h : 0 < d.toInt) : 0 < d.toNat ∧ d.toNat < 2 ^ 31 := by
  rw [BitVec.toInt_eq_toNat_cond] at h
  split at h <;> omega

/-- How far the index `i` is past `top`. -/
def past (top i : BitVec 32) : ℕ := (i - top).toNat

/-- The distance of an index past the top. -/
theorem past_eq (top i : BitVec 32) : past top i = (i.toNat + (2 ^ 32 - top.toNat)) % 2 ^ 32 := by
  unfold past
  rw [BitVec.toNat_sub, Nat.add_comm]

/-- The next index. -/
theorem toNat_succ (i : BitVec 32) : (i + 1).toNat = (i.toNat + 1) % 2 ^ 32 := by
  rw [BitVec.toNat_add]
  rfl

/-- A claim is of an index before the split, and moves the top on by one. -/
theorem past_succ {v : SplitState} (top : BitVec 32) (hlt : 0 < (v.split - v.top).toInt)
    (htop : past top v.top ≤ 2 ^ 31) (hsplit : past top v.split ≤ 2 ^ 31) :
    past top v.top < past top v.split ∧ past top (v.top + 1) = past top v.top + 1 := by
  have hpos := toNat_of_toInt_pos hlt
  rw [BitVec.toNat_sub] at hpos
  have hv := v.top.isLt
  have hs := v.split.isLt
  have ht := top.isLt
  rw [past_eq] at htop hsplit
  rw [past_eq, past_eq, past_eq, toNat_succ]
  omega

/-- The claims move the top on, up to the split and not past it. -/
theorem Claims.past_le {v w : SplitState} (h : Claims v w) (top : BitVec 32)
    (htop : past top v.top ≤ 2 ^ 31) (hsplit : past top v.split ≤ 2 ^ 31) :
    past top v.top ≤ past top w.top ∧
      past top w.top ≤ max (past top v.top) (past top v.split) := by
  induction h with
  | refl v => exact ⟨Nat.le_refl _, Nat.le_max_left _ _⟩
  | claim hlt _ ih =>
    obtain ⟨hbefore, hsucc⟩ := past_succ top hlt htop hsplit
    dsimp only at ih
    rw [hsucc] at ih
    obtain ⟨hle, hmax⟩ := ih (by omega) hsplit
    rw [Nat.max_eq_right (by omega)] at hmax ⊢
    exact ⟨by omega, hmax⟩

/-! ## The thieves -/

/-- The thieves take any number of steps. -/
def Thieves (cap : Capacity) (s t : State α) : Prop :=
  ∃ ns : List ℕ, (machine cap).Run Machine.free s (ns.map Act.thief) t

/-- A thief that is about to exchange the word has compared its indices. -/
def Compared (s : State α) : Prop :=
  ∀ n v, s.thief n = .exchange v → 0 < ((unpack v).split - (unpack v).top).toInt

/-- What the thieves leave of a state: the owner's, and a word with some more claims. -/
structure Stole (s t : State α) : Prop where
  owner : t.owner = s.owner
  worker : t.deque.mWorker = s.deque.mWorker
  claims : Claims (unpack s.deque.mTopSplit) (unpack t.deque.mTopSplit)
  compared : Compared t

/-- A thief has compared, or is elsewhere. -/
theorem compared_update {n : ℕ} {pc : ThiefPc} (h : Compared s)
    (hpc : ∀ v, pc = .exchange v → 0 < ((unpack v).split - (unpack v).top).toInt) (d : LaceDeque α)
    (log : List (Event ℕ α Thread)) :
    Compared { s with deque := d, thief := Function.update s.thief n pc, log := log } := by
  intro m v hm
  by_cases hmn : m = n
  · subst hmn
    exact hpc v ((Function.update_self ..).symm.trans hm)
  · exact h m v ((Function.update_of_ne hmn _ _).symm.trans hm)

/-- A thief's step only claims. -/
theorem stole_thiefStep (h : Compared s) (n : ℕ) : Stole s (thiefStep cap s n) := by
  unfold thiefStep
  cases hpc : s.thief n with
  | idle =>
    dsimp only
    split
    · exact ⟨rfl, rfl, .refl _, h⟩
    · exact ⟨rfl, rfl, .refl _, compared_update h (by rintro _ ⟨⟩) s.deque s.log⟩
  | load =>
    dsimp only
    split
    · rename_i hlt
      refine ⟨rfl, rfl, .refl _, compared_update h ?_ s.deque s.log⟩
      rintro v ⟨rfl⟩
      exact hlt
    · exact ⟨rfl, rfl, .refl _, compared_update h (by rintro _ ⟨⟩) s.deque s.log⟩
  | exchange v =>
    dsimp only
    split
    · rename_i hv
      subst hv
      refine ⟨rfl, rfl, ?_, compared_update h (by rintro _ ⟨⟩) _ _⟩
      rw [unpack_pack]
      exact .claim (h n _ hpc) (.refl _)
    · exact ⟨rfl, rfl, .refl _, compared_update h (by rintro _ ⟨⟩) s.deque s.log⟩
  | read top k => exact ⟨rfl, rfl, .refl _, compared_update h (by rintro _ ⟨⟩) s.deque _⟩
  | request => exact ⟨rfl, rfl, .refl _, compared_update h (by rintro _ ⟨⟩) _ s.log⟩

/-- So do the steps of all. -/
theorem stole_of_thieves (h : Thieves cap s t) (hs : Compared s) : Stole s t := by
  obtain ⟨ns, h⟩ := h
  induction ns generalizing s with
  | nil =>
    cases h
    exact ⟨rfl, rfl, .refl _, hs⟩
  | cons n ns ih =>
    obtain ⟨-, s', hstep, h⟩ := h
    cases hstep
    have hstole : Stole s (thiefStep cap s n) := stole_thiefStep hs n
    obtain ⟨howner, hworker, hclaims, hcompared⟩ := ih hstole.compared h
    exact ⟨howner.trans hstole.owner, hworker.trans hstole.worker, hstole.claims.trans hclaims,
      hcompared⟩

/-! ## The statement -/

/-- `shrink_shared` has just loaded these indices from the word. -/
structure Loaded (top split : BitVec 32) (s : State α) : Prop where
  owner : s.owner = .shrinkSub top split
  word : unpack s.deque.mTopSplit = ⟨top, split⟩
  compared : Compared s

/-- `shrink_shared` from its first load, in `s`, to its return, in `t`: it subtracts in `a`, and
loads again in `u`. The thieves take any steps before and after. -/
inductive ShrinkRun (cap : Capacity) (s a u t : State α) : Prop
  /-- It returns what the second load tells. -/
  | kept {b v : State α} (h₁ : Thieves cap s a) (hsub : ownerStep cap a = some b)
      (h₂ : Thieves cap b u) (hfresh : ownerStep cap u = some v)
      (hret : v.owner = .coldPublish ∨ v.owner = .shrinkEmpty) (h₃ : Thieves cap v t)
  /-- It adds to the split, in `w`. -/
  | fixed {b v w x : State α} {corrected correction : BitVec 32} (h₁ : Thieves cap s a)
      (hsub : ownerStep cap a = some b) (h₂ : Thieves cap b u) (hfresh : ownerStep cap u = some v)
      (hv : v.owner = .shrinkFix corrected correction) (h₃ : Thieves cap v w)
      (hadd : ownerStep cap w = some x) (h₄ : Thieves cap x t)

/-- What `shrink_shared` should return and leave, in `t`, if it subtracts in `a`. It returns true
on its way to `shrinkEmpty`, and false on its way to `coldPublish`. -/
structure ShrinkRight (top split : BitVec 32) (a t : State α) : Prop where
  all : (unpack a.deque.mTopSplit).top = split → t.owner = .shrinkEmpty
  some : (unpack a.deque.mTopSplit).top ≠ split →
    t.owner = .coldPublish ∧
      (unpack t.deque.mTopSplit).split = BitVec.ofInt 32 t.deque.mWorker.osplit ∧
      past top (unpack t.deque.mTopSplit).top ≤ past top (unpack t.deque.mTopSplit).split ∧
      past top (unpack t.deque.mTopSplit).split < past top split

/-- Both indices are below `2 ^ 32`, or both are not. -/
def SameSide (i j : ℕ) : Prop := i < 2 ^ 32 ↔ j < 2 ^ 32

/-- The second load has found that `top` is now `fresh`: all items are claimed, or the indices that
are compared and averaged then are on the same side of `2 ^ 32`. With half of the items or less
claimed, they are the new top and the midpoint; with more, the midpoint and the old split. -/
def ShrinkSafe (top split fresh : BitVec 32) : Prop :=
  let n := past top split
  let c := past top fresh
  c = n ∨ (c ≤ n / 2 ∧ SameSide (top.toNat + c) (top.toNat + n / 2)) ∨
    (n / 2 < c ∧ SameSide (top.toNat + n / 2) (top.toNat + n))

/-! ## The indices -/

/-- An index of the window is below `2 ^ 32`, or has been wrapped once. -/
theorem wrapped {T x : ℕ} (hT : T < 2 ^ 32) (hx : x ≤ 2 ^ 31) :
    (T + x < 2 ^ 32 ∧ (T + x) % 2 ^ 32 = T + x) ∨
      (2 ^ 32 ≤ T + x ∧ (T + x) % 2 ^ 32 + 2 ^ 32 = T + x) := by
  omega

section indices

variable {top split fresh : BitVec 32}

/-- An index from its distance. -/
theorem toNat_eq_past (top i : BitVec 32) : i.toNat = (top.toNat + past top i) % 2 ^ 32 := by
  have ht := top.isLt
  have hi := i.isLt
  rw [past_eq]
  omega

/-- The distance determines the index. -/
theorem past_injective {i j : BitVec 32} (h : past top i = past top j) : i = j := by
  apply BitVec.eq_of_toNat_eq
  rw [toNat_eq_past top i, toNat_eq_past top j, h]

/-- The top is at distance 0. -/
@[simp] theorem past_self : past top top = 0 := by
  unfold past
  rw [BitVec.sub_self]
  rfl

/-- The midpoint is half-way. -/
theorem past_midpoint : past top (midpoint top split) = past top split / 2 := by
  unfold past midpoint
  rw [BitVec.add_comm, BitVec.add_sub_cancel, BitVec.toNat_ushiftRight]
  rfl

/-- The mean of two indices of the window, as it is computed. -/
theorem past_correctedSplit : past top (correctedSplit fresh split) =
    (((top.toNat + past top fresh) % 2 ^ 32 + (top.toNat + past top split) % 2 ^ 32) / 2 +
      (2 ^ 32 - top.toNat)) % 2 ^ 32 := by
  rw [past_eq, toNat_correctedSplit, toNat_eq_past top fresh, toNat_eq_past top split]

variable (hn : past top split ≤ 2 ^ 31) (hc : past top fresh < past top split)
include hn hc

/-- With half of the items or less claimed, the comparison is right if its indices are on the same
side of `2 ^ 32`. -/
theorem le_midpoint_iff (hle : past top fresh ≤ past top split / 2) :
    fresh ≤ midpoint top split ↔
      SameSide (top.toNat + past top fresh) (top.toNat + past top split / 2) := by
  rw [BitVec.le_def, toNat_eq_past top fresh, toNat_eq_past top (midpoint top split),
    past_midpoint]
  unfold SameSide
  rcases wrapped top.isLt (x := past top fresh) (by omega) with ⟨hf, hf'⟩ | ⟨hf, hf'⟩ <;>
    rcases wrapped top.isLt (x := past top split / 2) (by omega) with ⟨hm, hm'⟩ | ⟨hm, hm'⟩ <;>
      omega

/-- With more of them claimed, it is right if the midpoint and the old split are on one side. -/
theorem midpoint_lt_of_sameSide (hlt : past top split / 2 < past top fresh)
    (hside : SameSide (top.toNat + past top split / 2) (top.toNat + past top split)) :
    midpoint top split < fresh := by
  rw [BitVec.lt_def, toNat_eq_past top fresh, toNat_eq_past top (midpoint top split),
    past_midpoint]
  unfold SameSide at hside
  rcases wrapped top.isLt (x := past top fresh) (by omega) with ⟨hf, hf'⟩ | ⟨hf, hf'⟩ <;>
    rcases wrapped top.isLt (x := past top split / 2) (by omega) with ⟨hm, hm'⟩ | ⟨hm, hm'⟩ <;>
      omega

/-- So is the mean then, -/
theorem past_correctedSplit_of_sameSide (hlt : past top split / 2 < past top fresh)
    (hside : SameSide (top.toNat + past top split / 2) (top.toNat + past top split)) :
    past top (correctedSplit fresh split) = (past top fresh + past top split) / 2 := by
  have ht := top.isLt
  rw [past_correctedSplit]
  unfold SameSide at hside
  rcases wrapped top.isLt (x := past top fresh) (by omega) with ⟨hf, hf'⟩ | ⟨hf, hf'⟩ <;>
    rcases wrapped top.isLt (x := past top split) hn with ⟨hs, hs'⟩ | ⟨hs, hs'⟩ <;>
  · generalize (top.toNat + past top fresh) % 2 ^ 32 = f at *
    generalize (top.toNat + past top split) % 2 ^ 32 = p at *
    omega

/-- and otherwise it is far off the window. -/
theorem past_correctedSplit_of_not_sameSide (hgt : midpoint top split < fresh)
    (hside : ¬ (past top split / 2 < past top fresh ∧
      SameSide (top.toNat + past top split / 2) (top.toNat + past top split))) :
    2 ^ 31 ≤ past top (correctedSplit fresh split) := by
  have ht := top.isLt
  rw [BitVec.lt_def, toNat_eq_past top fresh, toNat_eq_past top (midpoint top split),
    past_midpoint] at hgt
  rw [past_correctedSplit]
  unfold SameSide at hside
  rcases wrapped top.isLt (x := past top fresh) (by omega) with ⟨hf, hf'⟩ | ⟨hf, hf'⟩ <;>
    rcases wrapped top.isLt (x := past top split) hn with ⟨hs, hs'⟩ | ⟨hs, hs'⟩ <;>
      rcases wrapped top.isLt (x := past top split / 2) (by omega) with ⟨hm, hm'⟩ | ⟨hm, hm'⟩ <;>
  · generalize (top.toNat + past top fresh) % 2 ^ 32 = f at *
    generalize (top.toNat + past top split) % 2 ^ 32 = p at *
    generalize (top.toNat + past top split / 2) % 2 ^ 32 = m at *
    omega
end indices

/-! ## The accesses -/

section accesses

variable {a b u v w x : State α} {top split newSplit : BitVec 32}

/-- Subtracting a difference leaves the other index. -/
theorem sub_sub_self (i j : BitVec 32) : i - (i - j) = j := by
  apply BitVec.eq_of_toNat_eq
  have hi := i.isLt
  have hj := j.isLt
  rw [BitVec.toNat_sub, BitVec.toNat_sub]
  omega

/-- `fetch_sub` moves the split to the midpoint. -/
theorem sub_step (hpc : a.owner = .shrinkSub top split)
    (hsplit : (unpack a.deque.mTopSplit).split = split) (h : ownerStep cap a = some b) :
    b.owner = .shrinkFresh split (midpoint top split) ∧
      unpack b.deque.mTopSplit = ⟨(unpack a.deque.mTopSplit).top, midpoint top split⟩ ∧
      b.thief = a.thief := by
  unfold ownerStep at h
  rw [hpc] at h
  cases h
  refine ⟨rfl, ?_, rfl⟩
  dsimp only
  rw [unpack_sub_onSplit, hsplit, sub_sub_self]

/-- The second load. -/
theorem fresh_step (hpc : u.owner = .shrinkFresh split newSplit)
    (h : ownerStep cap u = some v) :
    v.deque.mTopSplit = u.deque.mTopSplit ∧ v.thief = u.thief ∧
      (((unpack u.deque.mTopSplit).top = split ∧ v.owner = .shrinkEmpty) ∨
        ((unpack u.deque.mTopSplit).top ≠ split ∧ (unpack u.deque.mTopSplit).top ≤ newSplit ∧
          v.owner = .coldPublish ∧ v.deque.mWorker.osplit = newSplit.toNat) ∨
        ((unpack u.deque.mTopSplit).top ≠ split ∧ newSplit < (unpack u.deque.mTopSplit).top ∧
          v.owner = .shrinkFix (correctedSplit (unpack u.deque.mTopSplit).top split)
            (correctedSplit (unpack u.deque.mTopSplit).top split - newSplit))) := by
  unfold ownerStep at h
  rw [hpc] at h
  dsimp only at h
  split at h
  · rename_i hne
    split at h
    · rename_i hgt
      cases h
      exact ⟨rfl, rfl, Or.inr (Or.inr ⟨hne, hgt, rfl⟩)⟩
    · rename_i hgt
      cases h
      exact ⟨rfl, rfl, Or.inr (Or.inl ⟨hne, BitVec.not_lt.mp hgt, rfl, rfl⟩)⟩
  · rename_i heq
    cases h
    exact ⟨rfl, rfl, Or.inl ⟨not_not.mp heq, rfl⟩⟩

/-- `fetch_add` moves the split to the mean. -/
theorem fix_step {corrected : BitVec 32}
    (hpc : w.owner = .shrinkFix corrected (corrected - newSplit))
    (hsplit : (unpack w.deque.mTopSplit).split = newSplit) (h : ownerStep cap w = some x) :
    x.owner = .coldPublish ∧ x.deque.mWorker.osplit = corrected.toNat ∧
      unpack x.deque.mTopSplit = ⟨(unpack w.deque.mTopSplit).top, corrected⟩ ∧
      x.thief = w.thief := by
  unfold ownerStep at h
  rw [hpc] at h
  cases h
  refine ⟨rfl, rfl, ?_, rfl⟩
  dsimp only
  rw [unpack_add_onSplit, hsplit, BitVec.add_comm, BitVec.sub_add_cancel]

/-- The owner's accesses leave the thieves as they are. -/
theorem Compared.congr (h : Compared a) (hthief : b.thief = a.thief) : Compared b := by
  intro n v hn
  exact h n v (hthief ▸ hn)

end accesses

/-! ## When `shrink_shared` is right -/

section right

variable {a b u v w x : State α} {top split : BitVec 32}

/-- What the first half of `shrink_shared` leaves for the second load, with `c₁` items claimed
before the subtraction and `c₂` before the load. -/
structure Halfway (top split : BitVec 32) (a u : State α) : Prop where
  owner : u.owner = .shrinkFresh split (midpoint top split)
  word : (unpack u.deque.mTopSplit).split = midpoint top split
  compared : Compared u
  claims : past top (unpack a.deque.mTopSplit).top ≤ past top (unpack u.deque.mTopSplit).top
  claims_le : past top (unpack u.deque.mTopSplit).top ≤
    max (past top (unpack a.deque.mTopSplit).top) (past top split / 2)
  before : past top (unpack a.deque.mTopSplit).top ≤ past top split

/-- What the second load finds. -/
theorem halfway (hload : Loaded top split s) (hn : past top split ≤ 2 ^ 31)
    (h₁ : Thieves cap s a) (hsub : ownerStep cap a = some b) (h₂ : Thieves cap b u) :
    Halfway top split a u := by
  have ha := stole_of_thieves h₁ hload.compared
  have hclaims := ha.claims
  rw [hload.word] at hclaims
  have hle := hclaims.past_le top (by simp) hn
  dsimp only at hle
  rw [past_self, Nat.zero_max] at hle
  obtain ⟨hpc, hword, hthief⟩ := sub_step (ha.owner.trans hload.owner) hclaims.split_eq hsub
  have hu := stole_of_thieves h₂ (ha.compared.congr hthief)
  have hclaims' := hu.claims
  rw [hword] at hclaims'
  obtain ⟨hge, hmax⟩ := hclaims'.past_le top (by dsimp only; omega)
    (by dsimp only; rw [past_midpoint]; omega)
  dsimp only at hge hmax
  rw [past_midpoint] at hmax
  exact ⟨hu.owner.trans hpc, hclaims'.split_eq, hu.compared, hge, hmax, hle.2⟩

/-- The second load finds the old split if and only if all items were claimed before the
subtraction. -/
theorem Halfway.top_eq_iff (h : Halfway top split a u) (hpos : 0 < past top split) :
    (unpack u.deque.mTopSplit).top = split ↔ (unpack a.deque.mTopSplit).top = split := by
  have hclaims := h.claims
  have hle := h.claims_le
  have hbefore := h.before
  constructor
  · intro heq
    rw [heq] at hclaims hle
    have hpast : past top (unpack a.deque.mTopSplit).top = past top split := by omega
    exact past_injective hpast
  · intro heq
    rw [heq] at hclaims hle
    have hpast : past top (unpack u.deque.mTopSplit).top = past top split := by omega
    exact past_injective hpast

/-- With items left, fewer are claimed at the second load than were shared. -/
theorem Halfway.claims_lt (h : Halfway top split a u)
    (hne : (unpack u.deque.mTopSplit).top ≠ split) (hpos : 0 < past top split) :
    past top (unpack u.deque.mTopSplit).top < past top split := by
  have hle := h.claims_le
  have hbefore := h.before
  have hlt : past top (unpack a.deque.mTopSplit).top ≠ past top split := by
    intro heq
    exact hne ((h.top_eq_iff hpos).mpr (past_injective heq))
  omega

/-- All items are claimed, and it returns true. -/
theorem right_all (h : Halfway top split a u) (hpos : 0 < past top split)
    (htop : (unpack u.deque.mTopSplit).top = split) (ht : t.owner = .shrinkEmpty) :
    ShrinkRight top split a t ∧ ShrinkSafe top split (unpack u.deque.mTopSplit).top :=
  ⟨⟨fun _ => ht, fun hne => absurd ((h.top_eq_iff hpos).mp htop) hne⟩,
    Or.inl (congrArg (past top) htop)⟩

/-- Some are left: what there is to show. -/
theorem right_some (h : Halfway top split a u) (hpos : 0 < past top split)
    (hne : (unpack u.deque.mTopSplit).top ≠ split) (ht : t.owner = .coldPublish)
    (hosplit : (unpack t.deque.mTopSplit).split = BitVec.ofInt 32 t.deque.mWorker.osplit) :
    ShrinkRight top split a t ↔
      past top (unpack t.deque.mTopSplit).top ≤ past top (unpack t.deque.mTopSplit).split ∧
        past top (unpack t.deque.mTopSplit).split < past top split := by
  have hne' : (unpack a.deque.mTopSplit).top ≠ split := fun heq => hne ((h.top_eq_iff hpos).mpr heq)
  exact ⟨fun hright => (hright.some hne').2.2,
    fun hright => ⟨fun heq => absurd heq hne', fun _ => ⟨ht, hosplit, hright⟩⟩⟩

/-- An index is its own value. -/
theorem ofInt_toNat (i : BitVec 32) : BitVec.ofInt 32 (i.toNat : ℤ) = i := by
  rw [BitVec.ofInt_natCast, BitVec.ofNat_toNat, BitVec.setWidth_eq]

/-- It takes the midpoint for the new split. -/
theorem right_kept (h : Halfway top split a u) (hn : past top split ≤ 2 ^ 31)
    (hpos : 0 < past top split) (hne : (unpack u.deque.mTopSplit).top ≠ split)
    (hle : (unpack u.deque.mTopSplit).top ≤ midpoint top split)
    (hword : v.deque.mTopSplit = u.deque.mTopSplit) (hpc : v.owner = .coldPublish)
    (hosplit : v.deque.mWorker.osplit = (midpoint top split).toNat) (ht : Stole v t) :
    ShrinkRight top split a t ↔ ShrinkSafe top split (unpack u.deque.mTopSplit).top := by
  have hlt := h.claims_lt hne hpos
  have hclaims := ht.claims
  rw [hword] at hclaims
  have hsplit : (unpack t.deque.mTopSplit).split = midpoint top split :=
    hclaims.split_eq.trans h.word
  obtain ⟨hge, hmax⟩ := hclaims.past_le top (by omega)
    (by rw [h.word, past_midpoint]; omega)
  rw [h.word, past_midpoint] at hmax
  rw [right_some h hpos hne (ht.owner.trans hpc)
    (by rw [ht.worker, hosplit, ofInt_toNat, hsplit]), hsplit, past_midpoint]
  constructor
  · rintro ⟨htop, -⟩
    have hhalf : past top (unpack u.deque.mTopSplit).top ≤ past top split / 2 := by omega
    exact Or.inr (Or.inl ⟨hhalf, (le_midpoint_iff hn hlt hhalf).mp hle⟩)
  · intro hsafe
    rcases hsafe with heq | ⟨hhalf, -⟩ | ⟨hhalf, hside⟩
    · omega
    · omega
    · exact absurd hle (BitVec.not_le.mpr (midpoint_lt_of_sameSide hn hlt hhalf hside))

/-- It takes the mean for the new split. -/
theorem right_fixed (h : Halfway top split a u) (hn : past top split ≤ 2 ^ 31)
    (hpos : 0 < past top split) (hne : (unpack u.deque.mTopSplit).top ≠ split)
    (hgt : midpoint top split < (unpack u.deque.mTopSplit).top)
    (hword : v.deque.mTopSplit = u.deque.mTopSplit) (hw : Stole v w)
    (hx : unpack x.deque.mTopSplit = ⟨(unpack w.deque.mTopSplit).top,
      correctedSplit (unpack u.deque.mTopSplit).top split⟩)
    (hpc : x.owner = .coldPublish)
    (hosplit : x.deque.mWorker.osplit =
      (correctedSplit (unpack u.deque.mTopSplit).top split).toNat) (ht : Stole x t) :
    ShrinkRight top split a t ↔ ShrinkSafe top split (unpack u.deque.mTopSplit).top := by
  have hlt := h.claims_lt hne hpos
  have hclaims := hw.claims
  rw [hword] at hclaims
  obtain ⟨hge, hmax⟩ := hclaims.past_le top (by omega)
    (by rw [h.word, past_midpoint]; omega)
  rw [h.word, past_midpoint] at hmax
  have hclaims' := ht.claims
  rw [hx] at hclaims'
  have hsplit : (unpack t.deque.mTopSplit).split =
      correctedSplit (unpack u.deque.mTopSplit).top split := hclaims'.split_eq
  rw [right_some h hpos hne (ht.owner.trans hpc)
    (by rw [ht.worker, hosplit, ofInt_toNat, hsplit]), hsplit]
  by_cases hside : past top split / 2 < past top (unpack u.deque.mTopSplit).top ∧
      SameSide (top.toNat + past top split / 2) (top.toNat + past top split)
  · -- no thief has claimed anything since the second load
    have hmean := past_correctedSplit_of_sameSide hn hlt hside.1 hside.2
    obtain ⟨-, hmax'⟩ := hclaims'.past_le top (by dsimp only; omega)
      (by dsimp only; rw [hmean]; omega)
    dsimp only at hmax'
    rw [hmean] at hmax' ⊢
    exact ⟨fun _ => Or.inr (Or.inr hside), fun _ => ⟨by omega, by omega⟩⟩
  · have hfar := past_correctedSplit_of_not_sameSide hn hlt hgt hside
    constructor
    · rintro ⟨-, hlt'⟩
      omega
    · intro hsafe
      rcases hsafe with heq | ⟨hhalf, hsame⟩ | hside'
      · omega
      · exact absurd ((le_midpoint_iff hn hlt hhalf).mpr hsame) (BitVec.not_le.mpr hgt)
      · exact absurd hside' hside

/-- **`shrink_shared` is right if and only if it compares and averages indices on the same side of
`2 ^ 32`**, or has nothing to compare, whatever the thieves claim and when. -/
theorem shrinkRight_iff (cap : Capacity) (top split : BitVec 32) (s a u t : State α)
    (hload : Loaded top split s) (hpos : 0 < (split - top).toNat)
    (hcap : (split - top).toNat ≤ cap.val) (h : ShrinkRun cap s a u t) :
    ShrinkRight top split a t ↔ ShrinkSafe top split (unpack u.deque.mTopSplit).top := by
  have hn : past top split ≤ 2 ^ 31 := Nat.le_trans hcap cap.val_le
  cases h with
  | kept h₁ hsub h₂ hfresh hret h₃ =>
    have hhalf := halfway hload hn h₁ hsub h₂
    obtain ⟨hword, hthief, hcases⟩ := fresh_step hhalf.owner hfresh
    have ht := stole_of_thieves h₃ (hhalf.compared.congr hthief)
    rcases hcases with ⟨htop, hpc⟩ | ⟨hne, hle, hpc, hosplit⟩ | ⟨-, -, hpc⟩
    · obtain ⟨hright, hsafe⟩ := right_all hhalf hpos htop (ht.owner.trans hpc)
      exact iff_of_true hright hsafe
    · exact right_kept hhalf hn hpos hne hle hword hpc hosplit ht
    · rw [hpc] at hret
      rcases hret with hret | hret <;> cases hret
  | fixed h₁ hsub h₂ hfresh hv h₃ hadd h₄ =>
    have hhalf := halfway hload hn h₁ hsub h₂
    obtain ⟨hword, hthief, hcases⟩ := fresh_step hhalf.owner hfresh
    have hw := stole_of_thieves h₃ (hhalf.compared.congr hthief)
    rcases hcases with ⟨-, hpc⟩ | ⟨-, -, hpc, -⟩ | ⟨hne, hgt, hpc⟩
    · rw [hpc] at hv
      cases hv
    · rw [hpc] at hv
      cases hv
    · have hsplit := hw.claims.split_eq
      rw [hword, hhalf.word] at hsplit
      obtain ⟨hpc', hosplit, hx, hthief'⟩ := fix_step (hw.owner.trans hpc) hsplit hadd
      exact right_fixed hhalf hn hpos hne hgt hword hw hx hpc' hosplit
        (stole_of_thieves h₄ (hw.compared.congr hthief'))

/-- The second load finds a top within the window. -/
theorem fresh_le (hload : Loaded top split s) (hn : past top split ≤ 2 ^ 31)
    (h : ShrinkRun cap s a u t) : past top (unpack u.deque.mTopSplit).top ≤ past top split := by
  have hle : Halfway top split a u →
      past top (unpack u.deque.mTopSplit).top ≤ past top split := by
    intro hhalf
    have hclaims := hhalf.claims_le
    have hbefore := hhalf.before
    omega
  cases h with
  | kept h₁ hsub h₂ _ _ _ => exact hle (halfway hload hn h₁ hsub h₂)
  | fixed h₁ hsub h₂ _ _ _ _ _ => exact hle (halfway hload hn h₁ hsub h₂)

end right

/-- A window that ends below `2 ^ 32` is safe. -/
theorem shrinkSafe_of_lt {top split fresh : BitVec 32}
    (h : top.toNat + past top split < 2 ^ 32) (hle : past top fresh ≤ past top split) :
    ShrinkSafe top split fresh := by
  have hfresh : top.toNat + past top fresh < 2 ^ 32 :=
    Nat.lt_of_le_of_lt (Nat.add_le_add_left hle _) h
  unfold ShrinkSafe SameSide
  omega

/-- **`shrink_shared` is right on every window that ends below `2 ^ 32`**, and on one that reaches
`2 ^ 32` exactly where that is safe, whatever the thieves claim and when. -/
theorem shrinkRight_of_window (cap : Capacity) (top split : BitVec 32) (s a u t : State α)
    (hload : Loaded top split s) (hpos : 0 < (split - top).toNat)
    (hcap : (split - top).toNat ≤ cap.val) (h : ShrinkRun cap s a u t) :
    (top.toNat + (split - top).toNat < 2 ^ 32 → ShrinkRight top split a t) ∧
      (ShrinkRight top split a t ↔ ShrinkSafe top split (unpack u.deque.mTopSplit).top) := by
  have hiff := shrinkRight_iff cap top split s a u t hload hpos hcap h
  refine ⟨fun hlt => hiff.mpr ?_, hiff⟩
  exact shrinkSafe_of_lt hlt (fresh_le hload (Nat.le_trans hcap cap.val_le) h)

/-- `pop` calls `shrink_shared` on a deque with no private part. -/
theorem loaded_popCall (hcompared : Compared s)
    (hbottom : s.deque.mWorker.bottom ≤ s.deque.mWorker.osplit)
    (hflag : s.deque.mWorker.oAllstolen = false)
    (hne : (unpack s.deque.mTopSplit).top ≠ (unpack s.deque.mTopSplit).split) :
    Loaded (unpack s.deque.mTopSplit).top (unpack s.deque.mTopSplit).split (popCall s) := by
  unfold popCall
  dsimp only
  rw [if_neg (Int.not_lt.mpr hbottom), hflag, if_neg Bool.false_ne_true, if_pos hne]
  exact ⟨rfl, rfl, hcompared⟩

/-! ## Two windows over `2 ^ 32` -/

/-- `shrink_shared` has loaded `top` and `split`, and no thief is there. -/
def loadedState (top split : BitVec 32) : State ℕ where
  deque :=
    { LaceDeque.new fun _ => 0 with
      mTopSplit := pack top split
      mAllstolen := false
      mWorker := ⟨split.toNat, split.toNat, false⟩ }
  owner := .shrinkSub top split
  thief := fun _ => .idle
  occ := fun _ => 0
  log := []

/-- The state after the first load. -/
theorem loaded_loadedState (top split : BitVec 32) : Loaded top split (loadedState top split) :=
  ⟨rfl, unpack_pack top split, nofun⟩

/-- The thieves do nothing. -/
theorem Thieves.refl : Thieves cap s s := ⟨[], rfl⟩

/-- Two of the three items at `3`, `4` and `5` are claimed before the subtraction. The midpoint `4`
is overtaken, and the split becomes `5`. -/
theorem shrinkRight_of_window_three :
    ∃ a u t : State ℕ, ShrinkRun ⟨2, by decide⟩ (loadedState 3 6) a u t ∧
      (unpack t.deque.mTopSplit) = ⟨5, 5⟩ ∧ ShrinkRight 3 6 a t := by
  have hrun : ∃ a u t : State ℕ, ShrinkRun ⟨2, by decide⟩ (loadedState 3 6) a u t ∧
      (unpack t.deque.mTopSplit) = ⟨5, 5⟩ :=
    ⟨_, _, _, .fixed ⟨List.replicate 7 0, Machine.run_iff_exec.mpr rfl⟩ rfl .refl rfl rfl .refl rfl
      .refl, by decide⟩
  obtain ⟨a, u, t, hrun, hword⟩ := hrun
  have h := shrinkRight_of_window ⟨2, by decide⟩ 3 6 _ a u t (loaded_loadedState _ _) (by decide)
    (by decide) hrun
  exact ⟨a, u, t, hrun, hword, h.1 (by decide)⟩

/-- **`shrink_shared` is not right at every position.** Of two items at `2 ^ 32 - 1` and `0`, none
of them claimed, the second load is taken for one that finds the midpoint overtaken. -/
theorem not_shrinkRight_wrapped :
    ¬ ∀ (cap : Capacity) (top split : BitVec 32) (s a u t : State ℕ), Loaded top split s →
      0 < (split - top).toNat → (split - top).toNat ≤ cap.val → ShrinkRun cap s a u t →
        ShrinkRight top split a t := by
  intro h
  have hrun : ∃ u t : State ℕ, ShrinkRun twoSlots (loadedState (2 ^ 32 - 1) 1)
      (loadedState (2 ^ 32 - 1) 1) u t ∧ (unpack t.deque.mTopSplit).split = 2 ^ 31 :=
    ⟨_, _, .fixed .refl rfl .refl rfl rfl .refl rfl .refl, by decide⟩
  obtain ⟨u, t, hrun, hsplit⟩ := hrun
  have hright := h twoSlots (2 ^ 32 - 1) 1 _ _ u t (loaded_loadedState _ _) (by decide)
    (by decide) hrun
  obtain ⟨-, -, -, hlt⟩ := hright.some (by decide)
  rw [hsplit] at hlt
  exact absurd hlt (by decide)

end Libfork.Deque.Lace
