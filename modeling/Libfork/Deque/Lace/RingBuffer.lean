import Libfork.Deque.Lace.Sequential
import Libfork.Found.Ring

/-!
# `lace_deque` as a ring buffer

Calls of `push`, `pop` and `steal`, each run to completion before the next starts, for so long
that `bottom` and `top` go round the ring, and round `uint32_t`.

* `Faithful` — what a deque that holds at most `capacity` items owes its users: slots inside the
  array, last in first out at one end, first in first out at the other.
* `Shape T S B d` — where top, split and bottom stand, as unbounded indices.
* **`faithful_iff`** — the deque is faithful exactly as long as the fast path of `pop`, which
  reads `m_array[m_worker.bottom]` without `mask_index`, is taken with `bottom` at most the
  capacity.

Source: `deque_lace.hpp`, `push`, `pop`, `pop_cold_path`, `steal`, `mask_index`.
-/

namespace Libfork.Deque.Lace

open Libfork.Found

variable {α : Type}

/-! ## Calls and what they owe -/

/-- A call. -/
inductive Call (α : Type)
  | push (v : α)
  | pop
  | steal
deriving DecidableEq, Repr

/-- A call and what it returned. -/
inductive Answer (α : Type)
  | push (v : α)
  | pop (r : Option α)
  | steal (r : StealT α)
deriving DecidableEq, Repr

/-- One call. -/
def LaceDeque.call [Inhabited α] (cap : Capacity) (d : LaceDeque α) :
    Call α → Outcome (Answer α) α
  | .push v => let o := d.push cap v; ⟨.push v, o.deque, o.slots⟩
  | .pop => let o := d.pop cap; ⟨.pop o.ret, o.deque, o.slots⟩
  | .steal => let o := d.steal cap; ⟨.steal o.ret, o.deque, o.slots⟩

/-- What the calls return, and which slots they access. -/
def LaceDeque.calls [Inhabited α] (cap : Capacity) :
    LaceDeque α → List (Call α) → List (Answer α × List ℤ)
  | _, [] => []
  | d, c :: cs => let o := d.call cap c; (o.ret, o.slots) :: o.deque.calls cap cs

/-- Going by the answers, at most `cap` items are held at any time, `n` of them to begin with. -/
def Fits (cap : ℕ) : ℕ → List (Answer α) → Prop
  | _, [] => True
  | n, .push _ :: as => n < cap ∧ Fits cap (n + 1) as
  | n, .pop r :: as => Fits cap (if r.isSome then n - 1 else n) as
  | n, .steal r :: as => Fits cap (if r.code = .none then n - 1 else n) as

instance Fits.decide (cap : ℕ) : (n : ℕ) → (as : List (Answer α)) → Decidable (Fits cap n as)
  | _, [] => inferInstanceAs (Decidable True)
  | n, .push _ :: as =>
      have := Fits.decide cap (n + 1) as
      inferInstanceAs (Decidable (n < cap ∧ Fits cap (n + 1) as))
  | n, .pop r :: as => Fits.decide cap (if r.isSome then n - 1 else n) as
  | n, .steal r :: as => Fits.decide cap (if r.code = .none then n - 1 else n) as

/-- The answers of a deque that holds `held`, oldest first. -/
def Answers : List α → List (Answer α) → Prop
  | _, [] => True
  | held, .push v :: as => Answers (held ++ [v]) as
  | held, .pop r :: as => r = held.getLast? ∧ Answers held.dropLast as
  | held, .steal r :: as =>
      (r.code = .none ∧ held.head? = some r.val ∧ Answers held.tail as) ∨
        (r.code = .empty ∧ Answers held as)

/-- Every slot access is inside the array, and the answers are those of a deque. -/
def Faithful (cap : Capacity) (held : List α) (done : List (Answer α × List ℤ)) : Prop :=
  (∀ x ∈ done, ∀ slot ∈ x.2, 0 ≤ slot ∧ slot < cap.val) ∧ Answers held (done.map Prod.fst)

/-- No `pop` takes its fast path with `bottom` beyond the capacity. -/
def FastPopsFit [Inhabited α] (cap : Capacity) : LaceDeque α → List (Call α) → Prop
  | _, [] => True
  | d, c :: cs =>
      (c = .pop → d.mWorker.bottom > d.mWorker.osplit → d.mWorker.bottom ≤ cap.val) ∧
        FastPopsFit cap (d.call cap c).deque cs

/-! ## The shape of the deque -/

/-- Top, split and bottom, as indices that never wrap. -/
structure Shape (T S B : ℕ) (d : LaceDeque α) : Prop where
  top_le : T ≤ S
  split_le : S ≤ B
  word : d.mTopSplit = pack (BitVec.ofNat 32 T) (BitVec.ofNat 32 S)
  bottom : d.mWorker.bottom = B
  osplit : d.mWorker.osplit = (BitVec.ofNat 32 S).toNat
  flag : d.mAllstolen = d.mWorker.oAllstolen
  drained : d.mWorker.oAllstolen = true → T = B

/-- The shape of a new deque. -/
theorem shape_new (mem : ℤ → α) : Shape 0 0 0 (LaceDeque.new mem) :=
  ⟨Nat.le_refl _, Nat.le_refl _, rfl, rfl, rfl, rfl, fun _ => rfl⟩

variable {T S B : ℕ} {d : LaceDeque α}

/-- The bottom as a 32-bit index. -/
theorem Shape.bot (h : Shape T S B d) : d.bot = BitVec.ofNat 32 B := by
  unfold LaceDeque.bot
  rw [h.bottom]
  rfl

/-- Moving the split up. -/
theorem shape_growShared (h : Shape T S B d) (hroom : B - S < 2 ^ 31) :
    ∃ S', Shape T S' B d.growShared ∧ d.growShared.mArray = d.mArray := by
  have hsplit : BitVec.ofInt 32 d.mWorker.osplit = BitVec.ofNat 32 S := by
    rw [h.osplit]
    apply BitVec.eq_of_toNat_eq
    rw [toNat_ofInt_of_lt (by omega) (by have := (BitVec.ofNat 32 S).isLt; omega)]
    rfl
  unfold LaceDeque.growShared
  simp only [hsplit, h.bot]
  split
  · exact ⟨S, h, rfl⟩
  · rename_i hlt
    rw [BitVec.not_le, BitVec.lt_def, BitVec.toNat_ofNat, BitVec.toNat_ofNat] at hlt
    have hle := h.split_le
    have hdiff : (growDiff (BitVec.ofNat 32 B) (BitVec.ofNat 32 S)).toNat = (B - S + 1) / 2 := by
      rw [toNat_growDiff] <;> simp only [BitVec.toNat_ofNat] <;> omega
    have hnew : BitVec.ofNat 32 S + growDiff (BitVec.ofNat 32 B) (BitVec.ofNat 32 S) =
        BitVec.ofNat 32 (S + (B - S + 1) / 2) := by
      apply BitVec.eq_of_toNat_eq
      rw [BitVec.toNat_add, hdiff, BitVec.toNat_ofNat, BitVec.toNat_ofNat]
      omega
    have hword : d.mTopSplit + onSplit (growDiff (BitVec.ofNat 32 B) (BitVec.ofNat 32 S)) =
        pack (BitVec.ofNat 32 T) (BitVec.ofNat 32 (S + (B - S + 1) / 2)) := by
      rw [h.word, pack_add_onSplit, hnew]
    have htop := h.top_le
    rw [hword, hnew]
    generalize hw : pack _ _ = w
    exact ⟨S + (B - S + 1) / 2, ⟨by omega, by omega, hw.symm, h.bottom, rfl, rfl, nofun⟩, rfl⟩

/-- A request is served by moving the split. -/
theorem shape_serveRequest (h : Shape T S B d) (hroom : B - S < 2 ^ 31)
    (hflag : d.mWorker.oAllstolen = false) :
    ∃ S', Shape T S' B d.serveRequest ∧ d.serveRequest.mArray = d.mArray ∧
      d.serveRequest.mWorker.oAllstolen = false := by
  unfold LaceDeque.serveRequest
  split
  · obtain ⟨S', hS', hmem⟩ := shape_growShared h hroom
    refine ⟨S', hS', hmem, ?_⟩
    unfold LaceDeque.growShared
    simp only
    split
    · exact hflag
    · rfl
  · exact ⟨S, h, rfl, hflag⟩

/-- Publishing another bottom. -/
theorem Shape.publish (h : Shape T S B d) {B' : ℕ} {b : ℤ} (hb : b = B') (hle : S ≤ B')
    (hflag : d.mWorker.oAllstolen = false) : Shape T S B' (d.publish b) :=
  ⟨h.top_le, hle, h.word, hb, h.osplit, h.flag, fun hs => absurd (hflag.symm.trans hs) nofun⟩

/-- A slot write changes nothing else. -/
theorem Shape.write (h : Shape T S B d) (slot : ℤ) (v : α) : Shape T S B (d.write slot v) :=
  ⟨h.top_le, h.split_le, h.word, h.bottom, h.osplit, h.flag, h.drained⟩

/-- Clearing a pending request leaves none. -/
theorem clearRequest_eq (d : LaceDeque α) : d.clearRequest = { d with mSplitreq := false } := by
  unfold LaceDeque.clearRequest
  split
  · rfl
  · rename_i h
    have h' : d.mSplitreq = false := by simpa using h
    rw [← h']

/-- **`push`** writes the slot of the bottom. -/
theorem push_spec (cap : Capacity) (h : Shape T S B d) (hroom : B - T < cap.val) (v : α) :
    (d.push cap v).slots = [((B % cap.val : ℕ) : ℤ)] ∧
      (d.push cap v).deque.mArray = Function.update d.mArray ((B % cap.val : ℕ) : ℤ) v ∧
      ∃ S', Shape T S' (B + 1) (d.push cap v).deque := by
  have hcap := cap.val_le
  have htop := h.top_le
  have hsplit := h.split_le
  have hslot : maskIndex cap d.bot.toNat = B % cap.val := by rw [h.bot, maskIndex_ofNat]
  have hsucc : BitVec.ofNat 32 B + 1 = BitVec.ofNat 32 (B + 1) := (BitVec.ofNat_add B 1).symm
  unfold LaceDeque.push
  simp only [hslot]
  have hw := h.write ((B % cap.val : ℕ) : ℤ) v
  generalize hd : d.write ((B % cap.val : ℕ) : ℤ) v = d₁ at hw ⊢
  have hmem : d₁.mArray = Function.update d.mArray ((B % cap.val : ℕ) : ℤ) v := by
    rw [← hd]
    rfl
  rw [h.bot, hsucc]
  by_cases hflag : d₁.mWorker.oAllstolen
  · -- the packed word is replaced: its top is already the bottom
    have hTB := hw.drained hflag
    rw [if_pos hflag]
    generalize hx : pack _ _ = w
    rw [clearRequest_eq]
    refine ⟨trivial, hmem, B + 1, ⟨by omega, Nat.le_refl _, ?_, ?_, rfl, rfl, nofun⟩⟩
    · rw [hTB]
      exact hx.symm
    · show d₁.mWorker.bottom + 1 = _
      rw [hw.bottom]
      rfl
  · have hflag' : d₁.mWorker.oAllstolen = false := by simpa using hflag
    rw [if_neg hflag]
    obtain ⟨S', hS', hmem', hflag''⟩ := shape_serveRequest hw (by omega) hflag'
    refine ⟨trivial, hmem'.trans hmem, S', hS'.publish ?_ ?_ hflag''⟩
    · rw [hS'.bottom]
      rfl
    · exact Nat.le_succ_of_le hS'.split_le

/-- The read of a `pop` that has claimed the index before the bottom. -/
theorem shape_claimed (h : Shape T S B d) (hlt : S < B) (hroom : B - T ≤ 2 ^ 31) :
    (d.publish (d.mWorker.bottom - 1)).mWorker.bottom = (B - 1 : ℕ) ∧
      ∃ S', Shape T S' (B - 1) (d.publish (d.mWorker.bottom - 1)).serveRequest ∧
        (d.publish (d.mWorker.bottom - 1)).serveRequest.mArray = d.mArray := by
  have htop := h.top_le
  have hflag : d.mWorker.oAllstolen = false := by
    by_contra hs
    have := h.drained (by simpa using hs)
    omega
  have hb : d.mWorker.bottom - 1 = (B - 1 : ℕ) := by
    rw [h.bottom]
    omega
  have hpub : Shape T S (B - 1) (d.publish (d.mWorker.bottom - 1)) :=
    h.publish hb (by omega) hflag
  obtain ⟨S', hS', hmem, -⟩ := shape_serveRequest hpub (by omega) hflag
  exact ⟨hb, S', hS', hmem⟩

/-- `shrink_shared` on a deque whose private part is empty: either all is stolen, or the split
moves below the bottom. -/
theorem shape_shrinkShared (h : Shape T S B d) (hBS : B = S) (hlt : S < 2 ^ 32) :
    (T = B ∧ d.shrinkShared = (true, d.setAllstolen)) ∨
      (T < B ∧ ∃ S' d', d.shrinkShared = (false, d') ∧ Shape T S' B d' ∧ S' < B ∧
        d'.mArray = d.mArray) := by
  have htop := h.top_le
  have hT : (BitVec.ofNat 32 T).toNat = T := by rw [BitVec.toNat_ofNat]; omega
  have hS : (BitVec.ofNat 32 S).toNat = S := by rw [BitVec.toNat_ofNat]; omega
  unfold LaceDeque.shrinkShared
  rw [h.word, unpack_pack]
  by_cases hTS : T = S
  · left
    refine ⟨by omega, ?_⟩
    rw [hTS, if_neg (by simp)]
  · right
    have hne : BitVec.ofNat 32 T ≠ BitVec.ofNat 32 S := by
      intro heq
      have := congrArg BitVec.toNat heq
      omega
    have hmid : (midpoint (BitVec.ofNat 32 T) (BitVec.ofNat 32 S)).toNat = T + (S - T) / 2 := by
      rw [toNat_midpoint (by omega), hT, hS]
    rw [if_pos hne]
    have hnew : BitVec.ofNat 32 S -
        (BitVec.ofNat 32 S - midpoint (BitVec.ofNat 32 T) (BitVec.ofNat 32 S)) =
        BitVec.ofNat 32 (T + (S - T) / 2) := by
      apply BitVec.eq_of_toNat_eq
      rw [BitVec.toNat_sub, BitVec.toNat_sub, hmid, hS, BitVec.toNat_ofNat]
      omega
    have hgt : ¬ BitVec.ofNat 32 T > midpoint (BitVec.ofNat 32 T) (BitVec.ofNat 32 S) := by
      rw [gt_iff_lt, BitVec.lt_def, hmid, hT]
      omega
    refine ⟨by omega, T + (S - T) / 2, ?_⟩
    dsimp only
    rw [pack_sub_onSplit, hnew]
    generalize hw : pack _ _ = w
    have hfresh : (unpack w).top = BitVec.ofNat 32 T := by rw [← hw, unpack_pack]
    have hleft : ({ d with mTopSplit := w } : LaceDeque α).recheck (BitVec.ofNat 32 S)
        (midpoint (BitVec.ofNat 32 T) (BitVec.ofNat 32 S)) =
        (false, { d with
          mTopSplit := w
          mWorker := { d.mWorker with osplit := ((T + (S - T) / 2 : ℕ) : ℤ) } }) := by
      unfold LaceDeque.recheck
      simp only [hfresh, if_pos hne, if_neg hgt, hmid]
    refine ⟨_, hleft, ⟨by omega, by omega, hw.symm, h.bottom, ?_, h.flag, h.drained⟩, by omega, rfl⟩
    rw [BitVec.toNat_ofNat, Nat.mod_eq_of_lt (by omega)]

/-- **`pop`** reads the slot before the bottom, if the fast path is not taken beyond the
capacity. -/
theorem pop_spec (cap : Capacity) (h : Shape T S B d) (hroom : B - T ≤ cap.val)
    (hfast : d.mWorker.bottom > d.mWorker.osplit → d.mWorker.bottom ≤ cap.val) :
    (T = B ∧ (d.pop cap).ret = none ∧ (d.pop cap).slots = [] ∧
      (d.pop cap).deque.mArray = d.mArray ∧ ∃ S', Shape T S' B (d.pop cap).deque) ∨
    (T < B ∧ (d.pop cap).ret = some (d.mArray (((B - 1) % cap.val : ℕ) : ℤ)) ∧
      (d.pop cap).slots = [(((B - 1) % cap.val : ℕ) : ℤ)] ∧
      (d.pop cap).deque.mArray = d.mArray ∧ ∃ S', Shape T S' (B - 1) (d.pop cap).deque) := by
  have hcap := cap.val_le
  have hpos := cap.val_pos
  have htop := h.top_le
  have hsplit := h.split_le
  have hbottom := h.bottom
  have hosplit := h.osplit
  rw [BitVec.toNat_ofNat] at hosplit
  unfold LaceDeque.pop
  split
  · -- the fast path: `bottom` is at most the capacity, so the index is its own slot
    rename_i hgt
    have hB := hfast hgt
    obtain ⟨hb, S', hS', hmem⟩ := shape_claimed h (by omega) (by omega)
    have hmod : (B - 1) % cap.val = B - 1 := Nat.mod_eq_of_lt (by omega)
    right
    simp only [hb, hmod]
    exact ⟨by omega, rfl, trivial, hmem, S', hS'⟩
  · rename_i hle
    unfold LaceDeque.popColdPath
    split
    · rename_i hflag
      left
      exact ⟨h.drained hflag, rfl, rfl, rfl, S, h⟩
    · rcases shape_shrinkShared h (by omega) (by omega) with
        ⟨hTB, hgone⟩ | ⟨hTB, S₁, d₁, hleft, hshape, hlt, hmem₁⟩
      · left
        rw [hgone]
        refine ⟨hTB, rfl, rfl, rfl, S, ?_⟩
        exact ⟨htop, hsplit, h.word, hbottom, h.osplit, rfl, fun _ => hTB⟩
      · right
        rw [hleft]
        obtain ⟨hb, S', hS', hmem⟩ := shape_claimed hshape hlt (by omega)
        simp only [hb, maskIndex_eq_mod, Bool.false_eq_true, if_false]
        refine ⟨hTB, ?_, trivial, hmem.trans hmem₁, S', hS'⟩
        rw [← hmem₁]
        rfl

/-- **`steal`** reads the slot of the top, or reports empty. -/
theorem steal_spec [Inhabited α] (cap : Capacity) (h : Shape T S B d) :
    ((d.steal cap).ret.code = .empty ∧ (d.steal cap).slots = [] ∧
      (d.steal cap).deque.mArray = d.mArray ∧ ∃ S', Shape T S' B (d.steal cap).deque) ∨
    (T < B ∧ (d.steal cap).ret = ⟨.none, d.mArray ((T % cap.val : ℕ) : ℤ)⟩ ∧
      (d.steal cap).slots = [((T % cap.val : ℕ) : ℤ)] ∧
      (d.steal cap).deque.mArray = d.mArray ∧ ∃ S', Shape (T + 1) S' B (d.steal cap).deque) := by
  have htop := h.top_le
  have hsplit := h.split_le
  unfold LaceDeque.steal
  split
  · left
    exact ⟨rfl, rfl, rfl, S, h⟩
  · rename_i hflag
    dsimp only
    rw [h.word, unpack_pack]
    dsimp only
    split
    · rename_i hpos
      right
      have hlt : T < S := by
        by_contra hge
        have hTS : T = S := by omega
        rw [hTS, BitVec.sub_self] at hpos
        cases hpos
      have hsucc : BitVec.ofNat 32 T + 1 = BitVec.ofNat 32 (T + 1) := (BitVec.ofNat_add T 1).symm
      unfold LaceDeque.compareExchange
      rw [if_pos h.word, maskIndex_ofNat, hsucc]
      refine ⟨by omega, rfl, rfl, rfl, S, hlt, hsplit, rfl, h.bottom, h.osplit, h.flag, ?_⟩
      intro hs
      exact absurd (h.flag.trans hs) hflag
    · left
      exact ⟨rfl, rfl, rfl, S, htop, hsplit, rfl, h.bottom, h.osplit, h.flag, h.drained⟩

/-! ## Sequences of calls -/

/-- The deque holds `held`, oldest first, at consecutive indices. -/
structure Ring (cap : Capacity) (d : LaceDeque α) (held : List α) : Prop where
  shape : ∃ T S, Shape T S (T + held.length) d ∧ RingHolds cap.val (fun i => d.mArray i) T held
  room : held.length ≤ cap.val

/-- A new deque holds nothing. -/
theorem ring_new (cap : Capacity) (mem : ℤ → α) : Ring cap (LaceDeque.new mem) [] :=
  ⟨⟨0, 0, shape_new mem, ringHolds_nil⟩, Nat.zero_le _⟩

/-- The slots of a call that accesses at most the slot of one index. -/
theorem slots_in_range (cap : Capacity) (i : ℕ) :
    ∀ slot ∈ [((i % cap.val : ℕ) : ℤ)], 0 ≤ slot ∧ slot < cap.val := by
  intro slot hslot
  rw [List.mem_singleton] at hslot
  have := Nat.mod_lt i cap.val_pos
  omega

variable {cap : Capacity} {held : List α}

/-- A push adds an item, and writes within the array. -/
theorem ring_push (h : Ring cap d held) (hroom : held.length < cap.val) (v : α) :
    Ring cap (d.push cap v).deque (held ++ [v]) ∧
      ∀ slot ∈ (d.push cap v).slots, 0 ≤ slot ∧ slot < cap.val := by
  obtain ⟨⟨T, S, hshape, hring⟩, -⟩ := h
  obtain ⟨hslots, hmem, S', hS'⟩ := push_spec cap hshape (by omega) v
  refine ⟨⟨⟨T, S', ?_, ?_⟩, ?_⟩, ?_⟩
  · rwa [List.length_append, List.length_singleton, ← Nat.add_assoc]
  · rw [hmem]
    convert hring.push hroom v using 1
    funext i
    by_cases hi : i = (T + held.length) % cap.val
    · subst hi
      simp
    · rw [Function.update_of_ne hi, Function.update_of_ne (by exact_mod_cast hi)]
  · rw [List.length_append, List.length_singleton]
    exact hroom
  · rw [hslots]
    exact slots_in_range cap _

/-- A pop takes the newest item, where its fast path stays within the array. -/
theorem ring_pop (h : Ring cap d held)
    (hfast : d.mWorker.bottom > d.mWorker.osplit → d.mWorker.bottom ≤ cap.val) :
    (d.pop cap).ret = held.getLast? ∧ Ring cap (d.pop cap).deque held.dropLast ∧
      ∀ slot ∈ (d.pop cap).slots, 0 ≤ slot ∧ slot < cap.val := by
  obtain ⟨⟨T, S, hshape, hring⟩, hroom⟩ := h
  rcases pop_spec cap hshape (by omega) hfast with
    ⟨hTB, hret, hslots, hmem, S', hS'⟩ | ⟨hTB, hret, hslots, hmem, S', hS'⟩
  · have hnil : held = [] := List.length_eq_zero_iff.mp (by omega)
    subst hnil
    refine ⟨hret, ⟨⟨T, S', hS', ringHolds_nil⟩, hroom⟩, ?_⟩
    rw [hslots]
    exact fun _ hslot => absurd hslot (List.not_mem_nil)
  · have hne : held ≠ [] := by
      rintro rfl
      simp at hTB
    refine ⟨?_, ⟨⟨T, S', ?_, ?_⟩, ?_⟩, ?_⟩
    · rw [hret, hring.getLast? hne]
    · have hlen : T + held.length - 1 = T + held.dropLast.length := by
        rw [List.length_dropLast]
        omega
      rwa [hlen] at hS'
    · rw [hmem]
      exact hring.dropLast
    · rw [List.length_dropLast]
      omega
    · rw [hslots]
      exact slots_in_range cap _

/-- A steal takes the oldest item, or finds none. -/
theorem ring_steal [Inhabited α] (h : Ring cap d held) :
    (((d.steal cap).ret.code = .none ∧ held.head? = some (d.steal cap).ret.val ∧
        Ring cap (d.steal cap).deque held.tail) ∨
      ((d.steal cap).ret.code = .empty ∧ Ring cap (d.steal cap).deque held)) ∧
      ∀ slot ∈ (d.steal cap).slots, 0 ≤ slot ∧ slot < cap.val := by
  obtain ⟨⟨T, S, hshape, hring⟩, hroom⟩ := h
  rcases steal_spec cap hshape with
    ⟨hcode, hslots, hmem, S', hS'⟩ | ⟨hTB, hret, hslots, hmem, S', hS'⟩
  · refine ⟨Or.inr ⟨hcode, ⟨⟨T, S', hS', ?_⟩, hroom⟩⟩, ?_⟩
    · rw [hmem]
      exact hring
    · rw [hslots]
      exact fun _ hslot => absurd hslot (List.not_mem_nil)
  · have hne : held ≠ [] := by
      rintro rfl
      simp at hTB
    refine ⟨Or.inl ⟨?_, ?_, ⟨⟨T + 1, S', ?_, ?_⟩, ?_⟩⟩, ?_⟩
    · rw [hret]
    · rw [hret, hring.head? hne]
    · have hlen : T + held.length = T + 1 + held.tail.length := by
        rw [List.length_tail]
        omega
      rwa [hlen] at hS'
    · rw [hmem]
      exact hring.tail
    · rw [List.length_tail]
      omega
    · rw [hslots]
      exact slots_in_range cap _

/-- A push was faithful if what follows is. -/
theorem faithful_push {v : α} {slots : List ℤ} {done : List (Answer α × List ℤ)} :
    Faithful cap held ((.push v, slots) :: done) ↔
      (∀ slot ∈ slots, 0 ≤ slot ∧ slot < cap.val) ∧ Faithful cap (held ++ [v]) done := by
  unfold Faithful
  rw [List.forall_mem_cons, List.map_cons, Answers, and_assoc]

/-- A pop was faithful if it took the newest item. -/
theorem faithful_pop {r : Option α} {slots : List ℤ} {done : List (Answer α × List ℤ)} :
    Faithful cap held ((.pop r, slots) :: done) ↔
      (∀ slot ∈ slots, 0 ≤ slot ∧ slot < cap.val) ∧ r = held.getLast? ∧
        Faithful cap held.dropLast done := by
  unfold Faithful
  rw [List.forall_mem_cons, List.map_cons, Answers, and_assoc, and_left_comm (a := r = _)]

/-- A steal was faithful if it took the oldest item, or found none. -/
theorem faithful_steal {r : StealT α} {slots : List ℤ} {done : List (Answer α × List ℤ)} :
    Faithful cap held ((.steal r, slots) :: done) ↔
      (∀ slot ∈ slots, 0 ≤ slot ∧ slot < cap.val) ∧
        ((r.code = .none ∧ held.head? = some r.val ∧ Faithful cap held.tail done) ∨
          (r.code = .empty ∧ Faithful cap held done)) := by
  unfold Faithful
  rw [List.forall_mem_cons, List.map_cons, Answers]
  tauto

/-- The fast path of `pop` reads the slot of `bottom - 1`, unmasked. -/
theorem pop_slots_of_fast (cap : Capacity) (h : d.mWorker.bottom > d.mWorker.osplit) :
    (d.pop cap).slots = [d.mWorker.bottom - 1] := by
  unfold LaceDeque.pop
  rw [if_pos h]
  rfl

/-- The calls are faithful exactly if the fast pops fit. -/
theorem faithful_calls [Inhabited α] {cs : List (Call α)} (h : Ring cap d held)
    (hfits : Fits cap.val held.length ((d.calls cap cs).map Prod.fst)) :
    Faithful cap held (d.calls cap cs) ↔ FastPopsFit cap d cs := by
  induction cs generalizing d held with
  | nil =>
      refine iff_of_true ⟨?_, trivial⟩ trivial
      exact fun _ hx => absurd hx List.not_mem_nil
  | cons c cs ih =>
      cases c with
      | push v =>
          obtain ⟨hring, hslots⟩ := ring_push h hfits.1 v
          have hrest := ih hring (by rw [List.length_append]; exact hfits.2)
          show Faithful cap held ((.push v, (d.push cap v).slots) :: _) ↔
            (Call.push v = .pop → _) ∧ FastPopsFit cap (d.push cap v).deque cs
          rw [faithful_push, ← hrest]
          exact ⟨fun h => ⟨nofun, h.2⟩, fun h => ⟨hslots, h.2⟩⟩
      | pop =>
          show Faithful cap held ((.pop (d.pop cap).ret, (d.pop cap).slots) :: _) ↔
            (Call.pop = .pop → _) ∧ FastPopsFit cap (d.pop cap).deque cs
          rw [faithful_pop]
          by_cases hfast : d.mWorker.bottom > d.mWorker.osplit → d.mWorker.bottom ≤ cap.val
          · obtain ⟨hret, hring, hslots⟩ := ring_pop h hfast
            have hlen : held.dropLast.length =
                if (d.pop cap).ret.isSome then held.length - 1 else held.length := by
              rw [hret, List.length_dropLast]
              cases held <;> simp
            have hrest := ih hring (by rw [hlen]; exact hfits)
            rw [← hrest]
            exact ⟨fun h => ⟨fun _ => hfast, h.2.2⟩, fun h => ⟨hslots, hret, h.2⟩⟩
          · -- the slot before a bottom beyond the capacity is outside the array
            refine iff_of_false (fun h => hfast fun hgt => ?_) fun h => hfast (h.1 rfl)
            have hslot := h.1 (d.mWorker.bottom - 1)
            rw [pop_slots_of_fast cap hgt] at hslot
            have := hslot List.mem_cons_self
            omega
      | steal =>
          obtain ⟨hret, hslots⟩ := ring_steal h
          show Faithful cap held ((.steal (d.steal cap).ret, (d.steal cap).slots) :: _) ↔
            (Call.steal = .pop → _) ∧ FastPopsFit cap (d.steal cap).deque cs
          rw [faithful_steal]
          rcases hret with ⟨hcode, hval, hring⟩ | ⟨hcode, hring⟩
          · have hfits' : Fits cap.val (if (d.steal cap).ret.code = .none then held.length - 1
                else held.length) (((d.steal cap).deque.calls cap cs).map Prod.fst) := hfits
            rw [if_pos hcode, ← List.length_tail] at hfits'
            rw [← ih hring hfits']
            refine ⟨fun h => ⟨nofun, ?_⟩, fun h => ⟨hslots, Or.inl ⟨hcode, hval, h.2⟩⟩⟩
            rcases h.2 with ⟨-, -, h⟩ | ⟨hempty, -⟩
            · exact h
            · rw [hcode] at hempty
              cases hempty
          · have hfits' : Fits cap.val (if (d.steal cap).ret.code = .none then held.length - 1
                else held.length) (((d.steal cap).deque.calls cap cs).map Prod.fst) := hfits
            rw [if_neg (by rw [hcode]; nofun)] at hfits'
            rw [← ih hring hfits']
            refine ⟨fun h => ⟨nofun, ?_⟩, fun h => ⟨hslots, Or.inr ⟨hcode, h.2⟩⟩⟩
            rcases h.2 with ⟨hnone, -, -⟩ | ⟨-, h⟩
            · rw [hcode] at hnone
              cases hnone
            · exact h

/-- **When the ring buffer is faithful.** For every capacity and every sequence of calls in which
at most the capacity is held, slots and answers are right exactly as long as no `pop` takes its
fast path with `bottom` beyond the capacity. -/
theorem faithful_iff [Inhabited α] (cap : Capacity) (mem : ℤ → α) (cs : List (Call α))
    (hfits : Fits cap.val 0 (((LaceDeque.new mem).calls cap cs).map Prod.fst)) :
    Faithful cap [] ((LaceDeque.new mem).calls cap cs) ↔
      FastPopsFit cap (LaceDeque.new mem) cs :=
  faithful_calls (ring_new cap mem) hfits

/-- The only slot is used again after its item is stolen; the `pop` that finds the second item
there is not a fast one. -/
theorem faithful_iff_reused :
    (LaceDeque.new fun _ => 0).calls oneSlot [.push 1, .steal, .pop, .push 2, .pop] =
      [(.push 1, [0]), (.steal ⟨.none, 1⟩, [0]), (.pop none, []), (.push 2, [0]),
        (.pop (some 2), [0])] ∧
    Faithful oneSlot []
      ((LaceDeque.new fun _ => 0).calls oneSlot [.push 1, .steal, .pop, .push 2, .pop]) := by
  refine ⟨by decide, (faithful_iff oneSlot (fun _ => 0) _ (by decide)).mpr ?_⟩
  exact ⟨by decide, by decide, by decide, by decide, by decide, trivial⟩

/-- A steal moves the only item of a one-slot deque to the index `1`; the next `pop` takes its
fast path and reads `m_array[1]`, which is not a slot. -/
theorem not_faithful_after_steal :
    ¬ ∀ (cap : Capacity) (mem : ℤ → ℕ) (cs : List (Call ℕ)),
      Fits cap.val 0 (((LaceDeque.new mem).calls cap cs).map Prod.fst) →
        Faithful cap [] ((LaceDeque.new mem).calls cap cs) := by
  intro h
  have hfaithful := h oneSlot (fun _ => 0) [.push 1, .steal, .push 2, .pop] (by decide)
  have hslot := hfaithful.1 (.pop (some 0), [1]) (by decide) 1 (by decide)
  exact absurd hslot.2 (by decide)

end Libfork.Deque.Lace
