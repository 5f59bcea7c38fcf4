import Libfork.Deque.Lace.Level

/-!
# The private part of `lace_deque`

Over runs of any number of calls the owner keeps `bottom` and `osplit` as 64-bit indices, the
packed word keeps top and split as 32-bit ones.

* `PrivateExact` — what the owner takes for its private part is the part that is not shared.
* **`private_of_run`** — it is, between any two calls of the owner, for as long as no `push`
  publishes a shared part that ends at `2 ^ 32`.
* **`not_private_after_wrap`** — after the `2 ^ 32`-nd push of a deque that is stolen from as fast
  as it is pushed to, the split is zero and `bottom` is not.

Source: `deque_lace.hpp`, `push`, `pop`, `shrink_shared`, `grow_shared`, `steal`.
-/

namespace Libfork.Deque.Lace

open Libfork.Found

variable {α : Type} {cap : Capacity} {s : State α}

/-! ## What is private -/

/-- The index `i` is in the part that the thieves can claim. -/
def LaceDeque.Shared (d : LaceDeque α) (i : BitVec 32) : Prop :=
  i - (unpack d.mTopSplit).top < (unpack d.mTopSplit).split - (unpack d.mTopSplit).top

instance (d : LaceDeque α) (i : BitVec 32) : Decidable (d.Shared i) :=
  inferInstanceAs (Decidable (_ < _))

/-- How many items the thieves can claim. -/
def LaceDeque.shared (d : LaceDeque α) : ℕ :=
  ((unpack d.mTopSplit).split - (unpack d.mTopSplit).top).toNat

/-- `bottom - osplit`, which the fast path of `pop` compares with zero, counts the items that are
held and not shared. -/
structure PrivateExact (s : State α) : Prop where
  /-- It is the difference of the 32-bit indices. -/
  low : s.deque.mWorker.bottom - s.deque.mWorker.osplit =
    (s.deque.bot - (unpack s.deque.mTopSplit).split).toNat
  /-- It is the number of the items that are held and not shared. -/
  held : s.deque.mWorker.bottom - s.deque.mWorker.osplit =
    (pending s.log : ℤ) - s.deque.shared
  /-- The item that the fast path would take is not shared. -/
  fast : s.deque.mWorker.bottom > s.deque.mWorker.osplit → ¬ s.deque.Shared (s.deque.bot - 1)

/-- Between two calls of the owner, while `o_allstolen` is false. -/
def PrivateOk (s : State α) : Prop :=
  s.owner = .idle → s.deque.mWorker.oAllstolen = false → PrivateExact s

/-- `b - c` items at the back of at most `2 ^ 31` items. -/
theorem privateExact_of_parted (h : Level cap s) (hidle : s.owner = .idle)
    (hp : Parted s.top s.split s.deque.mWorker) : PrivateExact s := by
  have hcap := cap.val_le
  have hroom := h.room
  have hpend := h.pending_eq
  have htop := hp.top_le
  have hsplit := hp.split_le
  have hos := hp.osplit
  have hback := back_of_not_inPush (s := s) (by rw [hidle]; rfl)
  have hlt : s.split < 2 ^ 32 := (unpack s.deque.mTopSplit).split.isLt
  have htop' : (unpack s.deque.mTopSplit).top.toNat = s.top := rfl
  have hsplit' : (unpack s.deque.mTopSplit).split.toNat = s.split := rfl
  have hbot : s.deque.bot.toNat = s.back % 2 ^ 32 := by
    unfold LaceDeque.bot
    rw [BitVec.toNat_ofInt]
    omega
  have hpred : (s.deque.bot - 1).toNat = (s.back + (2 ^ 32 - 1)) % 2 ^ 32 := by
    rw [BitVec.toNat_sub, hbot]
    simp only [BitVec.ofNat_eq_ofNat, BitVec.toNat_ofNat]
    omega
  have hshared : s.deque.shared = s.split - s.top := by
    unfold LaceDeque.shared
    rw [BitVec.toNat_sub, htop', hsplit']
    omega
  constructor
  case low =>
    rw [BitVec.toNat_sub, hbot, hsplit']
    omega
  case held =>
    rw [hshared, hpend]
    omega
  case fast =>
    intro hgt hin
    have hin' : (s.deque.bot - 1 - (unpack s.deque.mTopSplit).top).toNat < s.deque.shared :=
      BitVec.lt_def.mp hin
    rw [BitVec.toNat_sub, hpred, htop', hshared] at hin'
    omega

/-! ## Every run -/

/-- No `push` on an all-stolen deque has `2 ^ 32` for the end of the part that it shares. -/
def Below (s : State α) : Act α → Prop
  | .push _ => s.deque.mWorker.oAllstolen = true → s.deque.mWorker.bottom ≠ 2 ^ 32 - 1
  | _ => True

instance (s : State α) : (a : Act α) → Decidable (Below s a)
  | .push _ => inferInstanceAs (Decidable (s.deque.mWorker.oAllstolen = true → _))
  | .pop => inferInstanceAs (Decidable True)
  | .owner => inferInstanceAs (Decidable True)
  | .thief _ => inferInstanceAs (Decidable True)

/-- One step of any thread. -/
theorem level_step (h : Level cap s) {a : Act α} (hheld : Held cap s a) (hbelow : Below s a)
    {s' : State α} (hs : (machine cap).step s a = some s') : Level cap s' := by
  unfold machine at hs
  cases a with
  | push v =>
      simp only at hs
      split at hs
      · rename_i hidle
        cases hs
        exact level_pushCall h hidle v hheld hbelow
      · cases hs
  | pop =>
      simp only at hs
      split at hs
      · rename_i hidle
        cases hs
        exact (level_popCall h hidle).1
      · cases hs
  | owner => exact (level_ownerStep h hs).1
  | thief n =>
      cases hs
      exact level_thiefStep h n

/-- **The fast path of `pop` stays off the shared part** between any two calls of the owner, over
any number of calls, while no `push` on an all-stolen deque has `2 ^ 32` for the end of the part
that it shares. -/
theorem private_of_run (cap : Capacity) (mem : ℤ → α) (as : List (Act α)) (t : State α)
    (h : (machine cap).Run (fun s a => Held cap s a ∧ Below s a) (State.new mem) as t) :
    PrivateOk t := by
  have hlevel : Level cap t :=
    h.invariant (fun _ _ _ h hok hs => level_step h hok.1 hok.2 hs) (level_new cap mem)
  intro hidle hflag
  have harith := hlevel.arith
  rw [hidle] at harith
  rcases harith with hp | ⟨-, hflag'⟩
  · exact privateExact_of_parted hlevel hidle hp
  · exact absurd hflag' (by rw [hflag]; exact Bool.false_ne_true)

/-- The first of two items is shared, the second is private. -/
theorem private_of_run_two :
    ∃ t : State ℕ, (machine twoSlots).Run (fun s a => Held twoSlots s a ∧ Below s a)
        (State.new fun _ => 0)
        [.push 7, .owner, .owner, .owner, .owner, .push 8, .owner, .owner] t ∧
      t.deque.mWorker = ⟨2, 1, false⟩ ∧ PrivateOk t := by
  have h : ((machine twoSlots).exec (fun s a => Held twoSlots s a ∧ Below s a)
      (State.new fun _ => 0)
      [.push 7, .owner, .owner, .owner, .owner, .push 8, .owner, .owner]).map
        (fun t : State ℕ => t.deque.mWorker) = some ⟨2, 1, false⟩ := by
    decide +kernel
  obtain ⟨t, ht, hworker⟩ := Option.map_eq_some_iff.mp h
  have hrun := Machine.run_iff_exec.mpr ht
  exact ⟨t, hrun, hworker, private_of_run twoSlots _ _ t hrun⟩

/-! ## The wrap -/

/-- A deque of which all `i` items ever pushed have been stolen, and nobody is using it. -/
structure Spent (i : ℕ) (s : State α) : Prop where
  word : s.deque.mTopSplit = pack (BitVec.ofNat 32 i) (BitVec.ofNat 32 i)
  req : s.deque.mSplitreq = false
  worker : s.deque.mWorker = ⟨i, i, true⟩
  owner : s.owner = .idle
  thief : s.thief 0 = .idle
  count : (pushes s.log).length = (claims s.log).length

/-- The same deque after one `push`. -/
structure Shared (i : ℕ) (s : State α) : Prop where
  word : s.deque.mTopSplit = pack (BitVec.ofNat 32 i) (BitVec.ofNat 32 i + 1)
  stolen : s.deque.mAllstolen = false
  req : s.deque.mSplitreq = false
  worker : s.deque.mWorker = ⟨i + 1, (BitVec.ofNat 32 i + 1).toNat, false⟩
  owner : s.owner = .idle
  thief : s.thief 0 = .idle
  count : (pushes s.log).length = (claims s.log).length + 1

/-- A `push` that finds all stolen, and no request. -/
def pushActs (v : α) : List (Act α) := [.push v, .owner, .owner, .owner, .owner]

/-- A `steal` that succeeds, and a `pop` that finds nothing left. -/
def drainActs : List (Act α) := [.thief 0, .thief 0, .thief 0, .thief 0, .pop, .owner]

/-- A push into a deque that is all stolen shares its item. -/
theorem spent_push {i : ℕ} (h : Spent i s) (v : α) :
    ∃ t, (machine cap).Run (Held cap) s (pushActs v) t ∧ Shared i t := by
  have hbot : s.deque.bot = BitVec.ofNat 32 i := by
    unfold LaceDeque.bot
    rw [h.worker]
    rfl
  have hcall : (machine cap).step s (.push v) = some { s with
      deque := s.deque.write (maskIndex cap s.deque.bot.toNat) v
      owner := .pushWord s.deque.bot
      occ := Function.update s.occ s.deque.bot.toNat (pushes s.log).length
      log := s.log ++ [.push s.deque.bot.toNat v] } := by
    simp [machine, pushCall, h.owner, h.worker]
  have hheld : Held cap s (.push v) := by
    change (pushes s.log).length - (claims s.log).length < cap.val
    rw [h.count, Nat.sub_self]
    exact cap.val_pos
  have hcheck : ∀ t : State α, t.owner = .pushCheck s.deque.bot → t.deque.mSplitreq = false →
      (machine cap).step t .owner = some
        { t with deque := t.deque.own (s.deque.bot + 1), owner := .pushPublish } := by
    intro t hpc hreq
    simp [machine, ownerStep, hpc, hreq]
  refine ⟨_, ⟨hheld, _, hcall, trivial, _, rfl, trivial, _, rfl, trivial, _,
    hcheck _ rfl h.req, trivial, _, rfl, rfl⟩, ?_⟩
  constructor
  case word =>
    rw [← hbot]
    rfl
  case stolen => rfl
  case req => exact h.req
  case worker =>
    rw [← hbot]
    change Worker.mk (s.deque.mWorker.bottom + 1) _ _ = _
    rw [h.worker]
    rfl
  case owner => rfl
  case thief => exact h.thief
  case count =>
    change (pushes (s.log ++ [_])).length = (claims (s.log ++ [_])).length + 1
    rw [pushes_snoc, claims_snoc]
    simp [Event.pushed, Event.claimed, h.count]

/-- A steal and a pop take it. -/
theorem shared_drain {i : ℕ} (h : Shared i s) (hi : i + 1 < 2 ^ 32) :
    ∃ t, (machine cap).Run (Held cap) s drainActs t ∧ Spent (i + 1) t := by
  have hsucc : BitVec.ofNat 32 i + 1 = BitVec.ofNat 32 (i + 1) := by
    rw [BitVec.ofNat_add]
    rfl
  have hword : unpack s.deque.mTopSplit = ⟨BitVec.ofNat 32 i, BitVec.ofNat 32 (i + 1)⟩ := by
    rw [h.word, unpack_pack, hsucc]
  have hpos : 0 < (BitVec.ofNat 32 (i + 1) - BitVec.ofNat 32 i).toInt := by
    rw [← hsucc, BitVec.add_comm, BitVec.add_sub_cancel]
    decide
  have hos : s.deque.mWorker.osplit = (i + 1 : ℕ) := by
    rw [h.worker, hsucc, BitVec.toNat_ofNat, Nat.mod_eq_of_lt hi]
  have hbottom : s.deque.mWorker.bottom = (i + 1 : ℕ) := by
    rw [h.worker]
    rfl
  have hflag : s.deque.mWorker.oAllstolen = false := by
    rw [h.worker]
  have hload : (machine cap).step s (.thief 0) =
      some { s with thief := Function.update s.thief 0 .load } := by
    simp [machine, thiefStep, h.thief, h.stolen]
  have hexchange : (machine cap).step { s with thief := Function.update s.thief 0 .load }
      (.thief 0) =
      some { s with thief := Function.update s.thief 0 (.exchange s.deque.mTopSplit) } := by
    simp [machine, thiefStep, hword, hpos, -BitVec.toInt_sub]
  have hclaim : (machine cap).step
      { s with thief := Function.update s.thief 0 (.exchange s.deque.mTopSplit) } (.thief 0) =
      some { s with
        deque :=
          { s.deque with
            mTopSplit := pack (BitVec.ofNat 32 (i + 1)) (BitVec.ofNat 32 (i + 1)) }
        thief := Function.update s.thief 0
          (.read (BitVec.ofNat 32 i) (s.occ (BitVec.ofNat 32 i).toNat))
        log := s.log ++ [.claim (.thief 0) (s.occ (BitVec.ofNat 32 i).toNat)] } := by
    simp only [machine, thiefStep, hword, hsucc, Function.update_self, if_pos,
      Function.update_idem]
  have hread : ∀ t : State α, ∀ top k, t.thief 0 = .read top k →
      (machine cap).step t (.thief 0) = some { t with
        thief := Function.update t.thief 0 .idle
        log := t.log ++
          [.deliver (.thief 0) k top.toNat (t.deque.mArray (maskIndex cap top.toNat))] } := by
    intro t top k hpc
    simp [machine, thiefStep, hpc]
  have hpop : ∀ t : State α, t.owner = .idle → t.deque.mWorker = s.deque.mWorker →
      t.deque.mTopSplit = pack (BitVec.ofNat 32 (i + 1)) (BitVec.ofNat 32 (i + 1)) →
      (machine cap).step t .pop = some { t with owner := .shrinkEmpty } := by
    intro t hpc hworker hword'
    simp [machine, popCall, hpc, hworker, hbottom, hos, hflag, hword']
  refine ⟨_, ⟨trivial, _, hload, trivial, _, hexchange, trivial, _, hclaim, trivial, _,
    hread _ (BitVec.ofNat 32 i) (s.occ (BitVec.ofNat 32 i).toNat) (by simp), trivial, _,
    hpop _ h.owner rfl rfl, trivial, _, rfl, rfl⟩, ?_⟩
  constructor
  case word => rfl
  case req => exact h.req
  case worker =>
    change Worker.mk s.deque.mWorker.bottom s.deque.mWorker.osplit true = _
    rw [hbottom, hos]
  case owner => rfl
  case thief => simp
  case count =>
    change (pushes (s.log ++ [_] ++ [_] ++ [_])).length =
      (claims (s.log ++ [_] ++ [_] ++ [_])).length
    simp only [pushes_snoc, claims_snoc]
    simp [Event.pushed, Event.claimed, h.count]

/-- The `i` rounds of a `push`, a `steal` and a `pop`. -/
def rounds (v : α) : ℕ → List (Act α)
  | 0 => []
  | i + 1 => rounds v i ++ (pushActs v ++ drainActs)

/-- So it goes, round after round. -/
theorem spent_rounds (cap : Capacity) (mem : ℤ → α) (v : α) (i : ℕ) (hi : i < 2 ^ 32) :
    ∃ t, (machine cap).Run (Held cap) (State.new mem) (rounds v i) t ∧ Spent i t := by
  induction i with
  | zero => exact ⟨_, rfl, rfl, rfl, rfl, rfl, rfl, rfl⟩
  | succ i ih =>
      obtain ⟨s, hs, hspent⟩ := ih (Nat.lt_of_succ_lt hi)
      obtain ⟨s', hs', hshared⟩ := spent_push hspent v
      obtain ⟨t, ht, hspent'⟩ := shared_drain hshared hi
      exact ⟨t, Machine.run_append.mpr ⟨s, hs, Machine.run_append.mpr ⟨s', hs', ht⟩⟩, hspent'⟩

/-- The split is zero, and `bottom` is `2 ^ 32`. -/
theorem not_privateOk_of_wrapped {i : ℕ} (h : Shared i s) (hi : i + 1 = 2 ^ 32) :
    ¬ PrivateOk s := by
  intro hok
  have hflag : s.deque.mWorker.oAllstolen = false := by rw [h.worker]
  have hsplit : BitVec.ofNat 32 i + 1 = 0 := by
    have hsucc : BitVec.ofNat 32 (i + 1) = BitVec.ofNat 32 i + 1 := BitVec.ofNat_add i 1
    rw [← hsucc, hi]
    rfl
  have hbottom : s.deque.mWorker.bottom = 2 ^ 32 := by
    rw [h.worker]
    change (i : ℤ) + 1 = 2 ^ 32
    omega
  have hos : s.deque.mWorker.osplit = 0 := by
    rw [h.worker, hsplit]
    rfl
  have hlow := (hok h.owner hflag).low
  unfold LaceDeque.bot at hlow
  rw [hbottom, hos, h.word, unpack_pack, hsplit] at hlow
  change (2 ^ 32 - 0 : ℤ) = (BitVec.ofInt 32 (2 ^ 32) - 0).toNat at hlow
  exact absurd hlow (by decide)

/-- **The private part is not always exact.** With one slot and one item held at a time, the
`2 ^ 32`-nd `push` publishes a split of zero, and leaves `osplit` at zero, `bottom` at `2 ^ 32`. -/
theorem not_private_after_wrap :
    ¬ ∀ (cap : Capacity) (mem : ℤ → ℕ) (as : List (Act ℕ)) (t : State ℕ),
      (machine cap).Run (Held cap) (State.new mem) as t → PrivateOk t := by
  intro h
  obtain ⟨i, hi⟩ : ∃ i, i + 1 = 2 ^ 32 := ⟨2 ^ 32 - 1, rfl⟩
  obtain ⟨s, hs, hspent⟩ := spent_rounds oneSlot (fun _ => 0) 7 i (hi ▸ Nat.lt_succ_self i)
  obtain ⟨t, ht, hshared⟩ := spent_push hspent 7
  exact not_privateOk_of_wrapped hshared hi
    (h oneSlot (fun _ => 0) _ t (Machine.run_append.mpr ⟨s, hs, ht⟩))

end Libfork.Deque.Lace
