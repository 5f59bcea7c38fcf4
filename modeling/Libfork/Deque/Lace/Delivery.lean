import Libfork.Deque.Lace.Ring

/-!
# Exactly-once delivery by `lace_deque`

As long as no `push` starts with `bottom` at the capacity or beyond, no slot is used for two
indices that are both wanted: the general invariant of the ring holds, and the slot of an index
is the index itself.
-/

namespace Libfork.Deque.Lace

open Libfork.Found

variable {α : Type} {cap : Capacity} {s : State α}

/-- `bottom` never exceeds the capacity: no `push` starts where it would take it further. -/
def Room (cap : Capacity) (s : State α) : Act α → Prop
  | .push _ => s.deque.mWorker.bottom < cap.val
  | _ => True

instance (cap : Capacity) (s : State α) : (a : Act α) → Decidable (Room cap s a)
  | .push _ => inferInstanceAs (Decidable (s.deque.mWorker.bottom < cap.val))
  | .pop => inferInstanceAs (Decidable True)
  | .owner => inferInstanceAs (Decidable True)
  | .thief _ => inferInstanceAs (Decidable True)

/-! ## Indices below the capacity -/

/-- Every index is its own slot, and keeps its item until it is pushed to again. -/
structure Flat (cap : Capacity) (s : State α) : Prop where
  indices : ∀ x ∈ pushes s.log, x.1 < cap.val
  slots : ∀ i < s.back, (pushes s.log)[s.occ i]? = some (i, s.deque.mArray i)
  reads : ∀ n top k, s.thief n = .read top k → top.toNat < s.top ∧ k = s.occ top.toNat

/-- The items fit into the slots. -/
theorem Flat.back_le (h : Flat cap s) : s.back ≤ cap.val := by
  by_contra hlt
  have hslot := h.slots (s.back - 1) (by omega)
  have hindex := h.indices _ (List.mem_of_getElem? hslot)
  simp only at hindex
  omega

/-- A step that writes no slot, pushes nothing and claims nothing at the front. -/
theorem Flat.grow (h : Flat cap s) {s' : State α}
    (hmem : s'.deque.mArray = s.deque.mArray) (hocc : s'.occ = s.occ)
    (hpushes : pushes s'.log = pushes s.log) (hback : s'.back ≤ s.back)
    (hreads : ∀ n top k, s'.thief n = .read top k → top.toNat < s'.top ∧ k = s.occ top.toNat) :
    Flat cap s' := by
  constructor
  case indices =>
    rw [hpushes]
    exact h.indices
  case slots =>
    rw [hmem, hocc, hpushes]
    exact fun i hi => h.slots i (Nat.lt_of_lt_of_le hi hback)
  case reads =>
    rw [hocc]
    exact hreads

/-- What a step of the owner does to the items. -/
theorem flat_effect (h : Flat cap s) {s' : State α} (he : Effect cap s s') : Flat cap s' := by
  cases he with
  | quiet d pc hmem htop hback hholds hitem =>
      refine h.grow hmem rfl rfl (Nat.le_of_eq hback) ?_
      simp only [State.top, htop]
      exact h.reads
  | claim i pc hpc hnone hback htop =>
      refine h.grow rfl rfl (by simp [Event.pushed]) ?_ h.reads
      rw [back_of_not_inPush (by rcases hpc with rfl | rfl <;> rfl)]
      change i ≤ s.back
      omega
  | deliver d k i v hmem htop hback hholds hitem =>
      refine h.grow hmem rfl (by simp [Event.pushed]) (Nat.le_of_eq hback) ?_
      simp only [State.top, htop]
      exact h.reads
  | empty d hmem htop hback hnone hempty =>
      refine h.grow hmem rfl (by simp [Event.pushed]) (Nat.le_of_eq hback) ?_
      simp only [State.top, htop]
      exact h.reads

/-- What a step of a thief does to the items. -/
theorem flat_thiefEffect (h : Flat cap s) {n : ℕ} {s' : State α}
    (he : ThiefEffect cap s n s') : Flat cap s' := by
  have hothers : ∀ (pc : ThiefPc) (t : ℕ), s.top ≤ t →
      (∀ top k, pc = .read top k → top.toNat < t ∧ k = s.occ top.toNat) →
      ∀ m top k, Function.update s.thief n pc m = .read top k →
        top.toNat < t ∧ k = s.occ top.toNat := by
    intro pc t ht hpc m top k hm
    by_cases hmn : m = n
    · subst hmn
      rw [Function.update_self] at hm
      exact hpc top k hm
    · rw [Function.update_of_ne hmn] at hm
      obtain ⟨hlt, hk⟩ := h.reads m top k hm
      exact ⟨Nat.lt_of_lt_of_le hlt ht, hk⟩
  cases he with
  | quiet d pc hmem hword hworker hholds hread =>
      refine h.grow hmem rfl rfl ?_ (hothers pc _ ?_ fun top k he => absurd he (hread top k))
      · simp only [State.back, hworker]
        exact Nat.le_refl _
      · simp only [State.top, hword]
        exact Nat.le_refl _
  | claim hnone hlt =>
      refine h.grow rfl rfl (by simp [Event.pushed]) (Nat.le_refl _) ?_
      change ∀ m (top : BitVec 32) k, _ → top.toNat < (unpack (pack _ _)).top.toNat ∧ _
      rw [unpack_pack, top_succ hlt]
      refine hothers _ _ (Nat.le_succ _) ?_
      rintro top k ⟨⟩
      exact ⟨Nat.lt_succ_self _, rfl⟩
  | deliver top k hpc =>
      refine h.grow rfl rfl (by simp [Event.pushed]) (Nat.le_refl _) ?_
      exact hothers _ _ (Nat.le_refl _) (by simp)

/-- A `push` that starts below the capacity. -/
theorem flat_pushCall (h : Flat cap s) (hl : Level cap s) (hidle : s.owner = .idle) (v : α)
    (hroom : s.deque.mWorker.bottom < cap.val) : Flat cap (pushCall cap s v) := by
  have hcap := cap.val_le
  have hnn := hl.bottom_nonneg
  have htop := hl.top_le_back
  have hback := back_of_not_inPush (s := s) (by rw [hidle]; rfl)
  have hbot : s.deque.bot.toNat = s.back := toNat_bot hl hidle (by omega)
  have hmask : maskIndex cap s.deque.bot.toNat = s.back := by
    rw [hbot]
    exact maskIndex_of_lt cap (by omega)
  have hlog : (pushCall cap s v).log = s.log ++ [.push s.back v] := by
    change s.log ++ [.push s.deque.bot.toNat v] = _
    rw [hbot]
  have hmem : (pushCall cap s v).deque.mArray = Function.update s.deque.mArray s.back v := by
    change Function.update s.deque.mArray _ v = _
    rw [hmask]
  have hocc : (pushCall cap s v).occ = Function.update s.occ s.back (pushes s.log).length := by
    change Function.update s.occ s.deque.bot.toNat _ = _
    rw [hbot]
  constructor
  case indices =>
    rw [hlog, pushes_snoc]
    intro x hx
    rcases List.mem_append.mp hx with hx | hx
    · exact h.indices x hx
    · obtain rfl : x = (s.back, v) := by simpa [Event.pushed] using hx
      change s.back < cap.val
      omega
  case slots =>
    rw [back_pushCall v hidle, hlog, hmem, hocc]
    intro i hi
    by_cases hlast : i = s.back
    · subst hlast
      rw [Function.update_self, Function.update_self]
      exact pushes_push_last s.log s.back v
    · rw [Function.update_of_ne hlast, Function.update_of_ne (by omega)]
      exact pushes_snoc_of_some s.log _ (h.slots i (by omega))
  case reads =>
    rw [hocc]
    intro n top k hn
    obtain ⟨hlt, hk⟩ := h.reads n top k hn
    refine ⟨hlt, ?_⟩
    rw [Function.update_of_ne (by omega)]
    exact hk

/-! ## Every run -/

/-- A new deque is flat. -/
theorem flat_new (cap : Capacity) (mem : ℤ → α) : Flat cap (State.new mem) := by
  constructor
  case indices =>
    intro x hx
    cases hx
  case slots =>
    intro i hi
    exact absurd hi (Nat.not_lt_zero i)
  case reads =>
    intro n top k hn
    cases hn

/-- One step of any thread. -/
theorem flat_step (h : Flat cap s) (hl : Level cap s) {a : Act α} (hroom : Room cap s a)
    {s' : State α} (hs : (machine cap).step s a = some s') : Flat cap s' := by
  unfold machine at hs
  cases a with
  | push v =>
      simp only at hs
      split at hs
      · rename_i hidle
        cases hs
        exact flat_pushCall h hl hidle v hroom
      · cases hs
  | pop =>
      simp only at hs
      split at hs
      · rename_i hidle
        cases hs
        exact flat_effect h (level_popCall hl hidle).2
      · cases hs
  | owner => exact flat_effect h (level_ownerStep hl hs).2
  | thief n =>
      cases hs
      exact flat_thiefEffect h (thiefEffect_of_thiefStep hl n)

/-- Below the capacity no slot is wanted twice. -/
theorem kept_of_room (h : Flat cap s) (hl : Level cap s) {a : Act α} (hroom : Room cap s a)
    {s' : State α} (hs : (machine cap).step s a = some s') : Kept cap s a ∧ FastFits cap s a := by
  have hback := h.back_le
  have hnn := hl.bottom_nonneg
  cases a with
  | push v =>
      have hcap := cap.val_le
      have hroom' : s.deque.mWorker.bottom < cap.val := hroom
      have hidle : s.owner = .idle := by
        unfold machine at hs
        simp only at hs
        split at hs
        · assumption
        · cases hs
      have hbot : s.deque.bot.toNat = s.back := toNat_bot hl hidle (by omega)
      have hb := back_of_not_inPush (s := s) (by rw [hidle]; rfl)
      refine ⟨⟨?_, ?_, ?_⟩, trivial⟩
      · change pending s.log < cap.val
        rw [hl.pending_eq]
        omega
      · change s.deque.mWorker.bottom + 1 < 2 ^ 32
        omega
      · intro n top k hn hslot
        have hlt := (h.reads n top k hn).1
        have htop := hl.top_le_back
        rw [maskIndex_of_lt cap (by omega), maskIndex_of_lt cap (by omega)] at hslot
        omega
  | pop =>
      refine ⟨⟨trivial, trivial, trivial⟩, ?_⟩
      intro _
      have hle : s.deque.mWorker.bottom.toNat ≤ s.back := Nat.le_add_right _ _
      omega
  | owner => exact ⟨⟨trivial, trivial, trivial⟩, trivial⟩
  | thief n => exact ⟨⟨trivial, trivial, trivial⟩, trivial⟩

/-- Where no slot is used twice, the masks change nothing. -/
theorem inv_of_flat (h : RingInv cap s) (hflat : Flat cap s) : Inv cap s := by
  have hitem : s.owner.RingItem cap (pushes s.log) s.deque.mArray s.deque.mWorker.bottom := h.item
  constructor
  case arith => exact h.inSlots.level.arith
  case back_le => exact hflat.back_le
  case slots => exact hflat.slots
  case item =>
    cases hpc : s.owner with
    | coldRead k =>
        rw [hpc] at hitem
        have hnn := h.inSlots.level.bottom_nonneg
        have hpushed : (pushes s.log)[k]? =
            some (s.deque.mWorker.bottom.toNat,
              s.deque.mArray (s.deque.mWorker.bottom.toNat % cap.val : ℕ)) := hitem
        have hlt : s.deque.mWorker.bottom.toNat < cap.val :=
          hflat.indices _ (List.mem_of_getElem? hpushed)
        rw [Nat.mod_eq_of_lt hlt, Int.toNat_of_nonneg hnn] at hpushed
        exact ⟨by omega, hpushed⟩
    | _ =>
        rw [hpc] at hitem
        exact hitem
  case thieves =>
    intro n
    cases hpc : s.thief n with
    | exchange v => exact h.inSlots.level.thieves n v hpc
    | read top k => exact hflat.reads n top k hpc
    | _ => trivial
  case ideal => exact h.ideal

/-- One step below the capacity. -/
theorem room_step (h : RingInv cap s ∧ Flat cap s) {a : Act α} (hroom : Room cap s a)
    {s' : State α} (hs : (machine cap).step s a = some s') : RingInv cap s' ∧ Flat cap s' := by
  obtain ⟨hring, hflat⟩ := h
  have hl := hring.inSlots.level
  obtain ⟨hkept, hfast⟩ := kept_of_room hflat hl hroom hs
  exact ⟨ring_step hring hkept hfast hs, flat_step hflat hl hroom hs⟩

/-- The invariants of the ring hold in every state of every run that respects the capacity. -/
theorem flat_run {mem : ℤ → α} {as : List (Act α)}
    (h : (machine cap).Run (Room cap) (State.new mem) as s) : RingInv cap s ∧ Flat cap s :=
  h.invariant (P := fun t => RingInv cap t ∧ Flat cap t)
    (fun _ _ _ ht hroom hs => room_step ht hroom hs) ⟨ringInv_new cap mem, flat_new cap mem⟩

/-- The invariant holds in every state of every run that respects the capacity. -/
theorem inv_run {mem : ℤ → α} {as : List (Act α)}
    (h : (machine cap).Run (Room cap) (State.new mem) as s) : Inv cap s :=
  inv_of_flat (flat_run h).1 (flat_run h).2

/-- **Every interleaving of one owner and any number of thieves delivers exactly once**, while
no `push` starts with `bottom` at the capacity or beyond. -/
theorem exactlyOnce_of_run (cap : Capacity) (mem : ℤ → α) (as : List (Act α)) (t : State α)
    (h : (machine cap).Run (Room cap) (State.new mem) as t) : ExactlyOnce Thread.side t.log :=
  (inv_run h).ideal.exactlyOnce

/-- A thief claims the item of a `push` that has not returned; the `pop` after it reports empty
before the thief has read the slot. -/
theorem exactlyOnce_of_run_overtaken :
    ∃ t : State ℕ, (machine twoSlots).Run (Room twoSlots) (State.new fun _ => 0)
        [.push 7, .owner, .owner, .thief 0, .thief 0, .thief 0, .owner, .owner, .pop, .owner,
          .thief 0] t ∧
      t.log = [.push 0 7, .claim (.thief 0) 0, .empty, .deliver (.thief 0) 0 0 7] ∧
      ExactlyOnce Thread.side t.log := by
  have h : ((machine twoSlots).exec (Room twoSlots) (State.new fun _ => 0)
      [.push 7, .owner, .owner, .thief 0, .thief 0, .thief 0, .owner, .owner, .pop, .owner,
        .thief 0]).map State.log =
      some [.push 0 7, .claim (.thief 0) 0, .empty, .deliver (.thief 0) 0 0 7] := by
    decide
  obtain ⟨t, ht, hlog⟩ := Option.map_eq_some_iff.mp h
  have hrun := Machine.run_iff_exec.mpr ht
  exact ⟨t, hrun, hlog, exactlyOnce_of_run twoSlots _ _ t hrun⟩

end Libfork.Deque.Lace
