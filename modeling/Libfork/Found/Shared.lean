import Mathlib.Data.Set.Card
import Mathlib.Logic.Function.Basic

/-!
# Shared ownership by counting

`Shared η ι` are pointers `η` that share what they point at, objects of `ι`: an object counts the
pointers to it, and the one that lets go last frees it.

* `Shared.make`, `Shared.copy`, `Shared.move`, `Shared.reset`, `Shared.assign` — the operations
  on pointers. `assign` is the assignment of a moved pointer: what the destination pointed at is
  let go after the move.
* `Counted` — the count of an object is the number of pointers to it, what has a count has not
  been freed, and nothing has been freed twice.
* **`Counted.live`**, **`Counted.freed_iff`** — a pointer that is not null points at an object
  that has not been freed, and an object is freed as soon as no pointer points at it.

Nothing here is about a particular program.
-/

namespace Libfork.Found

variable {η ι : Type*}

/-- Pointers, and the objects they share. -/
structure Shared (η ι : Type*) where
  ptr : η → Option ι
  uses : ι → ℕ
  /-- Ghost: the objects that were made. -/
  made : List ι
  /-- Ghost: the objects that were freed. -/
  freed : List ι

namespace Shared

/-- Null pointers only. -/
def empty : Shared η ι := ⟨fun _ => none, fun _ => 0, [], []⟩

/-- The pointers to an object. -/
def owners (s : Shared η ι) (i : ι) : Set η := {h | s.ptr h = some i}

/-- The owners of a cell point to it. -/
@[simp] theorem mem_owners {s : Shared η ι} {i : ι} {h : η} :
    h ∈ s.owners i ↔ s.ptr h = some i := Iff.rfl

section operations

variable [DecidableEq η] [DecidableEq ι]

/-- One pointer to `i` is gone. -/
def drop (s : Shared η ι) (i : ι) : Shared η ι :=
  { s with
    uses := Function.update s.uses i (s.uses i - 1)
    freed := if s.uses i = 1 then s.freed ++ [i] else s.freed }

/-- The null pointer `h` points at a new object. -/
def make (s : Shared η ι) (h : η) (i : ι) : Shared η ι :=
  { s with
    ptr := Function.update s.ptr h (some i)
    uses := Function.update s.uses i 1
    made := s.made ++ [i] }

/-- The null pointer `h'` becomes a copy of `h`. -/
def copy (s : Shared η ι) (h h' : η) : Shared η ι :=
  match s.ptr h with
  | none => s
  | some i => { s with
      ptr := Function.update s.ptr h' (some i)
      uses := Function.update s.uses i (s.uses i + 1) }

/-- `h'` takes what `h` points at. -/
def move (s : Shared η ι) (h h' : η) : Shared η ι :=
  { s with ptr := Function.update (Function.update s.ptr h none) h' (s.ptr h) }

/-- `h` becomes null. -/
def reset (s : Shared η ι) (h : η) : Shared η ι :=
  match s.ptr h with
  | none => s
  | some i => { s with ptr := Function.update s.ptr h none }.drop i

/-- `h'` takes what `h` points at, and lets go of what it pointed at. -/
def assign (s : Shared η ι) (h h' : η) : Shared η ι :=
  if h = h' then s
  else
    match s.ptr h' with
    | none => s.move h h'
    | some i => (s.move h h').drop i

variable {s : Shared η ι} {h h' : η} {i : ι}

/-- The new owner points to the new cell. -/
@[simp] theorem ptr_make : (s.make h i).ptr = Function.update s.ptr h (some i) := rfl

/-- The new cell has one owner. -/
@[simp] theorem uses_make : (s.make h i).uses = Function.update s.uses i 1 := rfl

/-- The new cell has been made. -/
@[simp] theorem made_make : (s.make h i).made = s.made ++ [i] := rfl

/-- Nothing is freed. -/
@[simp] theorem freed_make : (s.make h i).freed = s.freed := rfl

omit [DecidableEq ι] in
/-- The pointer goes over. -/
@[simp] theorem ptr_move :
    (s.move h h').ptr = Function.update (Function.update s.ptr h none) h' (s.ptr h) := rfl

omit [DecidableEq ι] in
/-- No cell is made. -/
@[simp] theorem made_move : (s.move h h').made = s.made := rfl

omit [DecidableEq η] in
/-- A count that goes down moves no pointer. -/
@[simp] theorem ptr_drop : (s.drop i).ptr = s.ptr := rfl

omit [DecidableEq η] in
/-- It makes no cell. -/
@[simp] theorem made_drop : (s.drop i).made = s.made := rfl

/-- A null pointer becomes a copy, a null one if `h` is null. -/
theorem ptr_copy (hp : s.ptr h' = none) :
    (s.copy h h').ptr = Function.update s.ptr h' (s.ptr h) := by
  unfold copy
  cases hph : s.ptr h with
  | none => exact (Function.update_eq_self_iff.mpr hp.symm).symm
  | some i => rfl

/-- A copy makes no cell. -/
@[simp] theorem made_copy : (s.copy h h').made = s.made := by
  unfold copy
  split <;> rfl

/-- The pointer is null. -/
@[simp] theorem ptr_reset : (s.reset h).ptr = Function.update s.ptr h none := by
  unfold reset
  cases hp : s.ptr h with
  | none => exact (Function.update_eq_self_iff.mpr hp.symm).symm
  | some i => rfl

/-- No cell is made. -/
@[simp] theorem made_reset : (s.reset h).made = s.made := by
  unfold reset
  split <;> rfl

/-- Both pointers after an assignment of a moved one. -/
theorem ptr_assign (hne : h ≠ h') :
    (s.assign h h').ptr = Function.update (Function.update s.ptr h none) h' (s.ptr h) := by
  unfold assign
  rw [if_neg hne]
  split <;> rfl

/-- Assigning a pointer to itself does nothing. -/
@[simp] theorem assign_self : s.assign h h = s := if_pos rfl

/-- No cell is made. -/
@[simp] theorem made_assign : (s.assign h h').made = s.made := by
  unfold assign
  split_ifs
  · rfl
  · split <;> rfl

end operations

end Shared

open Shared

/-! ## What the operations keep -/

/-- The counts are right. -/
structure Counted (s : Shared η ι) : Prop where
  finite : ∀ i, (s.owners i).Finite
  count : ∀ i, (s.owners i).ncard = s.uses i
  freed : ∀ i ∈ s.freed, i ∈ s.made ∧ s.uses i = 0
  nodup : s.freed.Nodup
  made : ∀ i, i ∈ s.made → s.uses i = 0 → i ∈ s.freed
  used : ∀ i, 0 < s.uses i → i ∈ s.made

variable {s s' : Shared η ι} {h h' : η} {i j : ι}

/-- What a pointer points at is in use. -/
theorem Counted.uses_pos (hs : Counted s) (hp : s.ptr h = some i) : 0 < s.uses i := by
  rw [← hs.count i, Set.ncard_pos (hs.finite i)]
  exact ⟨h, hp⟩

/-- **What a pointer points at has not been freed.** -/
theorem Counted.live (hs : Counted s) (hp : s.ptr h = some i) : i ∈ s.made ∧ i ∉ s.freed := by
  have hpos := hs.uses_pos hp
  refine ⟨hs.used i hpos, fun hf => ?_⟩
  rw [(hs.freed i hf).2] at hpos
  exact Nat.lt_irrefl 0 hpos

/-- **An object is freed as soon as no pointer points at it.** -/
theorem Counted.freed_iff (hs : Counted s) (hi : i ∈ s.made) :
    i ∈ s.freed ↔ ∀ h, s.ptr h ≠ some i := by
  constructor
  · intro hf h hp
    exact (hs.live hp).2 hf
  · intro hnone
    refine hs.made i hi ?_
    rw [← hs.count i, Set.ncard_eq_zero (hs.finite i)]
    exact Set.eq_empty_of_forall_notMem hnone

/-- Nothing is counted at first. -/
theorem counted_empty : Counted (Shared.empty : Shared η ι) where
  finite _ := by
    refine Set.Finite.subset Set.finite_empty fun h hp => ?_
    cases hp
  count i := by
    have hset : (Shared.empty : Shared η ι).owners i = ∅ :=
      Set.eq_empty_of_forall_notMem fun _ hp => by cases hp
    rw [hset, Set.ncard_empty]
    rfl
  freed _ hi := absurd hi List.not_mem_nil
  nodup := List.nodup_nil
  made _ hi := absurd hi List.not_mem_nil
  used _ hpos := absurd hpos (Nat.lt_irrefl 0)

/-- The pointers to an object are the same. -/
theorem Counted.of_owners (hs : Counted s) (howners : ∀ i, (s'.owners i).Finite ∧
    (s'.owners i).ncard = (s.owners i).ncard) (huses : s'.uses = s.uses)
    (hmade : s'.made = s.made) (hfreed : s'.freed = s.freed) : Counted s' where
  finite i := (howners i).1
  count i := by rw [(howners i).2, huses, hs.count i]
  freed i hi := by
    rw [hmade, huses]
    exact hs.freed i (hfreed ▸ hi)
  nodup := hfreed ▸ hs.nodup
  made i hi h0 := by
    rw [hfreed]
    exact hs.made i (hmade ▸ hi) (by rw [← huses]; exact h0)
  used i hpos := by
    rw [hmade]
    exact hs.used i (by rw [← huses]; exact hpos)

variable [DecidableEq η] [DecidableEq ι]

/-- A pointer that is made to point at `i` is one of the owners of `i`, and of nothing else. -/
theorem owners_update (x : Option ι) :
    {g | Function.update s.ptr h x g = some i} =
      if x = some i then insert h (s.owners i) else s.owners i \ {h} := by
  ext g
  by_cases hg : g = h
  · subst hg
    rw [Set.mem_ofPred_eq, Function.update_self]
    split_ifs with hx
    · simp [hx]
    · simp [hx]
  · rw [Set.mem_ofPred_eq, Function.update_of_ne hg]
    split_ifs with hx
    · simp [hg]
    · simp [hg]

omit [DecidableEq η] in
/-- The owners that are left when a pointer to `i` is gone. -/
theorem owners_erase (hs : Counted s) (hp : s.ptr h = some i) (j : ι) :
    (s.owners j \ {h}).Finite ∧
      (s.owners j \ {h}).ncard = Function.update s.uses i (s.uses i - 1) j := by
  refine ⟨(hs.finite j).subset Set.sdiff_subset, ?_⟩
  by_cases hj : j = i
  · subst hj
    rw [Function.update_self, Set.ncard_sdiff_singleton_of_mem (mem_owners.mpr hp), hs.count]
  · have hout : h ∉ s.owners j := by
      intro hmem
      exact hj (Option.some.inj (hmem.symm.trans hp))
    rw [Function.update_of_ne hj, Set.sdiff_singleton_eq_self hout, hs.count]

omit [DecidableEq η] in
/-- **One pointer to `i` is gone.** The pointers are those of `s` but for `h`, which pointed at
`i`. -/
theorem Counted.drop (hs : Counted s) (hp : s.ptr h = some i)
    (howners : ∀ j, s'.owners j = s.owners j \ {h}) (huses : s'.uses = s.uses)
    (hmade : s'.made = s.made) (hfreed : s'.freed = s.freed) : Counted (s'.drop i) := by
  have hpos := hs.uses_pos hp
  obtain ⟨hmem, hout⟩ := hs.live hp
  have huses' : (s'.drop i).uses = Function.update s.uses i (s.uses i - 1) := by
    unfold Shared.drop
    rw [huses]
  have hfreed' : (s'.drop i).freed = if s.uses i = 1 then s.freed ++ [i] else s.freed := by
    unfold Shared.drop
    rw [huses, hfreed]
  have hmade' : (s'.drop i).made = s.made := hmade
  refine ⟨fun j => ?_, fun j => ?_, fun j hj => ?_, ?_, fun j hj h0 => ?_, fun j hj => ?_⟩
  · exact (howners j).symm ▸ (owners_erase hs hp j).1
  · rw [huses', ← (owners_erase hs hp j).2, ← howners j]
    rfl
  · rw [hfreed'] at hj
    rw [hmade', huses']
    split_ifs at hj with h1
    · rcases List.mem_append.mp hj with hj | hj
      · have hne : j ≠ i := fun heq => hout (heq ▸ hj)
        rw [Function.update_of_ne hne]
        exact hs.freed j hj
      · obtain rfl := List.mem_singleton.mp hj
        rw [Function.update_self, h1]
        exact ⟨hmem, rfl⟩
    · have hne : j ≠ i := fun heq => hout (heq ▸ hj)
      rw [Function.update_of_ne hne]
      exact hs.freed j hj
  · rw [hfreed']
    split_ifs
    · exact List.nodup_append.mpr ⟨hs.nodup, List.nodup_singleton i, fun a ha b hb heq =>
        hout (by rw [← List.mem_singleton.mp hb, ← heq]; exact ha)⟩
    · exact hs.nodup
  · rw [hmade'] at hj
    rw [huses'] at h0
    rw [hfreed']
    by_cases hji : j = i
    · subst hji
      rw [Function.update_self] at h0
      rw [if_pos (by omega)]
      exact List.mem_append.mpr (.inr (List.mem_singleton.mpr rfl))
    · rw [Function.update_of_ne hji] at h0
      have := hs.made j hj h0
      split_ifs
      · exact List.mem_append.mpr (.inl this)
      · exact this
  · rw [huses'] at hj
    rw [hmade']
    by_cases hji : j = i
    · exact hji ▸ hmem
    · rw [Function.update_of_ne hji] at hj
      exact hs.used j hj

/-- A pointer that becomes null. -/
theorem Counted.reset (hs : Counted s) (h : η) : Counted (s.reset h) := by
  unfold Shared.reset
  cases hp : s.ptr h with
  | none => exact hs
  | some i =>
      refine hs.drop hp (fun j => ?_) rfl rfl rfl
      have := owners_update (s := s) (h := h) (i := j) none
      rwa [if_neg (by simp)] at this

/-- A null pointer that points at a new object. -/
theorem Counted.make (hs : Counted s) (hp : s.ptr h = none) (hi : i ∉ s.made) :
    Counted (s.make h i) := by
  have huses : s.uses i = 0 := by
    by_contra hne
    exact hi (hs.used i (Nat.pos_of_ne_zero hne))
  have hnone : s.owners i = ∅ := by
    rw [← Set.ncard_eq_zero (hs.finite i), hs.count i, huses]
  have howners : ∀ j, (s.make h i).owners j = if i = j then {h} else s.owners j := by
    intro j
    refine (owners_update (some i)).trans ?_
    by_cases hij : i = j
    · subst hij
      rw [if_pos rfl, if_pos rfl, hnone, insert_empty_eq]
    · have hout : h ∉ s.owners j := fun hmem => by
        rw [mem_owners, hp] at hmem
        cases hmem
      rw [if_neg (fun heq => hij (Option.some.inj heq)), if_neg hij,
        Set.sdiff_singleton_eq_self hout]
  have hfreed : i ∉ s.freed := fun hf => hi (hs.freed i hf).1
  refine ⟨fun j => ?_, fun j => ?_, fun j hj => ?_, hs.nodup, fun j hj h0 => ?_, fun j hj => ?_⟩
  · rw [howners j]
    split_ifs
    · exact Set.finite_singleton h
    · exact hs.finite j
  · rw [howners j, uses_make]
    by_cases hij : i = j
    · subst hij
      rw [if_pos rfl, Set.ncard_singleton, Function.update_self]
    · rw [if_neg hij, hs.count j, Function.update_of_ne (Ne.symm hij)]
  · have hne : j ≠ i := fun heq => hfreed (heq ▸ hj)
    rw [made_make, uses_make, Function.update_of_ne hne]
    exact ⟨List.mem_append.mpr (.inl (hs.freed j hj).1), (hs.freed j hj).2⟩
  · rw [uses_make] at h0
    have hne : j ≠ i := by
      rintro rfl
      rw [Function.update_self] at h0
      exact Nat.one_ne_zero h0
    rw [Function.update_of_ne hne] at h0
    rcases List.mem_append.mp hj with hj | hj
    · exact hs.made j hj h0
    · exact absurd (List.mem_singleton.mp hj) hne
  · rw [made_make]
    by_cases hji : j = i
    · exact List.mem_append.mpr (.inr (List.mem_singleton.mpr hji))
    · rw [uses_make, Function.update_of_ne hji] at hj
      exact List.mem_append.mpr (.inl (hs.used j hj))

/-- A null pointer that becomes a copy. -/
theorem Counted.copy (hs : Counted s) (hp : s.ptr h' = none) (h : η) :
    Counted (s.copy h h') := by
  cases hph : s.ptr h with
  | none =>
      unfold Shared.copy
      rw [hph]
      exact hs
  | some i =>
      have hout : ∀ j, h' ∉ s.owners j := fun j hmem => by
        rw [mem_owners, hp] at hmem
        cases hmem
      have hmade : (s.copy h h').made = s.made := made_copy
      have huses : (s.copy h h').uses = Function.update s.uses i (s.uses i + 1) := by
        unfold Shared.copy
        rw [hph]
      have hfreed : (s.copy h h').freed = s.freed := by
        unfold Shared.copy
        rw [hph]
      have howners : ∀ j, (s.copy h h').owners j =
          if i = j then insert h' (s.owners j) else s.owners j := by
        intro j
        unfold Shared.owners
        rw [ptr_copy hp, hph, owners_update]
        by_cases hij : i = j
        · rw [if_pos (by rw [hij]), if_pos hij]
          rfl
        · rw [if_neg (fun heq => hij (Option.some.inj heq)), if_neg hij,
            Set.sdiff_singleton_eq_self (hout j)]
          rfl
      refine ⟨fun j => ?_, fun j => ?_, fun j hj => ?_, by rw [hfreed]; exact hs.nodup,
        fun j hj h0 => ?_, fun j hj => ?_⟩
      · rw [howners j]
        split_ifs
        · exact (hs.finite j).insert h'
        · exact hs.finite j
      · rw [howners j, huses]
        by_cases hij : i = j
        · subst hij
          rw [if_pos rfl, Set.ncard_insert_of_notMem (hout i) (hs.finite i), hs.count i,
            Function.update_self]
        · rw [if_neg hij, hs.count j, Function.update_of_ne (Ne.symm hij)]
      · rw [hfreed] at hj
        have hne : j ≠ i := fun heq => (hs.live hph).2 (heq ▸ hj)
        rw [hmade, huses, Function.update_of_ne hne]
        exact hs.freed j hj
      · rw [hmade] at hj
        rw [huses] at h0
        rw [hfreed]
        by_cases hji : j = i
        · subst hji
          rw [Function.update_self] at h0
          exact absurd h0 (Nat.succ_ne_zero _)
        · rw [Function.update_of_ne hji] at h0
          exact hs.made j hj h0
      · rw [hmade]
        by_cases hji : j = i
        · exact hji ▸ (hs.live hph).1
        · rw [huses, Function.update_of_ne hji] at hj
          exact hs.used j hj

/-- The pointers once `h'` has what `h` had, and `h` is null. -/
theorem owners_move (hne : h ≠ h') (j : ι) : (s.move h h').owners j =
    if s.ptr h = some j then insert h' (s.owners j \ {h}) else s.owners j \ {h'} := by
  ext g
  change Function.update (Function.update s.ptr h none) h' (s.ptr h) g = some j ↔ _
  by_cases hg' : g = h'
  · subst hg'
    rw [Function.update_self]
    split_ifs with hx
    · simp [hx]
    · simp [hx]
  · rw [Function.update_of_ne hg']
    by_cases hg : g = h
    · subst hg
      rw [Function.update_self]
      split_ifs with hx
      · simp [hne]
      · simp [hx]
    · rw [Function.update_of_ne hg]
      split_ifs with hx
      · simp [hg, hg']
      · simp [hg']

/-- A null pointer that takes what another one points at. -/
theorem Counted.move (hs : Counted s) (hp : s.ptr h' = none) (h : η) :
    Counted (s.move h h') := by
  by_cases hne : h = h'
  · subst hne
    have hsame : s.move h h = s := by
      unfold Shared.move
      rw [Function.update_idem, Function.update_eq_self]
    rw [hsame]
    exact hs
  · refine hs.of_owners (fun j => ?_) rfl rfl rfl
    have hout : h' ∉ s.owners j := fun hmem => by
      rw [mem_owners, hp] at hmem
      cases hmem
    rw [owners_move hne]
    split_ifs with hx
    · have hout' : h' ∉ s.owners j \ {h} := fun hmem => hout hmem.1
      have hfin := (hs.finite j).subset (Set.sdiff_subset : s.owners j \ {h} ⊆ _)
      refine ⟨hfin.insert h', ?_⟩
      rw [Set.ncard_insert_of_notMem hout' hfin,
        Set.ncard_sdiff_singleton_add_one (mem_owners.mpr hx) (hs.finite j)]
    · rw [Set.sdiff_singleton_eq_self hout]
      exact ⟨hs.finite j, rfl⟩

/-- The assignment of a moved pointer. -/
theorem Counted.assign (hs : Counted s) (h h' : η) : Counted (s.assign h h') := by
  unfold Shared.assign
  split_ifs with hne
  · exact hs
  · cases hp : s.ptr h' with
    | none => exact hs.move hp h
    | some i =>
        -- Up to the names of the pointers, `h'` is dropped and then takes what `h` has.
        have hr : Counted (s.reset h') := hs.reset h'
        have hp' : (s.reset h').ptr h' = none := by
          unfold Shared.reset
          rw [hp]
          exact Function.update_self ..
        have hph : (s.reset h').ptr h = s.ptr h := by
          unfold Shared.reset
          rw [hp]
          exact Function.update_of_ne hne _ _
        have heq : (s.move h h').drop i = (s.reset h').move h h' := by
          have hptr : (s.reset h').ptr = Function.update s.ptr h' none := by
            unfold Shared.reset
            rw [hp]
            rfl
          unfold Shared.move
          rw [hph, hptr]
          unfold Shared.reset
          rw [hp]
          unfold Shared.drop
          congr 1
          rw [Function.update_comm (Ne.symm hne), Function.update_idem]
        dsimp only
        rw [heq]
        exact hr.move hp' h

end Libfork.Found
