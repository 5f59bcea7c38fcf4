import Mathlib.Data.List.Nodup
import Mathlib.Data.List.Perm.Basic
import Mathlib.Order.Lattice
import Mathlib.Tactic.Common

/-!
# Ordered sets of keys and buckets

* `insertKey` — insertion into a set kept as a strictly increasing list.
* `modify_map_idxOf` — changing the bucket at the position of a key.
* **`flatten_filter_perm`** — sorting the elements of a list into buckets by key neither loses nor
  repeats one.

Nothing here is about a particular program.
-/

namespace Libfork.Found

section Keys

variable {κ : Type*} [LinearOrder κ]

/-- Insertion into an ordered set. -/
def insertKey (k : κ) : List κ → List κ
  | [] => [k]
  | a :: s => if k < a then k :: a :: s else if k = a then a :: s else a :: insertKey k s

/-- The new key is there, and the old ones are. -/
@[simp] theorem mem_insertKey (k x : κ) (s : List κ) : x ∈ insertKey k s ↔ x = k ∨ x ∈ s := by
  induction s with
  | nil => simp [insertKey]
  | cons a s ih =>
    rw [insertKey]
    split_ifs with hlt heq
    · simp
    · simp [heq]
    · rw [List.mem_cons, ih, List.mem_cons]
      tauto

/-- The keys stay in order. -/
theorem pairwise_insertKey (k : κ) {s : List κ} (hs : s.Pairwise (· < ·)) :
    (insertKey k s).Pairwise (· < ·) := by
  induction s with
  | nil => simp [insertKey]
  | cons a s ih =>
    rw [insertKey]
    rw [List.pairwise_cons] at hs
    obtain ⟨hhead, htail⟩ := hs
    split_ifs with hlt heq
    · apply List.Pairwise.cons
      · intro b hb
        rcases List.mem_cons.mp hb with rfl | hb
        · exact hlt
        · exact lt_trans hlt (hhead b hb)
      · exact List.Pairwise.cons hhead htail
    · exact List.Pairwise.cons hhead htail
    · apply List.Pairwise.cons
      · intro b hb
        rcases (mem_insertKey k b s).mp hb with rfl | hb
        · exact lt_of_le_of_ne (not_lt.mp hlt) (Ne.symm heq)
        · exact hhead b hb
      · exact ih htail

end Keys

section Buckets

variable {α β κ : Type*} [DecidableEq κ]

/-- Changing the bucket at the position of a key. -/
theorem modify_map_idxOf (F : κ → β) (f : β → β) {us : List κ} (hus : us.Nodup) (u : κ) :
    (us.map F).modify (us.idxOf u) f = us.map fun v => if v = u then f (F v) else F v := by
  induction us with
  | nil => simp
  | cons a us ih =>
    rw [List.nodup_cons] at hus
    obtain ⟨ha, hus⟩ := hus
    by_cases h : a = u
    · subst h
      have hrest : ∀ v ∈ us, (if v = a then f (F v) else F v) = F v := by
        intro v hv
        rw [if_neg]
        rintro rfl
        exact ha hv
      rw [List.idxOf_cons_self, List.map_cons, List.modify_zero_cons, List.map_cons, if_pos rfl,
        List.map_congr_left hrest]
    · rw [List.idxOf_cons_ne us h, List.map_cons, List.modify_succ_cons, ih hus, List.map_cons,
        if_neg h]

/-- **Buckets lose nothing and repeat nothing.** -/
theorem flatten_filter_perm (key : α → κ) {us : List κ} (hus : us.Nodup) (xs : List α)
    (hxs : ∀ x ∈ xs, key x ∈ us) :
    (us.map fun u => xs.filter fun x => key x = u).flatten.Perm xs := by
  induction us generalizing xs with
  | nil =>
    obtain rfl : xs = [] := List.eq_nil_iff_forall_not_mem.mpr fun x hx => by simpa using hxs x hx
    simp
  | cons a us ih =>
    rw [List.nodup_cons] at hus
    obtain ⟨ha, hus⟩ := hus
    have hmem : ∀ x ∈ xs.filter (fun x => !decide (key x = a)), key x ∈ us := by
      intro x hx
      rw [List.mem_filter] at hx
      rcases List.mem_cons.mp (hxs x hx.1) with h | h
      · simp [h] at hx
      · exact h
    have hother : ∀ u ∈ us, (xs.filter fun x => key x = u) =
        (xs.filter fun x => !decide (key x = a)).filter fun x => key x = u := by
      intro u hu
      rw [List.filter_filter]
      apply List.filter_congr
      intro x _
      have hne : u ≠ a := fun h => ha (h ▸ hu)
      by_cases h : key x = u
      · simp [h, hne]
      · simp [h]
    rw [List.map_cons, List.flatten_cons, List.map_congr_left hother]
    exact (List.Perm.append_left _ (ih hus _ hmem)).trans (List.filter_append_perm _ xs)

end Buckets

end Libfork.Found
