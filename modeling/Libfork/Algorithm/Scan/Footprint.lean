import Libfork.Algorithm.Scan.Model
import Mathlib.Algebra.Ring.Int.Defs

/-!
# What the sweeps access

Each sweep of `[beg, fin)` is `Safe`: it returns, its assertions hold, and no two parallel calls
get in each other's way. The output of the position `i` is the cell `i + d`.

* `safe_riseFold`, `safe_riseScan` — the cells of `[beg, fin)`, and the last one before it if there
  is a left sibling that was scanned.
* `safe_fallSweepImpl`, `safe_fallSweep` — the same, but not the last cell of an interval with a
  right sibling: that one is read by the right sibling.
* **`safe_scanImpl`** — the cells of the range.

Source: `scan.hpp`.
-/

namespace Libfork.Algorithm.Scan

open Libfork.Found Prog

variable {T V : Type}

/-- The cells from `lo` up to `hi`. -/
def cells (lo hi : ℤ) : Set ℤ := {a | lo ≤ a ∧ a < hi}

/-- The output is the input, or lies where the input is not. -/
def Input.Aligned (d : ℤ) : Input T V → Prop
  | .apart _ _ => True
  | .inPlace _ => d = 0

/-- How many cells at the end of the interval the down-sweep finds finished. -/
def Interval.held : Interval → ℤ
  | .all => 0
  | .lhs => 1
  | .mid => 1
  | .rhs => 0

/-- The number of finished cells is not negative. -/
theorem held_nonneg (ival : Interval) : 0 ≤ ival.held := by cases ival <;> decide

/-- It is one at most. -/
theorem held_le_one (ival : Interval) : ival.held ≤ 1 := by cases ival <;> decide

/-- A left child has one. -/
@[simp] theorem held_lChildOf (ival : Interval) : (lChildOf ival).held = 1 := by cases ival <;> rfl

/-- A right child has as many as its parent. -/
@[simp] theorem held_rChildOf (ival : Interval) : (rChildOf ival).held = ival.held := by
  cases ival <;> rfl

/-- How many cells before the interval the up-sweep reads when it scans. -/
def Interval.left : Interval → ℤ
  | .all => 0
  | .lhs => 0
  | .mid => 1
  | .rhs => 1

/-- The number of cells read is not negative. -/
theorem left_nonneg (ival : Interval) : 0 ≤ ival.left := by cases ival <;> decide

/-- A left child reads as many as its parent. -/
@[simp] theorem left_lChildOf (ival : Interval) : (lChildOf ival).left = ival.left := by
  cases ival <;> rfl

/-- A right child reads one. -/
@[simp] theorem left_rChildOf (ival : Interval) : (rChildOf ival).left = 1 := by cases ival <;> rfl

/-- Nothing is promised about what is returned. -/
abbrev Any {R : Type} : R → Prop := fun _ => True

section loops

variable {A : Args T V} {d : ℤ} {rd wr : Set ℤ}

/-- Reading an element is safe where its output cell may be read. -/
theorem safe_fetch (hd : A.input.Aligned d) {i : ℤ} (hi : i + d ∈ rd) :
    Safe rd wr Any (A.input.fetch i) := by
  cases hA : A.input with
  | apart xs proj => trivial
  | inPlace proj =>
    rw [hA] at hd
    have hd : d = 0 := hd
    rw [hd, add_zero] at hi
    exact (safe_load hi).bind fun _ _ => trivial

/-- The loop that folds is safe where the cells of the leaf may be read. -/
theorem safe_foldLoop (hd : A.input.Aligned d) {k : ℕ} {beg : ℤ} {acc : V}
    (hi : ∀ i, beg ≤ i → i < beg + k → i + d ∈ rd) : Safe rd wr Any (A.foldLoop k beg acc) := by
  induction k generalizing beg acc with
  | zero => trivial
  | succ k ih =>
    apply (safe_fetch hd (hi beg le_rfl (by omega))).bind
    intro x _
    apply ih
    intro i h₁ h₂
    exact hi i (by omega) (by push_cast; omega)

/-- The loop that scans is safe where they may be read and written. -/
theorem safe_scanLoop (hd : A.input.Aligned d) {k : ℕ} {beg : ℤ} {acc : V}
    (hrd : ∀ i, beg ≤ i → i < beg + k → i + d ∈ rd)
    (hwr : ∀ i, beg ≤ i → i < beg + k → i + d ∈ wr) :
    Safe rd wr Any (A.scanLoop k beg (beg + d) acc) := by
  induction k generalizing beg acc with
  | zero => trivial
  | succ k ih =>
    apply (safe_fetch hd (hrd beg le_rfl (by omega))).bind
    intro x _
    apply (safe_store (hwr beg le_rfl (by omega))).bind
    intro _ _
    rw [add_right_comm]
    apply ih
    · intro i h₁ h₂
      exact hrd i (by omega) (by push_cast; omega)
    · intro i h₁ h₂
      exact hwr i (by omega) (by push_cast; omega)

/-- Restoring is safe where both last cells may be read, and the own one written. -/
theorem safe_restore (ival : Interval) {size mid out : ℤ} (h₁ : out + mid - 1 ∈ rd)
    (h₂ : out + size - 1 ∈ rd) (h₃ : out + size - 1 ∈ wr) :
    Safe rd wr Any (A.restore ival size mid out) := by
  unfold Args.restore
  split
  · apply (safe_load h₁).bind
    intro l _
    apply (safe_load h₂).bind
    intro r _
    exact safe_store h₃
  · trivial

end loops

/-! ## The sweeps -/

section sweeps

variable {A : Args T V} {d : ℤ}

/-- The up-sweep that folds accesses its own cells only. -/
theorem safe_riseFold (hn : 1 ≤ A.n) (hd : A.input.Aligned d) {fuel : ℕ} (ival : Interval)
    {beg fin : ℤ} (hlt : beg < fin) (hfuel : fin - beg ≤ fuel) :
    Safe (cells (beg + d) (fin + d)) (cells (beg + d) (fin + d)) Any
      (A.riseFold fuel ival beg fin (beg + d)) := by
  induction fuel generalizing ival beg fin with
  | zero =>
    push_cast at hfuel
    omega
  | succ fuel ih =>
    push_cast at hfuel
    apply (safe_assert (by omega)).bind
    intro _ _
    dsimp only
    split_ifs with hleaf hmid
    · have hfetch : Safe (cells (beg + d) (fin + d)) (cells (beg + d) (fin + d)) Any
          (A.input.fetch beg) := safe_fetch hd ⟨by omega, by omega⟩
      apply hfetch.bind
      intro acc _
      have hloop : Safe (cells (beg + d) (fin + d)) (cells (beg + d) (fin + d)) Any
          (A.foldLoop (fin - beg - 1).toNat (beg + 1) acc) := by
        apply safe_foldLoop hd
        intro i h₁ h₂
        exact ⟨by omega, by omega⟩
      apply hloop.bind
      intro acc' _
      exact safe_store ⟨by omega, by omega⟩
    · trivial
    · have hm : 1 ≤ (fin - beg) / 2 ∧ (fin - beg) / 2 < fin - beg := by omega
      generalize (fin - beg) / 2 = mid at hm ⊢
      have hl := ih (lChildOf ival) (show beg < beg + mid by omega) (by omega)
      have hr := ih (rChildOf ival) (show beg + mid < fin by omega) (by omega)
      rw [add_right_comm] at hr
      apply Safe.bind (safe_fork hl hr ?_ ?_ ?_ ?_)
      · intro _ _
        exact safe_restore ival ⟨by omega, by omega⟩ ⟨by omega, by omega⟩ ⟨by omega, by omega⟩
      · rintro a ⟨h₁, h₂⟩ (h₃ | h₃) <;> exact absurd h₃.1 (by omega)
      · rintro a ⟨h₁, h₂⟩ (h₃ | h₃) <;> exact absurd h₃.2 (by omega)
      · rintro a (⟨h₁, h₂⟩ | ⟨h₁, h₂⟩) <;> exact ⟨by omega, by omega⟩
      · rintro a (⟨h₁, h₂⟩ | ⟨h₁, h₂⟩) <;> exact ⟨by omega, by omega⟩

/-- The up-sweep that scans accesses its own cells, and reads the one before them if it has a left
sibling; it scans at least one position. -/
theorem safe_riseScan (hn : 1 ≤ A.n) (hd : A.input.Aligned d) {fuel : ℕ} (ival : Interval)
    {beg fin : ℤ} (hlt : beg < fin) (hfuel : fin - beg ≤ fuel) :
    Safe (cells (beg + d - ival.left) (fin + d)) (cells (beg + d) (fin + d))
      (fun scanEnd => beg < scanEnd ∧ scanEnd ≤ fin) (A.riseScan fuel ival beg fin (beg + d)) := by
  induction fuel generalizing ival beg fin with
  | zero =>
    push_cast at hfuel
    omega
  | succ fuel ih =>
    push_cast at hfuel
    have hleft := left_nonneg ival
    apply (safe_assert (by omega)).bind
    intro _ _
    dsimp only
    split_ifs with hleaf hside hready
    · have hone : ival.left = 1 := by rcases hside with rfl | rfl <;> rfl
      have hload : Safe (cells (beg + d - ival.left) (fin + d)) (cells (beg + d) (fin + d)) Any
          (load (beg + d - 1) : Prog ℤ V V) := safe_load ⟨by omega, by omega⟩
      apply hload.bind
      intro acc _
      have hloop : Safe (cells (beg + d - ival.left) (fin + d)) (cells (beg + d) (fin + d)) Any
          (A.scanLoop (fin - beg).toNat beg (beg + d) acc) := by
        apply safe_scanLoop hd <;> intro i h₁ h₂ <;> exact ⟨by omega, by omega⟩
      apply hloop.bind
      intro _ _
      exact ⟨hlt, le_rfl⟩
    · have hfetch : Safe (cells (beg + d - ival.left) (fin + d)) (cells (beg + d) (fin + d)) Any
          (A.input.fetch beg) := safe_fetch hd ⟨by omega, by omega⟩
      apply hfetch.bind
      intro acc _
      have hstore : Safe (cells (beg + d - ival.left) (fin + d)) (cells (beg + d) (fin + d)) Any
          (store (beg + d) acc : Prog ℤ V Unit) := safe_store ⟨by omega, by omega⟩
      apply hstore.bind
      intro _ _
      have hloop : Safe (cells (beg + d - ival.left) (fin + d)) (cells (beg + d) (fin + d)) Any
          (A.scanLoop (fin - beg - 1).toNat (beg + 1) (beg + d + 1) acc) := by
        rw [add_right_comm]
        apply safe_scanLoop hd <;> intro i h₁ h₂ <;> exact ⟨by omega, by omega⟩
      apply hloop.bind
      intro _ _
      exact ⟨hlt, le_rfl⟩
    all_goals
      have hm : 1 ≤ (fin - beg) / 2 ∧ (fin - beg) / 2 < fin - beg := by omega
      generalize (fin - beg) / 2 = mid at hm ⊢
      have hl := ih (lChildOf ival) (show beg < beg + mid by omega) (by omega)
      have hrest : ∀ leftOut, beg < leftOut ∧ leftOut ≤ beg + mid →
          Safe (cells (beg + d - ival.left) (fin + d)) (cells (beg + d) (fin + d))
            (fun scanEnd => beg < scanEnd ∧ scanEnd ≤ fin)
            (A.restore ival (fin - beg) mid (beg + d) >>= fun _ => pure leftOut) := by
        intro leftOut hout
        have hrestore : Safe (cells (beg + d - ival.left) (fin + d)) (cells (beg + d) (fin + d)) Any
            (A.restore ival (fin - beg) mid (beg + d)) :=
          safe_restore ival ⟨by omega, by omega⟩ ⟨by omega, by omega⟩ ⟨by omega, by omega⟩
        apply hrestore.bind
        intro _ _
        exact ⟨hout.1, by omega⟩
      have hfold := safe_riseFold hn hd (rChildOf ival) (show beg + mid < fin by omega)
        (show fin - (beg + mid) ≤ fuel by omega)
      rw [add_right_comm] at hfold
      rw [left_lChildOf] at hl
    · apply (hl.mono _ _ fun _ h => h).bind
      · intro leftOut hout
        split_ifs with heq
        · have hr := ih (rChildOf ival) (show beg + mid < fin by omega) (by omega)
          rw [add_right_comm, left_rChildOf] at hr
          apply hr.mono
          · rintro a ⟨h₁, h₂⟩
            exact ⟨by omega, h₂⟩
          · rintro a ⟨h₁, h₂⟩
            exact ⟨by omega, h₂⟩
          · rintro r ⟨h₁, h₂⟩
            exact ⟨by omega, h₂⟩
        · apply (hfold.mono _ _ fun _ h => h).bind
          · intro _ _
            exact hrest leftOut hout
          · rintro a ⟨h₁, h₂⟩
            exact ⟨by omega, h₂⟩
          · rintro a ⟨h₁, h₂⟩
            exact ⟨by omega, h₂⟩
      · rintro a ⟨h₁, h₂⟩
        exact ⟨h₁, by omega⟩
      · rintro a ⟨h₁, h₂⟩
        exact ⟨h₁, by omega⟩
    · apply Safe.bind (safe_fork hl hfold ?_ ?_ ?_ ?_)
      · rintro ⟨leftOut, _⟩ ⟨hout, _⟩
        exact hrest leftOut hout
      · rintro a ⟨h₁, h₂⟩ (h₃ | h₃) <;> exact absurd h₃.1 (by omega)
      · rintro a ⟨h₁, h₂⟩ (h₃ | h₃) <;> exact absurd h₃.2 (by omega)
      · rintro a (⟨h₁, h₂⟩ | ⟨h₁, h₂⟩) <;> exact ⟨by omega, by omega⟩
      · rintro a (⟨h₁, h₂⟩ | ⟨h₁, h₂⟩) <;> exact ⟨by omega, by omega⟩

/-- The down-sweep of an interval reads the cell before it, and leaves the last cell of an interval
with a right sibling alone. -/
theorem safe_fallSweepImpl (hn : 1 ≤ A.n) (hd : A.input.Aligned d) {fuel : ℕ} {ival : Interval}
    (hside : ival = .mid ∨ ival = .rhs) {beg fin : ℤ} (hlt : beg < fin)
    (hfuel : fin - beg ≤ fuel) :
    Safe (cells (beg + d - 1) (fin + d - ival.held)) (cells (beg + d) (fin + d - ival.held)) Any
      (A.fallSweepImpl fuel ival beg fin (beg + d)) := by
  induction fuel generalizing ival beg fin with
  | zero =>
    push_cast at hfuel
    omega
  | succ fuel ih =>
    push_cast at hfuel
    have hheld := held_nonneg ival
    have hheld' := held_le_one ival
    apply (safe_assert (by omega)).bind
    intro _ _
    dsimp only
    have hload : Safe (cells (beg + d - 1) (fin + d - ival.held))
        (cells (beg + d) (fin + d - ival.held)) Any (load (beg + d - 1) : Prog ℤ V V) :=
      safe_load ⟨by omega, by omega⟩
    by_cases hleaf : fin - beg ≤ A.n
    · rw [if_pos hleaf]
      apply hload.bind
      intro acc _
      have hlast : (if ival = .rhs then fin else beg + (fin - beg) - 1) = fin - ival.held := by
        rcases hside with rfl | rfl
        · show beg + (fin - beg) - 1 = fin - 1
          omega
        · show fin = fin - 0
          omega
      rw [hlast]
      apply safe_scanLoop hd <;> intro i h₁ h₂ <;> exact ⟨by omega, by omega⟩
    · rw [if_neg hleaf]
      have hm : 1 ≤ (fin - beg) / 2 ∧ (fin - beg) / 2 < fin - beg := by omega
      generalize (fin - beg) / 2 = mid at hm ⊢
      have hright : rChildOf ival = .mid ∨ rChildOf ival = .rhs := by
        rcases hside with rfl | rfl
        · exact Or.inl rfl
        · exact Or.inr rfl
      have hleft : lChildOf ival = .mid := by
        rcases hside with rfl | rfl <;> rfl
      have hl := ih (Or.inl hleft) (show beg < beg + mid by omega) (by omega)
      have hr := ih hright (show beg + mid < fin by omega) (by omega)
      rw [held_lChildOf] at hl
      rw [add_right_comm, held_rChildOf] at hr
      have hload' : Safe (cells (beg + d - 1) (fin + d - ival.held))
          (cells (beg + d) (fin + d - ival.held)) Any (load (beg + d + mid - 1) : Prog ℤ V V) :=
        safe_load ⟨by omega, by omega⟩
      apply hload.bind
      intro l _
      apply hload'.bind
      intro r _
      have hstore : Safe (cells (beg + d - 1) (fin + d - ival.held))
          (cells (beg + d) (fin + d - ival.held)) Any
          (store (beg + d + mid - 1) (A.bop l r) : Prog ℤ V Unit) :=
        safe_store ⟨by omega, by omega⟩
      apply hstore.bind
      intro _ _
      apply Safe.bind (safe_fork hl hr ?_ ?_ ?_ ?_)
      · intro _ _
        trivial
      · rintro a ⟨h₁, h₂⟩ (h₃ | h₃) <;> exact absurd h₃.1 (by omega)
      · rintro a ⟨h₁, h₂⟩ (h₃ | h₃) <;> exact absurd h₃.2 (by omega)
      · rintro a (⟨h₁, h₂⟩ | ⟨h₁, h₂⟩) <;> exact ⟨by omega, by omega⟩
      · rintro a (⟨h₁, h₂⟩ | ⟨h₁, h₂⟩) <;> exact ⟨by omega, by omega⟩

/-- The down-sweep of a part-scanned interval accesses its own cells, and leaves the last cell of
an interval with a right sibling alone. -/
theorem safe_fallSweep (hn : 1 ≤ A.n) (hd : A.input.Aligned d) {fuel : ℕ} (ival : Interval)
    {beg fin scanEnd : ℤ} (hlt : beg < scanEnd) (hlt' : scanEnd < fin) (hfuel : fin - beg ≤ fuel) :
    Safe (cells (beg + d) (fin + d - ival.held)) (cells (beg + d) (fin + d - ival.held)) Any
      (A.fallSweep fuel ival beg fin (beg + d) scanEnd) := by
  induction fuel generalizing ival beg fin with
  | zero =>
    push_cast at hfuel
    omega
  | succ fuel ih =>
    push_cast at hfuel
    have hheld := held_nonneg ival
    have hheld' := held_le_one ival
    apply (safe_assert hlt').bind
    intro _ _
    dsimp only
    have hm : 1 ≤ (fin - beg) / 2 ∧ (fin - beg) / 2 < fin - beg := by omega
    generalize (fin - beg) / 2 = mid at hm ⊢
    have hside : rChildOf ival = .mid ∨ rChildOf ival = .rhs := by
      cases ival
      · exact Or.inr rfl
      · exact Or.inl rfl
      · exact Or.inl rfl
      · exact Or.inr rfl
    have himpl := safe_fallSweepImpl hn hd hside (show beg + mid < fin by omega)
      (show fin - (beg + mid) ≤ fuel by omega)
    rw [add_right_comm, held_rChildOf] at himpl
    split_ifs with hpart hfull
    · have hl := ih (lChildOf ival) hlt hpart (by omega)
      rw [held_lChildOf] at hl
      apply Safe.bind (safe_fork hl himpl ?_ ?_ ?_ ?_)
      · intro _ _
        trivial
      · rintro a ⟨h₁, h₂⟩ (h₃ | h₃) <;> exact absurd h₃.1 (by omega)
      · rintro a ⟨h₁, h₂⟩ (h₃ | h₃) <;> exact absurd h₃.2 (by omega)
      · rintro a (⟨h₁, h₂⟩ | ⟨h₁, h₂⟩) <;> exact ⟨by omega, by omega⟩
      · rintro a (⟨h₁, h₂⟩ | ⟨h₁, h₂⟩) <;> exact ⟨by omega, by omega⟩
    · apply himpl.mono
      · rintro a ⟨h₁, h₂⟩
        exact ⟨by omega, h₂⟩
      · rintro a ⟨h₁, h₂⟩
        exact ⟨by omega, h₂⟩
      · exact fun _ h => h
    · have hr := ih (rChildOf ival) (show beg + mid < scanEnd by omega) hlt' (by omega)
      rw [add_right_comm, held_rChildOf] at hr
      apply hr.mono
      · rintro a ⟨h₁, h₂⟩
        exact ⟨by omega, h₂⟩
      · rintro a ⟨h₁, h₂⟩
        exact ⟨by omega, h₂⟩
      · exact fun _ h => h

/-- **The scan is safe.** It returns, its assertions hold, it accesses the output of the range
only, and its parallel calls do not get in each other's way. -/
theorem safe_scanImpl (hn : 1 ≤ A.n) (hd : A.input.Aligned d) {beg fin : ℤ} (hle : beg ≤ fin) :
    Safe (cells (beg + d) (fin + d)) (cells (beg + d) (fin + d)) Any
      (A.scanImpl beg fin (beg + d)) := by
  unfold Args.scanImpl
  split_ifs with hempty
  · trivial
  · have hrise := safe_riseScan hn hd .all (show beg < fin by omega)
      (show fin - beg ≤ ((fin - beg).toNat : ℤ) by omega)
    have hzero : beg + d - Interval.all.left = beg + d := Int.sub_zero _
    rw [hzero] at hrise
    apply hrise.bind
    rintro scanEnd ⟨h₁, h₂⟩
    split_ifs with hrest
    · have hfall := safe_fallSweep hn hd .all h₁ (show scanEnd < fin by omega)
        (show fin - beg ≤ ((fin - beg).toNat : ℤ) by omega)
      have hzero' : fin + d - Interval.all.held = fin + d := Int.sub_zero _
      rw [hzero'] at hfall
      exact hfall
    · trivial

end sweeps

end Libfork.Algorithm.Scan
