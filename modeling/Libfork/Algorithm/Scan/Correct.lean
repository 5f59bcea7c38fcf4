import Libfork.Algorithm.Scan.Footprint
import Libfork.Found.Reduce

/-!
# The parallel scan is the sequential scan

`x i` is the projection of the input at `i` before the call, and `red i j` the reduction of
`[i, j)`. The scan starts at `o`; the cell `i + d` is *final* when it holds `red o (i + 1)`.

* `Inner` — an interval that has been folded, and whose folds the down-sweep will pick up.
* `Rest` — an interval that has been scanned up to `scanEnd`, and folded from there on.
* `run_riseFold`, `run_riseScan` establish them; `run_fallSweepImpl`, `run_fallSweep` need them.
* **`scan_correct`** — every interleaving of the scan returns and leaves the scan of the input in
  the output, whatever the synchronous forks report.

Source: `scan.hpp`.
-/

namespace Libfork.Algorithm.Scan

open Libfork.Found Prog

variable {T V : Type}

/-! ## The input -/

/-- The projection of the input at `i`. -/
def Input.value (input : Input T V) (m : ℤ → V) (i : ℤ) : V :=
  match input with
  | .apart xs proj => proj (xs i)
  | .inPlace proj => proj (m i)

/-- The element that is read. -/
theorem run_fetch (input : Input T V) (m : ℤ → V) (i : ℤ) :
    run (input.fetch i) m = some (input.value m i, m) := by
  cases input <;> rfl

/-- It depends on the output cell of its position at most. -/
theorem value_congr {input : Input T V} {d i : ℤ} {m m' : ℤ → V} (hd : input.Aligned d)
    (h : m' (i + d) = m (i + d)) : input.value m' i = input.value m i := by
  cases input with
  | apart xs proj => rfl
  | inPlace proj =>
    have hd : d = 0 := hd
    rw [hd, add_zero] at h
    exact congrArg proj h

section sweeps

variable (A : Args T V) (d o : ℤ) (x : ℤ → V)

/-- What the down-sweep finds where nothing was scanned: the input in the leaves, and the fold of
each left sibling in its last cell. -/
def Inner : ℕ → Interval → ℤ → ℤ → (ℤ → V) → Prop
  | 0, _, _, _, _ => False
  | fuel + 1, ival, beg, fin, m =>
      let mid := (fin - beg) / 2
      if fin - beg ≤ A.n then ∀ i, beg ≤ i → i < fin - ival.held → A.input.value m i = x i
      else m (beg + mid - 1 + d) = reduce A.bop x beg (beg + mid) ∧
        Inner fuel (lChildOf ival) beg (beg + mid) m ∧ Inner fuel (rChildOf ival) (beg + mid) fin m

/-- What the down-sweep finds where the interval was scanned up to `scanEnd`. -/
def Rest (scanEnd : ℤ) : ℕ → Interval → ℤ → ℤ → (ℤ → V) → Prop
  | 0, _, _, _, _ => False
  | fuel + 1, ival, beg, fin, m =>
      let mid := (fin - beg) / 2
      A.n < fin - beg ∧
      (scanEnd < beg + mid → m (beg + mid - 1 + d) = reduce A.bop x o (beg + mid) ∧
        Rest scanEnd fuel (lChildOf ival) beg (beg + mid) m ∧
        Inner A d x fuel (rChildOf ival) (beg + mid) fin m) ∧
      (scanEnd = beg + mid → Inner A d x fuel (rChildOf ival) (beg + mid) fin m) ∧
      (beg + mid < scanEnd → Rest scanEnd fuel (rChildOf ival) (beg + mid) fin m)

variable {A d o x}

section frames

variable {fuel : ℕ} {ival : Interval} {beg fin scanEnd : ℤ} {m m' : ℤ → V}

/-- What the down-sweep needs depends on the cells of the interval that are not finished. -/
theorem inner_congr (hn : 1 ≤ A.n) (hd : A.input.Aligned d) (h : Inner A d x fuel ival beg fin m)
    (hsame : ∀ i, beg ≤ i → i < fin - ival.held → m' (i + d) = m (i + d)) :
    Inner A d x fuel ival beg fin m' := by
  induction fuel generalizing ival beg fin with
  | zero => exact h
  | succ fuel ih =>
    unfold Inner at h ⊢
    dsimp only at h ⊢
    have hheld := held_le_one ival
    split_ifs at h ⊢ with hleaf
    · intro i h₁ h₂
      rw [value_congr hd (hsame i h₁ h₂)]
      exact h i h₁ h₂
    · have hm : 1 ≤ (fin - beg) / 2 ∧ (fin - beg) / 2 < fin - beg := by omega
      generalize (fin - beg) / 2 = mid at hm h ⊢
      obtain ⟨hcell, hl, hr⟩ := h
      refine ⟨?_, ih hl ?_, ih hr ?_⟩
      · rw [hsame _ (by omega) (by omega)]
        exact hcell
      · intro i h₁ h₂
        rw [held_lChildOf] at h₂
        exact hsame i h₁ (by omega)
      · intro i h₁ h₂
        rw [held_rChildOf] at h₂
        exact hsame i (by omega) h₂

/-- So does what it needs where the interval was scanned in part. -/
theorem rest_congr (hn : 1 ≤ A.n) (hd : A.input.Aligned d)
    (h : Rest A d o x scanEnd fuel ival beg fin m)
    (hsame : ∀ i, beg ≤ i → i < fin - ival.held → m' (i + d) = m (i + d)) :
    Rest A d o x scanEnd fuel ival beg fin m' := by
  induction fuel generalizing ival beg fin with
  | zero => exact h
  | succ fuel ih =>
    unfold Rest at h ⊢
    dsimp only at h ⊢
    have hheld := held_le_one ival
    obtain ⟨hsize, hpart, hfull, hmore⟩ := h
    have hm : 1 ≤ (fin - beg) / 2 ∧ (fin - beg) / 2 < fin - beg := by omega
    generalize (fin - beg) / 2 = mid at hm hpart hfull hmore ⊢
    have hright : ∀ i, beg + mid ≤ i → i < fin - (rChildOf ival).held →
        m' (i + d) = m (i + d) := by
      intro i h₁ h₂
      rw [held_rChildOf] at h₂
      exact hsame i (by omega) h₂
    refine ⟨hsize, fun hlt => ?_, fun heq => ?_, fun hgt => ?_⟩
    · obtain ⟨hcell, hl, hr⟩ := hpart hlt
      refine ⟨?_, ih hl ?_, inner_congr hn hd hr hright⟩
      · rw [hsame _ (by omega) (by omega)]
        exact hcell
      · intro i h₁ h₂
        rw [held_lChildOf] at h₂
        exact hsame i h₁ (by omega)
    · exact inner_congr hn hd (hfull heq) hright
    · exact ih (hmore hgt) hright

end frames

/-! ## The loops -/

section loops

variable {k : ℕ} {beg : ℤ} {m : ℤ → V}

/-- The loop that folds a leaf. -/
theorem run_foldLoop {b : ℤ} (hb : b < beg)
    (hraw : ∀ i, beg ≤ i → i < beg + k → A.input.value m i = x i) :
    run (A.foldLoop k beg (reduce A.bop x b beg)) m =
      some (reduce A.bop x b (beg + k), m) := by
  induction k generalizing beg with
  | zero => rw [Nat.cast_zero, add_zero]; rfl
  | succ k ih =>
    have hfetch := run_fetch A.input m beg
    rw [hraw beg le_rfl (by push_cast; omega)] at hfetch
    have hnext := ih (show b < beg + 1 by omega) fun i h₁ h₂ =>
      hraw i (by omega) (by push_cast; omega)
    rw [reduce_succ A.bop x hb] at hnext
    refine (run_bind_of hfetch).trans (hnext.trans ?_)
    rw [Nat.cast_succ, add_right_comm, add_assoc]

/-- The loop that scans a leaf writes the prefixes, and nothing else. -/
theorem run_scanLoop (hd : A.input.Aligned d) (ho : o < beg)
    (hraw : ∀ i, beg ≤ i → i < beg + k → A.input.value m i = x i) :
    ∃ m', run (A.scanLoop k beg (beg + d) (reduce A.bop x o beg)) m = some ((), m') ∧
      (∀ a, a ∉ cells (beg + d) (beg + k + d) → m' a = m a) ∧
      ∀ i, beg ≤ i → i < beg + k → m' (i + d) = reduce A.bop x o (i + 1) := by
  induction k generalizing beg m with
  | zero =>
    refine ⟨m, rfl, fun _ _ => rfl, fun i h₁ h₂ => ?_⟩
    rw [Nat.cast_zero] at h₂
    omega
  | succ k ih =>
    push_cast at hraw ⊢
    have hfetch := run_fetch A.input m beg
    rw [hraw beg le_rfl (by omega)] at hfetch
    set v := reduce A.bop x o (beg + 1) with hv
    have hacc : A.bop (reduce A.bop x o beg) (x beg) = v := (reduce_succ A.bop x ho).symm
    set m₁ := Function.update m (beg + d) v with hm₁
    have hraw₁ : ∀ i, beg + 1 ≤ i → i < beg + 1 + k → A.input.value m₁ i = x i := by
      intro i h₁ h₂
      rw [← hraw i (by omega) (by omega)]
      exact value_congr hd (Function.update_of_ne (by omega) _ _)
    obtain ⟨m', hrun, hframe, hfinal⟩ := ih (show o < beg + 1 by omega) hraw₁
    refine ⟨m', ?_, ?_, ?_⟩
    · refine (run_bind_of hfetch).trans ?_
      dsimp only
      rw [hacc]
      refine (run_bind_of (run_store m (beg + d) v)).trans ?_
      rw [add_right_comm]
      exact hrun
    · intro a ha
      have hne : a ≠ beg + d := fun he => ha ⟨by omega, by omega⟩
      rw [hframe a fun hmem => ha ⟨by have := hmem.1; omega, by have := hmem.2; omega⟩, hm₁,
        Function.update_of_ne hne]
    · intro i h₁ h₂
      by_cases hi : i = beg
      · rw [hi, hframe _ fun hmem => absurd hmem.1 (by omega), hm₁, Function.update_self]
      · exact hfinal i (by omega) (by omega)

end loops

/-! ## The up-sweep -/

section rise

variable {fuel : ℕ} {ival : Interval} {beg fin size mid out : ℤ} {m : ℤ → V}

/-- An interval with a sibling on its right combines the last cells of its halves. -/
theorem run_restore (hside : ival = .lhs ∨ ival = .mid) :
    run (A.restore ival size mid out) m = some ((), Function.update m (out + size - 1)
      (A.bop (m (out + mid - 1)) (m (out + size - 1)))) := by
  unfold Args.restore
  rw [if_pos hside]
  rfl

/-- The others restore nothing. -/
theorem run_restore_of_not (hside : ¬(ival = .lhs ∨ ival = .mid)) :
    run (A.restore ival size mid out) m = some ((), m) := by
  unfold Args.restore
  rw [if_neg hside]
  rfl

/-- Propagating the reduction of `[beg, s)` to the right sibling, for an interval that starts its
reductions at `b`. -/
theorem restore_spec [Std.Associative A.bop] (ival : Interval) (size mid out : ℤ) {b s : ℤ}
    (hb : b < s) (hs : s < fin)
    (hout : out + size = fin + d) (hmid : out + mid = s + d)
    (hl : m (s - 1 + d) = reduce A.bop x b s)
    (hr : ival.held = 1 → m (fin - 1 + d) = reduce A.bop x s fin) :
    ∃ m', run (A.restore ival size mid out) m = some ((), m') ∧
      (∀ a, a < fin + d - ival.held → m' a = m a) ∧
      (ival.held = 1 → m' (fin - 1 + d) = reduce A.bop x b fin) := by
  by_cases hside : ival = .lhs ∨ ival = .mid
  · have hheld : ival.held = 1 := by
      rcases hside with rfl | rfl <;> rfl
    have h₁ : out + mid - 1 = s - 1 + d := by omega
    have h₂ : out + size - 1 = fin - 1 + d := by omega
    refine ⟨_, run_restore hside, ?_, fun _ => ?_⟩
    · intro a ha
      rw [hheld] at ha
      exact Function.update_of_ne (by omega) _ _
    · rw [h₁, h₂, Function.update_self, hl, hr hheld]
      exact reduce_append A.bop x hb hs
  · have hheld : ival.held = 0 := by
      cases ival
      · rfl
      · exact absurd (Or.inl rfl) hside
      · exact absurd (Or.inr rfl) hside
      · rfl
    refine ⟨m, run_restore_of_not hside, fun _ _ => rfl, fun h => ?_⟩
    rw [hheld] at h
    cases h

/-- **The up-sweep that folds**, in an interval with a left sibling. -/
theorem run_riseFold [Std.Associative A.bop] (hn : 1 ≤ A.n) (hd : A.input.Aligned d)
    (hside : ival = .mid ∨ ival = .rhs) (hlt : beg < fin) (hfuel : fin - beg ≤ fuel)
    (hraw : ∀ i, beg ≤ i → i < fin → A.input.value m i = x i) :
    ∃ m', run (A.riseFold fuel ival beg fin (beg + d)) m = some ((), m') ∧
      Inner A d x fuel ival beg fin m' ∧
      (ival.held = 1 → m' (fin - 1 + d) = reduce A.bop x beg fin) := by
  induction fuel generalizing ival beg fin m with
  | zero =>
    push_cast at hfuel
    omega
  | succ fuel ih =>
    have hfuel' : fin - beg ≤ fuel + 1 := by exact_mod_cast hfuel
    unfold Args.riseFold Inner
    dsimp only
    have hassert : run (assert (1 ≤ fin - beg) : Prog ℤ V Unit) m = some ((), m) :=
      run_assert m (by omega)
    by_cases hleaf : fin - beg ≤ A.n
    · simp only [if_pos hleaf]
      rcases hside with rfl | rfl
      · have hfetch := run_fetch A.input m beg
        rw [hraw beg le_rfl hlt] at hfetch
        have hlen : (((fin - beg - 1).toNat : ℕ) : ℤ) = fin - beg - 1 := by omega
        have hloop := run_foldLoop (A := A) (x := x) (m := m) (k := (fin - beg - 1).toNat)
          (show beg < beg + 1 by omega) fun i h₁ h₂ => hraw i (by omega) (by omega)
        have hend : beg + 1 + ((fin - beg - 1).toNat : ℤ) = fin := by omega
        rw [reduce_one, hend] at hloop
        have hcell : beg + d + (fin - beg) - 1 = fin - 1 + d := by omega
        refine ⟨Function.update m (fin - 1 + d) (reduce A.bop x beg fin), ?_, ?_, fun _ => ?_⟩
        · refine (run_bind_of hassert).trans ?_
          refine (run_bind_of hfetch).trans ?_
          refine (run_bind_of hloop).trans ?_
          rw [hcell]
          rfl
        · intro i h₁ h₂
          have h₂ : i < fin - 1 := h₂
          rw [← hraw i h₁ (by omega)]
          exact value_congr hd (Function.update_of_ne (by omega) _ _)
        · exact Function.update_self _ _ _
      · refine ⟨m, (run_bind_of hassert).trans rfl, ?_, nofun⟩
        intro i h₁ h₂
        have h₂ : i < fin - 0 := h₂
        exact hraw i h₁ (by omega)
    · simp only [if_neg hleaf]
      have hm : 1 ≤ (fin - beg) / 2 ∧ (fin - beg) / 2 < fin - beg := by omega
      generalize (fin - beg) / 2 = mid at hm ⊢
      have hl : lChildOf ival = .mid := by
        rcases hside with rfl | rfl <;> rfl
      have hr : rChildOf ival = .mid ∨ rChildOf ival = .rhs := by
        rcases hside with rfl | rfl
        · exact Or.inl rfl
        · exact Or.inr rfl
      obtain ⟨m₁, hrun₁, hinner₁, hcell₁⟩ := ih (Or.inl hl)
        (show beg < beg + mid by omega) (by omega) fun i h₁ h₂ => hraw i h₁ (by omega)
      have hframe₁ := ((safe_riseFold hn hd (lChildOf ival) (show beg < beg + mid by omega)
        (show beg + mid - beg ≤ fuel by omega)).frame hrun₁).2
      have hraw₁ : ∀ i, beg + mid ≤ i → i < fin → A.input.value m₁ i = x i := by
        intro i h₁ h₂
        rw [← hraw i (by omega) h₂]
        exact value_congr hd (hframe₁ _ fun hmem => absurd hmem.2 (by omega))
      obtain ⟨m₂, hrun₂, hinner₂, hcell₂⟩ := ih hr
        (show beg + mid < fin by omega) (by omega) hraw₁
      have hframe₂ := ((safe_riseFold hn hd (rChildOf ival) (show beg + mid < fin by omega)
        (show fin - (beg + mid) ≤ fuel by omega)).frame hrun₂).2
      have hlast : m₂ (beg + mid - 1 + d) = reduce A.bop x beg (beg + mid) := by
        rw [hframe₂ _ fun hmem => absurd hmem.1 (by omega)]
        exact hcell₁ (held_lChildOf ival)
      obtain ⟨m₃, hrun₃, hframe₃, hcell₃⟩ := restore_spec (A := A) (x := x) ival
        (fin - beg) mid (beg + d) (show beg < beg + mid by omega)
        (show beg + mid < fin by omega) (by omega) (by omega) hlast fun h =>
          hcell₂ ((held_rChildOf ival).trans h)
      have hheld := held_le_one ival
      refine ⟨m₃, ?_, ⟨?_, ?_, ?_⟩, hcell₃⟩
      · refine (run_bind_of hassert).trans ?_
        have hfork : run (fork (A.riseFold fuel (lChildOf ival) beg (beg + mid) (beg + d))
            (A.riseFold fuel (rChildOf ival) (beg + mid) fin (beg + d + mid))) m =
            some (((), ()), m₂) := by
          rw [run_fork, hrun₁, add_right_comm]
          dsimp only [Option.bind_some]
          rw [hrun₂]
          rfl
        exact (run_bind_of hfork).trans hrun₃
      · rw [hframe₃ _ (by omega)]
        exact hlast
      · apply inner_congr hn hd hinner₁
        intro i h₁ h₂
        rw [held_lChildOf] at h₂
        rw [hframe₃ _ (by omega), hframe₂ _ fun hmem => absurd hmem.1 (by omega)]
      · apply inner_congr hn hd hinner₂
        intro i h₁ h₂
        rw [held_rChildOf] at h₂
        exact hframe₃ _ (by omega)

/-- The left interval `[beg, s)` was scanned up to `leftOut`, then the right one was folded: after
the reduction is propagated, the whole interval is scanned up to `leftOut`. -/
theorem rest_of_fold [Std.Associative A.bop] (hn : 1 ≤ A.n) (hd : A.input.Aligned d)
    {leftOut : ℤ} {m₁ m₂ : ℤ → V} (hsize : A.n < fin - beg) (ho : o ≤ beg)
    (hout : leftOut ≤ beg + (fin - beg) / 2)
    (hfinal : ∀ i, beg ≤ i → i < leftOut → m₁ (i + d) = reduce A.bop x o (i + 1))
    (hleft : leftOut = beg + (fin - beg) / 2 ∨
      Rest A d o x leftOut fuel (lChildOf ival) beg (beg + (fin - beg) / 2) m₁)
    (hlast : m₁ (beg + (fin - beg) / 2 - 1 + d) = reduce A.bop x o (beg + (fin - beg) / 2))
    (hframe : ∀ a, a < beg + (fin - beg) / 2 + d → m₂ a = m₁ a)
    (hinner : Inner A d x fuel (rChildOf ival) (beg + (fin - beg) / 2) fin m₂)
    (hcell : (rChildOf ival).held = 1 →
      m₂ (fin - 1 + d) = reduce A.bop x (beg + (fin - beg) / 2) fin) :
    ∃ m', run (A.restore ival (fin - beg) ((fin - beg) / 2) (beg + d)) m₂ = some ((), m') ∧
      (∀ i, beg ≤ i → i < leftOut → m' (i + d) = reduce A.bop x o (i + 1)) ∧
      Rest A d o x leftOut (fuel + 1) ival beg fin m' ∧
      (ival.held = 1 → m' (fin - 1 + d) = reduce A.bop x o fin) := by
  have hm : 1 ≤ (fin - beg) / 2 ∧ (fin - beg) / 2 < fin - beg := by omega
  unfold Rest
  dsimp only
  generalize (fin - beg) / 2 = mid at *
  have hheld := held_le_one ival
  have hlast₂ : m₂ (beg + mid - 1 + d) = reduce A.bop x o (beg + mid) := by
    rw [hframe _ (by omega)]
    exact hlast
  obtain ⟨m', hrun, hframe', hcell'⟩ := restore_spec (A := A) (x := x) ival (fin - beg) mid
    (beg + d) (show o < beg + mid by omega) (show beg + mid < fin by omega) (by omega) (by omega)
    hlast₂ fun h => hcell ((held_rChildOf ival).trans h)
  have hinner' : Inner A d x fuel (rChildOf ival) (beg + mid) fin m' := by
    apply inner_congr hn hd hinner
    intro i h₁ h₂
    rw [held_rChildOf] at h₂
    exact hframe' _ (by omega)
  refine ⟨m', hrun, ?_, ⟨hsize, fun hlt => ⟨?_, ?_, hinner'⟩, fun _ => hinner', fun hgt => ?_⟩,
    hcell'⟩
  · intro i h₁ h₂
    rw [hframe' _ (by omega), hframe _ (by omega)]
    exact hfinal i h₁ h₂
  · rw [hframe' _ (by omega)]
    exact hlast₂
  · apply rest_congr hn hd (hleft.resolve_left (by omega))
    intro i h₁ h₂
    rw [held_lChildOf] at h₂
    rw [hframe' _ (by omega), hframe _ (by omega)]
  · omega

/-- **The up-sweep that scans.** -/
theorem run_riseScan [Std.Associative A.bop] (hn : 1 ≤ A.n) (hd : A.input.Aligned d)
    (hlt : beg < fin) (hfuel : fin - beg ≤ fuel)
    (hfirst : ival.left = 0 → beg = o)
    (hprev : ival.left = 1 → o < beg ∧ m (beg - 1 + d) = reduce A.bop x o beg)
    (hraw : ∀ i, beg ≤ i → i < fin → A.input.value m i = x i) :
    ∃ scanEnd m', run (A.riseScan fuel ival beg fin (beg + d)) m = some (scanEnd, m') ∧
      (∀ i, beg ≤ i → i < scanEnd → m' (i + d) = reduce A.bop x o (i + 1)) ∧
      (scanEnd = fin ∨ Rest A d o x scanEnd fuel ival beg fin m') ∧
      (ival.held = 1 → m' (fin - 1 + d) = reduce A.bop x o fin) := by
  induction fuel generalizing ival beg fin m with
  | zero =>
    push_cast at hfuel
    omega
  | succ fuel ih =>
    have hfuel' : fin - beg ≤ fuel + 1 := by exact_mod_cast hfuel
    have hassert : run (assert (1 ≤ fin - beg) : Prog ℤ V Unit) m = some ((), m) :=
      run_assert m (by omega)
    unfold Args.riseScan
    dsimp only
    by_cases hleaf : fin - beg ≤ A.n
    · simp only [if_pos hleaf]
      have hlast : ∀ m' : ℤ → V,
          (∀ i, beg ≤ i → i < fin → m' (i + d) = reduce A.bop x o (i + 1)) →
          ival.held = 1 → m' (fin - 1 + d) = reduce A.bop x o fin := by
        intro m' hfinal _
        rw [hfinal (fin - 1) (by omega) (by omega)]
        congr 1
        omega
      by_cases hside : ival = .mid ∨ ival = .rhs
      · have hone : ival.left = 1 := by
          rcases hside with rfl | rfl <;> rfl
        obtain ⟨ho, hacc⟩ := hprev hone
        obtain ⟨m', hrun, -, hfinal⟩ := run_scanLoop (A := A) (m := m)
          (k := (fin - beg).toNat) hd ho fun i h₁ h₂ => hraw i h₁ (by omega)
        have hfinal' : ∀ i, beg ≤ i → i < fin → m' (i + d) = reduce A.bop x o (i + 1) :=
          fun i h₁ h₂ => hfinal i h₁ (by omega)
        have hload : run (load (beg + d - 1)) m = some (reduce A.bop x o beg, m) := by
          have hcell : beg + d - 1 = beg - 1 + d := by omega
          rw [run_load, hcell, hacc]
        refine ⟨fin, m', ?_, hfinal', Or.inl rfl, hlast m' hfinal'⟩
        refine (run_bind_of hassert).trans ?_
        rw [if_pos hside]
        refine (run_bind_of hload).trans ?_
        exact (run_bind_of hrun).trans rfl
      · have hzero : ival.left = 0 := by
          cases ival
          · rfl
          · rfl
          · exact absurd (Or.inl rfl) hside
          · exact absurd (Or.inr rfl) hside
        have hbeg := hfirst hzero
        subst hbeg
        have hfetch := run_fetch A.input m beg
        rw [hraw beg le_rfl hlt] at hfetch
        set m₁ := Function.update m (beg + d) (x beg) with hm₁
        have hraw₁ : ∀ i, beg + 1 ≤ i → i < beg + 1 + ((fin - beg - 1).toNat : ℤ) →
            A.input.value m₁ i = x i := by
          intro i h₁ h₂
          rw [← hraw i (by omega) (by omega)]
          exact value_congr hd (Function.update_of_ne (by omega) _ _)
        obtain ⟨m', hrun, hframe, hfinal⟩ :=
          run_scanLoop (x := x) hd (show beg < beg + 1 by omega) hraw₁
        have hfinal' : ∀ i, beg ≤ i → i < fin → m' (i + d) = reduce A.bop x beg (i + 1) := by
          intro i h₁ h₂
          by_cases hi : i = beg
          · rw [hi, hframe _ fun hmem => absurd hmem.1 (by omega), hm₁, Function.update_self,
              reduce_one]
          · exact hfinal i (by omega) (by omega)
        refine ⟨fin, m', ?_, hfinal', Or.inl rfl, hlast m' hfinal'⟩
        refine (run_bind_of hassert).trans ?_
        rw [if_neg hside]
        refine (run_bind_of hfetch).trans ?_
        refine (run_bind_of (run_store m (beg + d) (x beg))).trans ?_
        rw [reduce_one] at hrun
        rw [add_right_comm]
        exact (run_bind_of hrun).trans rfl
    · simp only [if_neg hleaf]
      have ho : o ≤ beg := by
        by_cases hzero : ival.left = 0
        · exact le_of_eq (hfirst hzero).symm
        · have hone : ival.left = 1 := by
            cases ival <;> first | exact absurd rfl hzero | rfl
          exact le_of_lt (hprev hone).1
      have hm : 1 ≤ (fin - beg) / 2 ∧ (fin - beg) / 2 < fin - beg := by omega
      obtain ⟨leftOut, m₁, hrun₁, hfinal₁, hrest₁, hcell₁⟩ := ih
        (show beg < beg + (fin - beg) / 2 by omega) (by omega)
        (fun h => hfirst ((left_lChildOf ival).symm.trans h))
        (fun h => hprev ((left_lChildOf ival).symm.trans h)) fun i h₁ h₂ => hraw i h₁ (by omega)
      obtain ⟨⟨hout, hout'⟩, hframe₁⟩ := (safe_riseScan hn hd (lChildOf ival)
        (show beg < beg + (fin - beg) / 2 by omega) (by omega)).frame hrun₁
      have hlast := hcell₁ (held_lChildOf ival)
      have hraw₁ : ∀ i, beg + (fin - beg) / 2 ≤ i → i < fin → A.input.value m₁ i = x i := by
        intro i h₁ h₂
        rw [← hraw i (by omega) h₂]
        exact value_congr hd (hframe₁ _ fun hmem => absurd hmem.2 (by omega))
      have hright : rChildOf ival = .mid ∨ rChildOf ival = .rhs := by
        cases ival <;> first | exact Or.inl rfl | exact Or.inr rfl
      -- the right interval is folded
      obtain ⟨m₂, hrun₂, hinner₂, hcell₂⟩ := run_riseFold hn hd hright
        (show beg + (fin - beg) / 2 < fin by omega)
        (show fin - (beg + (fin - beg) / 2) ≤ fuel by omega) hraw₁
      have hframe₂ := ((safe_riseFold hn hd (rChildOf ival)
        (show beg + (fin - beg) / 2 < fin by omega) (by omega)).frame hrun₂).2
      obtain ⟨m₃, hrun₃, hfinal₃, hrest₃, hcell₃⟩ := rest_of_fold hn hd
        (show A.n < fin - beg by omega) ho hout' hfinal₁ hrest₁ hlast
        (fun a ha => hframe₂ a fun hmem => absurd hmem.1 (by omega)) hinner₂ hcell₂
      rw [add_right_comm] at hrun₂
      by_cases hready : A.ready beg fin = true
      · simp only [if_pos hready]
        by_cases heq : leftOut = beg + (fin - beg) / 2
        · -- the right interval is scanned
          have hlast' : m₁ (beg + (fin - beg) / 2 - 1 + d) =
              reduce A.bop x o (beg + (fin - beg) / 2) := hlast
          obtain ⟨scanEnd, m₄, hrun₄, hfinal₄, hrest₄, hcell₄⟩ := ih
            (show beg + (fin - beg) / 2 < fin by omega) (by omega)
            (fun h => by rw [left_rChildOf] at h; cases h) (fun _ => ⟨by omega, hlast'⟩) hraw₁
          obtain ⟨⟨hend, -⟩, hframe₄⟩ := (safe_riseScan hn hd (rChildOf ival)
            (show beg + (fin - beg) / 2 < fin by omega) (by omega)).frame hrun₄
          refine ⟨scanEnd, m₄, ?_, ?_, ?_, fun h => hcell₄ ((held_rChildOf ival).trans h)⟩
          · refine (run_bind_of hassert).trans ?_
            refine (run_bind_of hrun₁).trans ?_
            rw [if_pos heq, add_right_comm]
            exact hrun₄
          · intro i h₁ h₂
            by_cases hi : i < beg + (fin - beg) / 2
            · rw [hframe₄ _ fun hmem => absurd hmem.1 (by omega)]
              exact hfinal₁ i h₁ (by omega)
            · exact hfinal₄ i (by omega) h₂
          · refine hrest₄.imp_right fun h => ?_
            unfold Rest
            exact ⟨by omega, fun hlt' => absurd hend (by omega), fun heq' => absurd hend (by omega),
              fun _ => h⟩
        · refine ⟨leftOut, m₃, ?_, hfinal₃, Or.inr hrest₃, hcell₃⟩
          refine (run_bind_of hassert).trans ?_
          refine (run_bind_of hrun₁).trans ?_
          rw [if_neg heq]
          refine (run_bind_of hrun₂).trans ?_
          exact (run_bind_of hrun₃).trans rfl
      · simp only [if_neg hready]
        refine ⟨leftOut, m₃, ?_, hfinal₃, Or.inr hrest₃, hcell₃⟩
        refine (run_bind_of hassert).trans ?_
        have hfork : run (fork
            (A.riseScan fuel (lChildOf ival) beg (beg + (fin - beg) / 2) (beg + d))
            (A.riseFold fuel (rChildOf ival) (beg + (fin - beg) / 2) fin
              (beg + d + (fin - beg) / 2))) m = some ((leftOut, ()), m₂) := by
          rw [run_fork, hrun₁]
          dsimp only [Option.bind_some]
          rw [hrun₂]
          rfl
        refine (run_bind_of hfork).trans ?_
        exact (run_bind_of hrun₃).trans rfl

end rise

/-! ## The down-sweep -/

section fall

variable {fuel : ℕ} {ival : Interval} {beg fin scanEnd : ℤ} {m : ℤ → V}

/-- **The down-sweep of a folded interval.** -/
theorem run_fallSweepImpl [Std.Associative A.bop] (hn : 1 ≤ A.n) (hd : A.input.Aligned d)
    (hside : ival = .mid ∨ ival = .rhs) (hlt : beg < fin) (hfuel : fin - beg ≤ fuel) (ho : o < beg)
    (hprev : m (beg - 1 + d) = reduce A.bop x o beg) (hinner : Inner A d x fuel ival beg fin m)
    (hlast : ival.held = 1 → m (fin - 1 + d) = reduce A.bop x o fin) :
    ∃ m', run (A.fallSweepImpl fuel ival beg fin (beg + d)) m = some ((), m') ∧
      ∀ i, beg ≤ i → i < fin → m' (i + d) = reduce A.bop x o (i + 1) := by
  induction fuel generalizing ival beg fin m with
  | zero =>
    push_cast at hfuel
    omega
  | succ fuel ih =>
    have hfuel' : fin - beg ≤ fuel + 1 := by exact_mod_cast hfuel
    have hassert : run (assert (0 < fin - beg) : Prog ℤ V Unit) m = some ((), m) :=
      run_assert m (by omega)
    have hload : run (load (beg + d - 1)) m = some (reduce A.bop x o beg, m) := by
      have hcell : beg + d - 1 = beg - 1 + d := by omega
      rw [run_load, hcell, hprev]
    have hheld : 0 ≤ ival.held ∧ ival.held ≤ 1 := ⟨held_nonneg ival, held_le_one ival⟩
    unfold Inner at hinner
    unfold Args.fallSweepImpl
    dsimp only at hinner ⊢
    by_cases hleaf : fin - beg ≤ A.n
    · rw [if_pos hleaf] at hinner
      simp only [if_pos hleaf]
      have hend : (if ival = .rhs then fin else beg + (fin - beg) - 1) = fin - ival.held := by
        rcases hside with rfl | rfl
        · show beg + (fin - beg) - 1 = fin - 1
          omega
        · show fin = fin - 0
          omega
      obtain ⟨m', hrun, hframe, hfinal⟩ := run_scanLoop (A := A) (m := m)
        (k := (fin - ival.held - beg).toNat) hd ho fun i h₁ h₂ => hinner i h₁ (by omega)
      refine ⟨m', ?_, ?_⟩
      · refine (run_bind_of hassert).trans ?_
        refine (run_bind_of hload).trans ?_
        rw [hend]
        exact hrun
      · intro i h₁ h₂
        by_cases hi : i < fin - ival.held
        · exact hfinal i h₁ (by omega)
        · have hone : ival.held = 1 := by omega
          have heq : i = fin - 1 := by omega
          have hfin : fin - 1 + 1 = fin := by omega
          rw [heq, hframe _ fun hmem => absurd hmem.2 (by omega), hlast hone, hfin]
    · rw [if_neg hleaf] at hinner
      simp only [if_neg hleaf]
      have hm : 1 ≤ (fin - beg) / 2 ∧ (fin - beg) / 2 < fin - beg := by omega
      generalize (fin - beg) / 2 = mid at hm hinner ⊢
      obtain ⟨hcell, hl, hr⟩ := hinner
      have hleft : lChildOf ival = .mid := by
        rcases hside with rfl | rfl <;> rfl
      have hright : rChildOf ival = .mid ∨ rChildOf ival = .rhs := by
        rcases hside with rfl | rfl
        · exact Or.inl rfl
        · exact Or.inr rfl
      have hsplit : beg + d + mid - 1 = beg + mid - 1 + d := by omega
      -- the reduction of everything before is propagated to the left interval's last cell
      set m₁ := Function.update m (beg + mid - 1 + d) (reduce A.bop x o (beg + mid)) with hm₁
      have hsame : ∀ a, a ≠ beg + mid - 1 + d → m₁ a = m a := fun a ha =>
        Function.update_of_ne ha _ _
      have hself : m₁ (beg + mid - 1 + d) = reduce A.bop x o (beg + mid) :=
        Function.update_self _ _ _
      have hload' : run (load (beg + d + mid - 1)) m =
          some (reduce A.bop x beg (beg + mid), m) := by
        rw [run_load, hsplit, hcell]
      have hstore : run (store (beg + d + mid - 1)
          (A.bop (reduce A.bop x o beg) (reduce A.bop x beg (beg + mid)))) m = some ((), m₁) := by
        rw [run_store, hsplit, reduce_append A.bop x ho (show beg + 1 ≤ beg + mid by omega)]
      have hl₁ : Inner A d x fuel (lChildOf ival) beg (beg + mid) m₁ := by
        apply inner_congr hn hd hl
        intro i h₁ h₂
        rw [held_lChildOf] at h₂
        exact hsame _ (by omega)
      obtain ⟨m₂, hrun₂, hfinal₂⟩ := ih (Or.inl hleft) (show beg < beg + mid by omega) (by omega)
        ho (by rw [hsame _ (by omega)]; exact hprev) hl₁ fun _ => hself
      have hframe₂ := ((safe_fallSweepImpl hn hd (Or.inl hleft) (show beg < beg + mid by omega)
        (show beg + mid - beg ≤ fuel by omega)).frame hrun₂).2
      rw [held_lChildOf] at hframe₂
      have hr₂ : Inner A d x fuel (rChildOf ival) (beg + mid) fin m₂ := by
        apply inner_congr hn hd hr
        intro i h₁ h₂
        rw [hframe₂ _ fun hmem => absurd hmem.2 (by omega), hsame _ (by omega)]
      have hprev₂ : m₂ (beg + mid - 1 + d) = reduce A.bop x o (beg + mid) := by
        rw [hframe₂ _ fun hmem => absurd hmem.2 (by omega)]
        exact hself
      have hlast₂ : (rChildOf ival).held = 1 → m₂ (fin - 1 + d) = reduce A.bop x o fin := by
        intro h
        rw [hframe₂ _ fun hmem => absurd hmem.2 (by omega), hsame _ (by omega)]
        exact hlast ((held_rChildOf ival).symm.trans h)
      obtain ⟨m₃, hrun₃, hfinal₃⟩ := ih hright (show beg + mid < fin by omega) (by omega)
        (show o < beg + mid by omega) hprev₂ hr₂ hlast₂
      have hframe₃ := ((safe_fallSweepImpl hn hd hright (show beg + mid < fin by omega)
        (show fin - (beg + mid) ≤ fuel by omega)).frame hrun₃).2
      refine ⟨m₃, ?_, ?_⟩
      · refine (run_bind_of hassert).trans ?_
        refine (run_bind_of hload).trans ?_
        refine (run_bind_of hload').trans ?_
        refine (run_bind_of hstore).trans ?_
        have hfork : run (fork (A.fallSweepImpl fuel (lChildOf ival) beg (beg + mid) (beg + d))
            (A.fallSweepImpl fuel (rChildOf ival) (beg + mid) fin (beg + d + mid))) m₁ =
            some (((), ()), m₃) := by
          rw [run_fork, hrun₂, add_right_comm]
          dsimp only [Option.bind_some]
          rw [hrun₃]
          rfl
        exact (run_bind_of hfork).trans rfl
      · intro i h₁ h₂
        by_cases hi : i < beg + mid
        · rw [hframe₃ _ fun hmem => absurd hmem.1 (by omega)]
          exact hfinal₂ i h₁ hi
        · exact hfinal₃ i (by omega) h₂

/-- **The down-sweep of a part-scanned interval.** -/
theorem run_fallSweep [Std.Associative A.bop] (hn : 1 ≤ A.n) (hd : A.input.Aligned d)
    (hlt : beg < scanEnd) (hlt' : scanEnd < fin) (hfuel : fin - beg ≤ fuel) (ho : o ≤ beg)
    (hfinal : ∀ i, beg ≤ i → i < scanEnd → m (i + d) = reduce A.bop x o (i + 1))
    (hrest : Rest A d o x scanEnd fuel ival beg fin m)
    (hlast : ival.held = 1 → m (fin - 1 + d) = reduce A.bop x o fin) :
    ∃ m', run (A.fallSweep fuel ival beg fin (beg + d) scanEnd) m = some ((), m') ∧
      ∀ i, beg ≤ i → i < fin → m' (i + d) = reduce A.bop x o (i + 1) := by
  induction fuel generalizing ival beg fin m with
  | zero =>
    push_cast at hfuel
    omega
  | succ fuel ih =>
    have hfuel' : fin - beg ≤ fuel + 1 := by exact_mod_cast hfuel
    have hassert : run (assert (scanEnd < fin) : Prog ℤ V Unit) m = some ((), m) :=
      run_assert m hlt'
    unfold Rest at hrest
    unfold Args.fallSweep
    dsimp only at hrest ⊢
    obtain ⟨-, hpart, hfull, hmore⟩ := hrest
    have hm : 1 ≤ (fin - beg) / 2 ∧ (fin - beg) / 2 < fin - beg := by omega
    generalize (fin - beg) / 2 = mid at hm hpart hfull hmore ⊢
    have hright : rChildOf ival = .mid ∨ rChildOf ival = .rhs := by
      cases ival <;> first | exact Or.inl rfl | exact Or.inr rfl
    have hlast' : (rChildOf ival).held = 1 → m (fin - 1 + d) = reduce A.bop x o fin := fun h =>
      hlast ((held_rChildOf ival).symm.trans h)
    by_cases hlow : scanEnd < beg + mid
    · obtain ⟨hcell, hl, hr⟩ := hpart hlow
      obtain ⟨m₁, hrun₁, hfinal₁⟩ := ih hlt hlow (by omega) ho hfinal hl fun _ => hcell
      have hframe₁ := ((safe_fallSweep hn hd (lChildOf ival) hlt hlow
        (show beg + mid - beg ≤ fuel by omega)).frame hrun₁).2
      rw [held_lChildOf] at hframe₁
      have hr₁ : Inner A d x fuel (rChildOf ival) (beg + mid) fin m₁ := by
        apply inner_congr hn hd hr
        intro i h₁ h₂
        exact hframe₁ _ fun hmem => absurd hmem.2 (by omega)
      have hprev₁ : m₁ (beg + mid - 1 + d) = reduce A.bop x o (beg + mid) := by
        rw [hframe₁ _ fun hmem => absurd hmem.2 (by omega)]
        exact hcell
      have hlast₁ : (rChildOf ival).held = 1 → m₁ (fin - 1 + d) = reduce A.bop x o fin := by
        intro h
        rw [hframe₁ _ fun hmem => absurd hmem.2 (by omega)]
        exact hlast' h
      obtain ⟨m₂, hrun₂, hfinal₂⟩ := run_fallSweepImpl hn hd hright
        (show beg + mid < fin by omega) (show fin - (beg + mid) ≤ fuel by omega)
        (show o < beg + mid by omega) hprev₁ hr₁ hlast₁
      have hframe₂ := ((safe_fallSweepImpl hn hd hright (show beg + mid < fin by omega)
        (show fin - (beg + mid) ≤ fuel by omega)).frame hrun₂).2
      refine ⟨m₂, ?_, ?_⟩
      · refine (run_bind_of hassert).trans ?_
        rw [if_pos hlow]
        have hfork : run (fork (A.fallSweep fuel (lChildOf ival) beg (beg + mid) (beg + d) scanEnd)
            (A.fallSweepImpl fuel (rChildOf ival) (beg + mid) fin (beg + d + mid))) m =
            some (((), ()), m₂) := by
          rw [run_fork, hrun₁, add_right_comm]
          dsimp only [Option.bind_some]
          rw [hrun₂]
          rfl
        exact (run_bind_of hfork).trans rfl
      · intro i h₁ h₂
        by_cases hi : i < beg + mid
        · rw [hframe₂ _ fun hmem => absurd hmem.1 (by omega)]
          exact hfinal₁ i h₁ hi
        · exact hfinal₂ i (by omega) h₂
    · have hprev : m (beg + mid - 1 + d) = reduce A.bop x o (beg + mid) := by
        rw [hfinal _ (by omega) (by omega)]
        congr 1
        omega
      by_cases heq : scanEnd = beg + mid
      · obtain ⟨m₁, hrun₁, hfinal₁⟩ := run_fallSweepImpl hn hd hright
          (show beg + mid < fin by omega) (show fin - (beg + mid) ≤ fuel by omega)
          (show o < beg + mid by omega) hprev (hfull heq) hlast'
        have hframe₁ := ((safe_fallSweepImpl hn hd hright (show beg + mid < fin by omega)
          (show fin - (beg + mid) ≤ fuel by omega)).frame hrun₁).2
        refine ⟨m₁, ?_, ?_⟩
        · refine (run_bind_of hassert).trans ?_
          rw [if_neg hlow, if_pos heq, add_right_comm]
          exact hrun₁
        · intro i h₁ h₂
          by_cases hi : i < beg + mid
          · rw [hframe₁ _ fun hmem => absurd hmem.1 (by omega)]
            exact hfinal i h₁ (by omega)
          · exact hfinal₁ i (by omega) h₂
      · have hgt : beg + mid < scanEnd := by omega
        obtain ⟨m₁, hrun₁, hfinal₁⟩ := ih hgt hlt' (by omega) (show o ≤ beg + mid by omega)
          (fun i h₁ h₂ => hfinal i (by omega) h₂) (hmore hgt) hlast'
        have hframe₁ := ((safe_fallSweep hn hd (rChildOf ival) hgt hlt'
          (show fin - (beg + mid) ≤ fuel by omega)).frame hrun₁).2
        refine ⟨m₁, ?_, ?_⟩
        · refine (run_bind_of hassert).trans ?_
          rw [if_neg hlow, if_neg heq, add_right_comm]
          exact hrun₁
        · intro i h₁ h₂
          by_cases hi : i < beg + mid
          · rw [hframe₁ _ fun hmem => absurd hmem.1 (by omega)]
            exact hfinal i h₁ (by omega)
          · exact hfinal₁ i (by omega) h₂

end fall

end sweeps

/-! ## The scan -/

/-- The sequential run of the scan. -/
theorem run_scanImpl (A : Args T V) [Std.Associative A.bop] {d : ℤ} (hn : 1 ≤ A.n)
    (hd : A.input.Aligned d) {beg fin : ℤ} (hle : beg ≤ fin) (m : ℤ → V) :
    ∃ m', run (A.scanImpl beg fin (beg + d)) m = some ((), m') ∧
      ∀ i, beg ≤ i → i < fin → m' (i + d) = reduce A.bop (A.input.value m) beg (i + 1) := by
  unfold Args.scanImpl
  by_cases hempty : fin = beg
  · rw [if_pos hempty]
    exact ⟨m, rfl, fun i h₁ h₂ => by omega⟩
  · rw [if_neg hempty]
    have hlt : beg < fin := by omega
    obtain ⟨scanEnd, m₁, hrun₁, hfinal₁, hrest₁, -⟩ := run_riseScan hn hd hlt
      (show fin - beg ≤ ((fin - beg).toNat : ℤ) by omega) (fun _ => rfl)
      (fun h : Interval.all.left = 1 => by cases h) fun _ _ _ => rfl
    obtain ⟨⟨h₁, h₂⟩, -⟩ := (safe_riseScan hn hd .all hlt
      (show fin - beg ≤ ((fin - beg).toNat : ℤ) by omega)).frame hrun₁
    by_cases hrest : scanEnd = fin
    · subst hrest
      refine ⟨m₁, ?_, hfinal₁⟩
      refine (run_bind_of hrun₁).trans ?_
      rw [if_neg (not_not_intro rfl)]
      rfl
    · obtain ⟨m₂, hrun₂, hfinal₂⟩ := run_fallSweep hn hd h₁ (show scanEnd < fin by omega)
        (show fin - beg ≤ ((fin - beg).toNat : ℤ) by omega) le_rfl hfinal₁
        (hrest₁.resolve_left hrest) nofun
      refine ⟨m₂, ?_, hfinal₂⟩
      refine (run_bind_of hrun₁).trans ?_
      rw [if_pos hrest]
      exact hrun₂

/-- **The parallel scan is the sequential inclusive scan.** Whatever the synchronous forks report
and however the parallel calls interleave, the scan can be completed from wherever it stands; it
writes in the output of the range only; and when it has returned, the output at `i` is the
reduction of the input up to `i`, with the input as it was before the call. -/
theorem scan_correct (A : Args T V) [Std.Associative A.bop] (hn : 1 ≤ A.n) (beg fin out : ℤ)
    (hout : A.input.Aligned (out - beg)) (hle : beg ≤ fin) (m : ℤ → V) :
    Safe (cells out (out + (fin - beg))) (cells out (out + (fin - beg))) Any
      (A.scanImpl beg fin out) ∧
    (∀ p m', Steps (A.scanImpl beg fin out) m p m' → ∃ m'', Steps p m' (ret ()) m'') ∧
    ∀ m', Steps (A.scanImpl beg fin out) m (ret ()) m' →
      (∀ i, beg ≤ i → i < fin →
        m' (out + (i - beg)) = reduce A.bop (A.input.value m) beg (i + 1)) ∧
      ∀ a, a ∉ cells out (out + (fin - beg)) → m' a = m a := by
  have hbeg : beg + (out - beg) = out := by omega
  have hfin : fin + (out - beg) = out + (fin - beg) := by omega
  have hsafe := safe_scanImpl hn hout hle
  rw [hbeg, hfin] at hsafe
  refine ⟨hsafe, fun p m' hs => ?_, fun m' hs => ?_⟩
  · obtain ⟨_, m'', -, hsteps⟩ := hsafe.complete hs
    exact ⟨m'', hsteps⟩
  · obtain ⟨m'', hrun, hfinal⟩ := run_scanImpl A hn hout hle m
    rw [hbeg, hsafe.result hs] at hrun
    cases hrun
    refine ⟨fun i h₁ h₂ => ?_, (hsafe.frame (hsafe.result hs)).2⟩
    rw [← hfinal i h₁ h₂]
    congr 1
    omega

/-- Concatenation of three lists in place, in chunks of one, when the first fork's continuation is
stolen. -/
def concatArgs : Args ℕ (List ℕ) where
  input := .inPlace id
  bop := (· ++ ·)
  n := 1
  ready beg fin := fin - beg = 2

instance : Std.Associative concatArgs.bop := ⟨List.append_assoc⟩

/-- A scan of three lists by concatenation. -/
theorem scan_correct_concat : ∃ m' : ℤ → List ℕ,
    Steps (concatArgs.scanImpl 0 3 0) (fun i => [i.toNat]) (ret ()) m' ∧ m' 2 = [0, 1, 2] := by
  obtain ⟨-, hcomplete, hscan⟩ :=
    scan_correct concatArgs (by decide) 0 3 0 rfl (by decide) fun i => [i.toNat]
  obtain ⟨m', hs⟩ := hcomplete _ _ .refl
  exact ⟨m', hs, (hscan m' hs).1 2 (by decide) (by decide)⟩

end Libfork.Algorithm.Scan
