import Libfork.Found.Routine
import Mathlib.Algebra.Ring.Int.Defs

/-!
# Divide and conquer on an interval

* `Routine.divide n note leaf join fuel lo hi` — an interval of at most `n` positions is a leaf; a
  longer one is halved, and the halves run in parallel.
* `Leaf n lo hi b e` — `[b, e)` is a leaf of `[lo, hi)`; **`exists_leaf`**: every position is in
  one.
* **`Routine.divide_meets`** — what the leaves meet, and every fork keeps, the whole meets.

Nothing here is about a particular program.
-/

namespace Libfork.Found

/-! ## Leaves -/

/-- `[b, e)` is a leaf of `[lo, hi)`. -/
inductive Leaf (n : ℤ) : ℤ → ℤ → ℤ → ℤ → Prop
  | whole {lo hi : ℤ} (h : hi - lo ≤ n) : Leaf n lo hi lo hi
  | left {lo hi b e : ℤ} (h : n < hi - lo) (hc : Leaf n lo (lo + (hi - lo) / 2) b e) :
      Leaf n lo hi b e
  | right {lo hi b e : ℤ} (h : n < hi - lo) (hc : Leaf n (lo + (hi - lo) / 2) hi b e) :
      Leaf n lo hi b e

variable {n lo hi b e : ℤ}

/-- A leaf has at most `n` positions, all of them in the interval. -/
theorem Leaf.bounds (h : Leaf n lo hi b e) (hle : lo ≤ hi) :
    lo ≤ b ∧ b ≤ e ∧ e ≤ hi ∧ e - b ≤ n := by
  induction h with
  | whole h => exact ⟨le_rfl, hle, le_rfl, h⟩
  | left h hc ih =>
    obtain ⟨h₁, h₂, h₃, h₄⟩ := ih (by omega)
    exact ⟨h₁, h₂, by omega, h₄⟩
  | right h hc ih =>
    obtain ⟨h₁, h₂, h₃, h₄⟩ := ih (by omega)
    exact ⟨by omega, h₂, h₃, h₄⟩

/-- Every position is in a leaf. -/
theorem exists_leaf (hn : 1 ≤ n) {i : ℤ} (hlo : lo ≤ i) (hhi : i < hi) :
    ∃ b e, Leaf n lo hi b e ∧ b ≤ i ∧ i < e := by
  obtain ⟨k, hk⟩ : ∃ k : ℕ, hi - lo ≤ k := ⟨(hi - lo).toNat, by omega⟩
  induction k generalizing lo hi with
  | zero =>
    push_cast at hk
    omega
  | succ k ih =>
    push_cast at hk
    by_cases hleaf : hi - lo ≤ n
    · exact ⟨lo, hi, .whole hleaf, hlo, hhi⟩
    · by_cases hmid : i < lo + (hi - lo) / 2
      · obtain ⟨b, e, hc, hmem⟩ := ih hlo hmid (by omega)
        exact ⟨b, e, .left (by omega) hc, hmem⟩
      · obtain ⟨b, e, hc, hmem⟩ :=
          ih (show lo + (hi - lo) / 2 ≤ i by omega) hhi (by omega)
        exact ⟨b, e, .right (by omega) hc, hmem⟩

/-! ## The recursion -/

/-- What a fork makes of its two halves. -/
def Outcome.join {E R : Type} (f : R → R → R) (o o' : Outcome E R) : Outcome E R where
  value := o.value.bind fun x => o'.value.map fun y => f x y
  calls := o.calls ++ o'.calls

/-- The calls `es` came first. -/
def Outcome.after {E R : Type} (es : List E) (o : Outcome E R) : Outcome E R where
  value := o.value
  calls := es ++ o.calls

namespace Routine

open Prog

variable {A V E R : Type}

/-- Halve the interval until at most `n` positions are left. Every call adds its `note` to the
record. -/
def divide (n : ℤ) (note : ℤ → ℤ → List E) (leaf : ℤ → ℤ → Routine A V E R) (join : R → R → R) :
    ℕ → ℤ → ℤ → Routine A V E R
  | 0, _, _ => ⟨.fail⟩
  | fuel + 1, lo, hi => do
      record (note lo hi)
      if hi - lo ≤ n then leaf lo hi
      else do
        let mid := lo + (hi - lo) / 2
        let (x, y) ←
          both (divide n note leaf join fuel lo mid) (divide n note leaf join fuel mid hi)
        pure (join x y)

variable [DecidableEq A] {note : ℤ → ℤ → List E} {leaf : ℤ → ℤ → Routine A V E R}
  {join : R → R → R}
  {rd wr : ℤ → ℤ → Set A} {post : ℤ → ℤ → (A → V) → Outcome E R → (A → V) → Prop}

/-- A fork and its join. -/
theorem run_both_pure {l r : Routine A V E R} {m m₁ m₂ : A → V} {o o' : Outcome E R}
    (hl : run l.prog m = some (o, m₁)) (hr : run r.prog m₁ = some (o', m₂)) :
    run (both l r >>= fun x => pure (join x.1 x.2)).prog m = some (Outcome.join join o o', m₂) := by
  have hboth := run_both hl hr
  obtain ⟨v, es⟩ := o
  obtain ⟨v', es'⟩ := o'
  cases v with
  | none => exact run_bind_none hboth
  | some x =>
    cases v' with
    | none => exact run_bind_none hboth
    | some y =>
      have h := run_bind_some (f := fun x : R × R => pure (join x.1 x.2)) hboth (run_pure _ _)
      rw [h]
      simp [Outcome.join]

/-- The footprints of the intervals: halves stay within the whole and apart from each other. -/
structure Splits (n : ℤ) (rd wr : ℤ → ℤ → Set A) : Prop where
  sub : ∀ lo mid hi, lo < mid → mid < hi →
    rd lo mid ∪ rd mid hi ⊆ rd lo hi ∧ wr lo mid ∪ wr mid hi ⊆ wr lo hi
  left : ∀ lo mid hi, lo < mid → mid < hi → ∀ a ∈ wr lo mid, a ∉ rd mid hi ∪ wr mid hi
  right : ∀ lo mid hi, lo < mid → mid < hi → ∀ a ∈ wr mid hi, a ∉ rd lo mid ∪ wr lo mid

/-- **The rule of divide and conquer.** -/
theorem divide_meets (hn : 1 ≤ n) (hsplit : Splits n rd wr)
    (hleaf : ∀ lo hi, lo < hi → hi - lo ≤ n →
      Meets (leaf lo hi).prog (rd lo hi) (wr lo hi)
        fun m o m' => post lo hi m (o.after (note lo hi)) m')
    (hjoin : ∀ lo mid hi m o₁ m₁ o₂ m₂, n < hi - lo → mid = lo + (hi - lo) / 2 →
      post lo mid m o₁ m₁ → (∀ a, a ∉ wr lo mid → m₁ a = m a) →
      post mid hi m₁ o₂ m₂ → (∀ a, a ∉ wr mid hi → m₂ a = m₁ a) →
      post lo hi m ((o₁.join join o₂).after (note lo hi)) m₂)
    {fuel : ℕ} (hlt : lo < hi) (hfuel : hi - lo ≤ fuel) :
    Meets (divide n note leaf join fuel lo hi).prog (rd lo hi) (wr lo hi) (post lo hi) := by
  induction fuel generalizing lo hi with
  | zero =>
    push_cast at hfuel
    omega
  | succ fuel ih =>
    push_cast at hfuel
    unfold divide
    split_ifs with hsmall
    · obtain ⟨hsafe, hrun⟩ := hleaf lo hi hlt hsmall
      constructor
      · exact Within.bind (within_record _) fun _ => hsafe
      · intro m
        obtain ⟨o, m', hrun, hpost⟩ := hrun m
        exact ⟨_, m', run_bind_some (run_record _ m) hrun, hpost⟩
    · have hm : lo < lo + (hi - lo) / 2 ∧ lo + (hi - lo) / 2 < hi := by omega
      obtain ⟨hl, hl'⟩ := ih hm.1 (by omega)
      obtain ⟨hr, hr'⟩ := ih hm.2 (by omega)
      obtain ⟨hrd, hwr⟩ := hsplit.sub lo _ hi hm.1 hm.2
      constructor
      · apply Within.bind (within_record _)
        intro _
        apply Within.bind (within_both hl hr (hsplit.left lo _ hi hm.1 hm.2)
          (hsplit.right lo _ hi hm.1 hm.2) hrd hwr)
        intro x
        exact within_pure _
      · intro m
        obtain ⟨o₁, m₁, hrun₁, hpost₁⟩ := hl' m
        obtain ⟨o₂, m₂, hrun₂, hpost₂⟩ := hr' m₁
        have hpost := hjoin lo _ hi m o₁ m₁ o₂ m₂ (by omega) rfl hpost₁ (hl.frame hrun₁).2 hpost₂
          (hr.frame hrun₂).2
        exact ⟨_, m₂, run_bind_some (run_record _ m) (run_both_pure hrun₁ hrun₂), hpost⟩

end Routine

end Libfork.Found
