import Libfork.Found.Divide

/-!
# Parallel loops whose bodies may throw

* `Body` — what is done at one position: its code, the cells it accesses, whether it throws, the
  calls it makes, and what it does to the memory when it returns.
* `Body.loop`, `Body.sweep n` — the sequential loop, and divide and conquer down to loops over at
  most `n` positions.
* **`Body.Lawful.sweep_meets`** — a position is visited unless an earlier one of its leaf has
  thrown, and the whole throws if and only if a position throws.

Nothing here is about a particular program.
-/

namespace Libfork.Found

open Prog Routine

/-! ## Bodies -/

/-- What is done at each position. -/
structure Body (A V E : Type) where
  code : ℤ → Routine A V E Unit
  /-- The cells that the position may read. -/
  rd : ℤ → Set A
  /-- The cells that the position may write. -/
  wr : ℤ → Set A
  throws : ℤ → Bool
  /-- The calls of a visit, with the memory as it was before. -/
  visit : (A → V) → ℤ → List E
  /-- What a visit that returns does to the memory. -/
  wrote : ℤ → (A → V) → (A → V) → Prop

namespace Body

variable {A V E : Type} (B : Body A V E)

/-- `k` positions from `i` on, one after the other. -/
def loop : ℕ → ℤ → Routine A V E Unit
  | 0, _ => pure ()
  | k + 1, i => do
      B.code i
      loop k (i + 1)

/-- Halve down to loops over at most `n` positions. -/
def sweep (n : ℤ) : ℕ → ℤ → ℤ → Routine A V E Unit :=
  divide n (fun _ _ => []) (fun lo hi => B.loop (hi - lo).toNat lo) fun _ _ => ()

/-- The cells that the positions `[lo, hi)` may read. -/
def reads (lo hi : ℤ) : Set A := {a | ∃ i, lo ≤ i ∧ i < hi ∧ a ∈ B.rd i}

/-- The cells that the positions `[lo, hi)` may write. -/
def writes (lo hi : ℤ) : Set A := {a | ∃ i, lo ≤ i ∧ i < hi ∧ a ∈ B.wr i}

/-- No position of `[lo, hi)` throws. -/
def Clear (lo hi : ℤ) : Prop := ∀ i, lo ≤ i → i < hi → B.throws i = false

/-- The calls made at the position `i`. -/
def callsAt (index : E → ℤ) (i : ℤ) (es : List E) : List E := es.filter fun e => index e = i

/-- The code does what the rest says. -/
structure Lawful [DecidableEq A] (index : E → ℤ) : Prop where
  within : ∀ i, Within (B.rd i) (B.wr i) (B.code i)
  returns : ∀ i, B.throws i = false → ∀ m, ∃ m',
    run (B.code i).prog m = some (⟨some (), B.visit m i⟩, m') ∧ B.wrote i m m'
  throws : ∀ i, B.throws i = true → ∀ m,
    run (B.code i).prog m = some (⟨none, B.visit m i⟩, m)
  index : ∀ m i, ∀ e ∈ B.visit m i, index e = i
  visit_congr : ∀ i m m', (∀ a ∈ B.rd i, m' a = m a) → B.visit m' i = B.visit m i
  wrote_congr : ∀ i m m' m₁ m₁', B.wrote i m m' → (∀ a ∈ B.rd i, m₁ a = m a) →
    (∀ a ∈ B.wr i, m₁' a = m' a) → B.wrote i m₁ m₁'
  apart : ∀ i j, i ≠ j → ∀ a ∈ B.wr i, a ∉ B.rd j ∪ B.wr j

/-! ## What a sweep leaves -/

variable (index : E → ℤ)

/-- The position `i` of the leaf that begins at `b`. -/
structure Position (b i : ℤ) (m : A → V) (es : List E) (m' : A → V) : Prop where
  visited : B.Clear b i → callsAt index i es = B.visit m i
  skipped : ¬B.Clear b i → callsAt index i es = []
  wrote : B.Clear b (i + 1) → B.wrote i m m'
  kept : ¬B.Clear b (i + 1) → ∀ a ∈ B.wr i, m' a = m a

/-- The whole of `[lo, hi)`. -/
structure Swept (n lo hi : ℤ) (m : A → V) (o : Outcome E Unit) (m' : A → V) : Prop where
  inside : ∀ b e, Leaf n lo hi b e → ∀ i, b ≤ i → i < e → B.Position index b i m o.calls m'
  outside : ∀ i, i < lo ∨ hi ≤ i → callsAt index i o.calls = []
  returned : B.Clear lo hi → o.value = some ()
  threw : ¬B.Clear lo hi → o.value = none

variable {B} {index}

/-- The calls for a position, of two records in sequence. -/
theorem callsAt_append (i : ℤ) (es es' : List E) :
    callsAt index i (es ++ es') = callsAt index i es ++ callsAt index i es' :=
  List.filter_append ..

/-- No position of a shorter range throws. -/
theorem Clear.left {lo mid hi : ℤ} (h : B.Clear lo hi) (hle : mid ≤ hi) : B.Clear lo mid :=
  fun i h₁ h₂ => h i h₁ (by omega)

/-- Nor does one that begins later. -/
theorem Clear.right {lo mid hi : ℤ} (h : B.Clear lo hi) (hle : lo ≤ mid) : B.Clear mid hi :=
  fun i h₁ h₂ => h i (by omega) h₂

/-- Two ranges in which no position throws. -/
theorem Clear.append {lo mid hi : ℤ} (h : B.Clear lo mid) (h' : B.Clear mid hi) :
    B.Clear lo hi := by
  intro i h₁ h₂
  by_cases hi : i < mid
  · exact h i h₁ hi
  · exact h' i (by omega) h₂

/-- An empty range throws nothing. -/
theorem clear_self (lo : ℤ) : B.Clear lo lo := by
  intro i h₁ h₂
  omega

/-- A range that is not clear has a position that throws. -/
theorem not_clear {lo hi : ℤ} : ¬B.Clear lo hi ↔ ∃ i, lo ≤ i ∧ i < hi ∧ B.throws i = true := by
  simp [Clear]

/-- Nothing is to be done. -/
theorem swept_empty (n lo : ℤ) (m : A → V) : B.Swept index n lo lo m ⟨some (), []⟩ m := by
  constructor
  · intro b e hleaf i h₁ h₂
    have hbounds := hleaf.bounds le_rfl
    omega
  · exact fun _ _ => rfl
  · exact fun _ => rfl
  · intro hnot
    exact absurd (clear_self lo) hnot

/-- Every position is one of some leaf. -/
theorem Swept.position {n lo hi : ℤ} {m m' : A → V} {o : Outcome E Unit}
    (h : B.Swept index n lo hi m o m') (hn : 1 ≤ n) {i : ℤ} (hlo : lo ≤ i) (hhi : i < hi) :
    ∃ b e, Leaf n lo hi b e ∧ lo ≤ b ∧ b ≤ i ∧ i < e ∧ B.Position index b i m o.calls m' := by
  obtain ⟨b, e, hleaf, hb, he⟩ := exists_leaf hn hlo hhi
  exact ⟨b, e, hleaf, (hleaf.bounds (by omega)).1, hb, he, h.inside b e hleaf i hb he⟩

variable [DecidableEq A]

/-- What is done elsewhere does not matter. -/
theorem Position.congr {b i : ℤ} {m m' m₁ m₁' : A → V} {es es' : List E}
    (h : B.Position index b i m es m') (hB : B.Lawful index)
    (hrd : ∀ a ∈ B.rd i, m₁ a = m a) (hwr : ∀ a ∈ B.wr i, m₁ a = m a)
    (hwr' : ∀ a ∈ B.wr i, m₁' a = m' a) (hes : callsAt index i es' = callsAt index i es) :
    B.Position index b i m₁ es' m₁' := by
  constructor
  · intro hclear
    rw [hes, h.visited hclear, hB.visit_congr i m m₁ hrd]
  · intro hclear
    rw [hes, h.skipped hclear]
  · intro hclear
    exact hB.wrote_congr i m m' m₁ m₁' (h.wrote hclear) hrd hwr'
  · intro hclear a ha
    rw [hwr' a ha, h.kept hclear a ha, hwr a ha]

/-! ## The loop -/

/-- The loop touches the cells of its range only. -/
theorem Lawful.within_loop (hB : B.Lawful index) {lo : ℤ} (k : ℕ) {i : ℤ} (hi : lo ≤ i) :
    Within (B.reads lo (i + k)) (B.writes lo (i + k)) (B.loop k i) := by
  induction k generalizing i with
  | zero => exact within_pure ()
  | succ k ih =>
    have hend : i + 1 + (k : ℤ) = i + (k + 1 : ℕ) := by
      push_cast
      omega
    have hrest := ih (i := i + 1) (by omega)
    rw [hend] at hrest
    apply Within.bind
    · apply (hB.within i).mono
      · intro a ha
        exact ⟨i, hi, by omega, ha⟩
      · intro a ha
        exact ⟨i, hi, by omega, ha⟩
      · exact fun _ h => h
    · intro _
      exact hrest

/-- What a loop over `[lo, hi)` leaves: it is one leaf. -/
structure Looped (B : Body A V E) (index : E → ℤ) (lo hi : ℤ) (m : A → V) (o : Outcome E Unit)
    (m' : A → V) : Prop where
  inside : ∀ i, lo ≤ i → i < hi → B.Position index lo i m o.calls m'
  outside : ∀ i, i < lo ∨ hi ≤ i → callsAt index i o.calls = []
  returned : B.Clear lo hi → o.value = some ()
  threw : ¬B.Clear lo hi → o.value = none

/-- A visit is of its position. -/
theorem Lawful.callsAt_visit (hB : B.Lawful index) (m : A → V) (i : ℤ) :
    callsAt index i (B.visit m i) = B.visit m i :=
  List.filter_eq_self.mpr fun e he => by simpa using hB.index m i e he

/-- It is of no other. -/
theorem Lawful.callsAt_visit_of_ne (hB : B.Lawful index) (m : A → V) {i j : ℤ} (h : j ≠ i) :
    callsAt index j (B.visit m i) = [] :=
  List.filter_eq_nil_iff.mpr fun e he => by
    have hi := hB.index m i e he
    simp [hi, Ne.symm h]

/-- The first position throws: nothing else is done. -/
theorem Lawful.looped_throw (hB : B.Lawful index) {lo hi : ℤ} (hlt : lo < hi)
    (hthrow : B.throws lo = true) (m : A → V) :
    Looped B index lo hi m ⟨none, B.visit m lo⟩ m := by
  have hnot : ∀ i, lo < i → ¬B.Clear lo i := by
    intro i hi hclear
    have hfalse := hclear lo le_rfl hi
    rw [hthrow] at hfalse
    cases hfalse
  constructor
  · intro i h₁ h₂
    constructor
    · intro hclear
      obtain rfl : i = lo := by
        by_contra hne
        exact hnot i (by omega) hclear
      exact hB.callsAt_visit m i
    · intro hclear
      refine hB.callsAt_visit_of_ne m ?_
      rintro rfl
      exact hclear (clear_self i)
    · intro hclear
      exact absurd hclear (hnot (i + 1) (by omega))
    · exact fun _ _ _ => rfl
  · intro i hi
    exact hB.callsAt_visit_of_ne m (by omega)
  · intro hclear
    exact absurd hclear (hnot hi hlt)
  · exact fun _ => rfl

/-- The first position returns, and the loop goes on. -/
theorem Lawful.looped_cons (hB : B.Lawful index) {lo hi : ℤ} (hlt : lo < hi)
    (hreturn : B.throws lo = false) {m m₁ m' : A → V} {o : Outcome E Unit}
    (hwrote : B.wrote lo m m₁) (hframe : ∀ a, a ∉ B.wr lo → m₁ a = m a)
    (hframe' : ∀ a, a ∉ B.writes (lo + 1) hi → m' a = m₁ a)
    (h : Looped B index (lo + 1) hi m₁ o m') :
    Looped B index lo hi m ⟨o.value, B.visit m lo ++ o.calls⟩ m' := by
  have hone : B.Clear lo (lo + 1) := by
    intro i h₁ h₂
    obtain rfl : i = lo := by omega
    exact hreturn
  have hclear : ∀ i, lo < i → (B.Clear lo i ↔ B.Clear (lo + 1) i) := fun i hi =>
    ⟨fun h => h.right (by omega), fun h => hone.append h⟩
  constructor
  · intro i h₁ h₂
    by_cases heq : i = lo
    · subst heq
      constructor
      · intro _
        change callsAt index i (B.visit m i ++ o.calls) = B.visit m i
        rw [callsAt_append, hB.callsAt_visit m i, h.outside i (Or.inl (by omega)),
          List.append_nil]
      · intro hnot
        exact absurd (clear_self i) hnot
      · intro _
        refine hB.wrote_congr i m m₁ m m' hwrote (fun _ _ => rfl) ?_
        intro a ha
        apply hframe'
        rintro ⟨j, hj, -, haj⟩
        exact hB.apart i j (by omega) a ha (Or.inr haj)
      · intro hnot
        exact absurd hone hnot
    · have hpos := h.inside i (by omega) h₂
      have hother : ∀ a, a ∈ B.rd i ∪ B.wr i → m a = m₁ a := by
        intro a ha
        refine (hframe a fun hmem => ?_).symm
        exact hB.apart lo i (Ne.symm heq) a hmem ha
      have hcalls : callsAt index i (B.visit m lo ++ o.calls) = callsAt index i o.calls := by
        rw [callsAt_append, hB.callsAt_visit_of_ne m heq, List.nil_append]
      have hpos' := hpos.congr hB (fun a ha => hother a (Or.inl ha))
        (fun a ha => hother a (Or.inr ha)) (fun _ _ => rfl) hcalls
      constructor
      · intro hc
        exact hpos'.visited ((hclear i (by omega)).mp hc)
      · intro hc
        exact hpos'.skipped (mt (hclear i (by omega)).mpr hc)
      · intro hc
        exact hpos'.wrote ((hclear (i + 1) (by omega)).mp hc)
      · intro hc
        exact hpos'.kept (mt (hclear (i + 1) (by omega)).mpr hc)
  · intro i hi
    change callsAt index i (B.visit m lo ++ o.calls) = []
    rw [callsAt_append, hB.callsAt_visit_of_ne m (by omega), h.outside i (by omega)]
    rfl
  · intro hc
    exact h.returned ((hclear hi hlt).mp hc)
  · intro hc
    exact h.threw (mt (hclear hi hlt).mpr hc)

/-- A loop stops at the first position that throws. -/
theorem Lawful.run_loop (hB : B.Lawful index) (k : ℕ) (i : ℤ) (m : A → V) :
    ∃ o m', run (B.loop k i).prog m = some (o, m') ∧ Looped B index i (i + k) m o m' := by
  induction k generalizing i m with
  | zero =>
    refine ⟨⟨some (), []⟩, m, rfl, ?_⟩
    constructor
    · intro j h₁ h₂
      push_cast at h₂
      omega
    · exact fun _ _ => rfl
    · exact fun _ => rfl
    · intro hnot
      rw [Nat.cast_zero, add_zero] at hnot
      exact absurd (clear_self i) hnot
  | succ k ih =>
    have hend : i + 1 + (k : ℤ) = i + (k + 1 : ℕ) := by
      push_cast
      omega
    cases hthrow : B.throws i with
    | true =>
      exact ⟨_, m, run_bind_none (hB.throws i hthrow m),
        hB.looped_throw (by push_cast; omega) hthrow m⟩
    | false =>
      obtain ⟨m₁, hrun, hwrote⟩ := hB.returns i hthrow m
      obtain ⟨o, m', hrun', hloop⟩ := ih (i + 1) m₁
      have hframe := (hB.within_loop k (le_refl (i + 1))).frame hrun'
      rw [hend] at hloop hframe
      exact ⟨_, m', run_bind_some hrun hrun', hB.looped_cons (by push_cast; omega) hthrow hwrote
        ((hB.within i).frame hrun).2 hframe.2 hloop⟩

/-! ## The sweep -/

/-- The halves of a range touch different cells. -/
theorem Lawful.splits (hB : B.Lawful index) (n : ℤ) : Splits n B.reads B.writes := by
  constructor
  · intro lo mid hi h₁ h₂
    constructor
    · rintro a (⟨i, h₃, h₄, ha⟩ | ⟨i, h₃, h₄, ha⟩) <;> exact ⟨i, by omega, by omega, ha⟩
    · rintro a (⟨i, h₃, h₄, ha⟩ | ⟨i, h₃, h₄, ha⟩) <;> exact ⟨i, by omega, by omega, ha⟩
  · rintro lo mid hi h₁ h₂ a ⟨i, -, hi, ha⟩ (⟨j, hj, -, haj⟩ | ⟨j, hj, -, haj⟩)
    · exact hB.apart i j (by omega) a ha (Or.inl haj)
    · exact hB.apart i j (by omega) a ha (Or.inr haj)
  · rintro lo mid hi h₁ h₂ a ⟨i, hi, -, ha⟩ (⟨j, -, hj, haj⟩ | ⟨j, -, hj, haj⟩)
    · exact hB.apart i j (by omega) a ha (Or.inl haj)
    · exact hB.apart i j (by omega) a ha (Or.inr haj)

/-- The loop sweeps a range that is small enough. -/
theorem Lawful.loop_meets (hB : B.Lawful index) {n lo hi : ℤ} (hlt : lo < hi)
    (hsmall : hi - lo ≤ n) :
    Meets (B.loop (hi - lo).toNat lo).prog (B.reads lo hi) (B.writes lo hi)
      fun m o m' => B.Swept index n lo hi m (o.after []) m' := by
  have hend : lo + ((hi - lo).toNat : ℤ) = hi := by omega
  constructor
  · have hsafe := hB.within_loop (hi - lo).toNat (le_refl lo)
    rw [hend] at hsafe
    exact hsafe
  · intro m
    obtain ⟨o, m', hrun, hloop⟩ := hB.run_loop (hi - lo).toNat lo m
    rw [hend] at hloop
    refine ⟨o, m', hrun, ?_, hloop.outside, hloop.returned, hloop.threw⟩
    intro b e hleaf i h₁ h₂
    cases hleaf with
    | whole _ => exact hloop.inside i h₁ h₂
    | left hlong _ => omega
    | right hlong _ => omega

/-- The two halves of an interval that is not a leaf. -/
theorem Lawful.swept_join (hB : B.Lawful index) {n lo mid hi : ℤ} (hn : 1 ≤ n)
    (hlong : n < hi - lo) (hmid : mid = lo + (hi - lo) / 2) {m m₁ m₂ : A → V}
    {o₁ o₂ : Outcome E Unit} (h₁ : B.Swept index n lo mid m o₁ m₁)
    (hframe₁ : ∀ a, a ∉ B.writes lo mid → m₁ a = m a) (h₂ : B.Swept index n mid hi m₁ o₂ m₂)
    (hframe₂ : ∀ a, a ∉ B.writes mid hi → m₂ a = m₁ a) :
    B.Swept index n lo hi m ((o₁.join (fun _ _ => ()) o₂).after []) m₂ := by
  have hm : lo < mid ∧ mid < hi := by omega
  have hclear : B.Clear lo hi ↔ B.Clear lo mid ∧ B.Clear mid hi :=
    ⟨fun h => ⟨h.left (by omega), h.right (by omega)⟩, fun h => h.1.append h.2⟩
  constructor
  · intro b e hleaf i hb he
    change B.Position index b i m (o₁.calls ++ o₂.calls) m₂
    cases hleaf with
    | whole h => omega
    | left _ hleaf =>
      rw [← hmid] at hleaf
      have hbounds := hleaf.bounds (by omega)
      refine (h₁.inside b e hleaf i hb he).congr hB (fun _ _ => rfl) (fun _ _ => rfl) ?_ ?_
      · intro a ha
        apply hframe₂
        rintro ⟨j, hj, -, haj⟩
        exact hB.apart i j (by omega) a ha (Or.inr haj)
      · rw [callsAt_append, h₂.outside i (Or.inl (by omega)), List.append_nil]
    | right _ hleaf =>
      rw [← hmid] at hleaf
      have hbounds := hleaf.bounds (by omega)
      have hother : ∀ a, a ∈ B.rd i ∪ B.wr i → m a = m₁ a := by
        intro a ha
        refine (hframe₁ a ?_).symm
        rintro ⟨j, -, hj, haj⟩
        exact hB.apart j i (by omega) a haj ha
      refine (h₂.inside b e hleaf i hb he).congr hB (fun a ha => hother a (Or.inl ha))
        (fun a ha => hother a (Or.inr ha)) (fun _ _ => rfl) ?_
      rw [callsAt_append, h₁.outside i (Or.inr (by omega)), List.nil_append]
  · intro i hi
    change callsAt index i (o₁.calls ++ o₂.calls) = []
    rw [callsAt_append, h₁.outside i (by omega), h₂.outside i (by omega)]
    rfl
  · intro hc
    obtain ⟨hc₁, hc₂⟩ := hclear.mp hc
    change (o₁.value.bind fun _ => o₂.value.map fun _ => ()) = some ()
    rw [h₁.returned hc₁, h₂.returned hc₂]
    rfl
  · intro hc
    change (o₁.value.bind fun _ => o₂.value.map fun _ => ()) = none
    by_cases hc₁ : B.Clear lo mid
    · rw [h₂.threw fun hc₂ => hc (hclear.mpr ⟨hc₁, hc₂⟩)]
      simp
    · rw [h₁.threw hc₁]
      rfl

/-- **A parallel loop visits what its leaves visit.** -/
theorem Lawful.sweep_meets (hB : B.Lawful index) {n : ℤ} (hn : 1 ≤ n) {fuel : ℕ} {lo hi : ℤ}
    (hlt : lo < hi) (hfuel : hi - lo ≤ fuel) :
    Meets (B.sweep n fuel lo hi).prog (B.reads lo hi) (B.writes lo hi)
      (B.Swept index n lo hi) :=
  divide_meets hn (hB.splits n) (fun _ _ h h' => hB.loop_meets h h')
    (fun _ _ _ _ _ _ _ _ hlong hmid h₁ hframe₁ h₂ hframe₂ =>
      hB.swept_join hn hlong hmid h₁ hframe₁ h₂ hframe₂) hlt hfuel

end Body

end Libfork.Found
