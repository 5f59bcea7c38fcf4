import Libfork.Algorithm.Scan.Calls
import Libfork.Algorithm.Scan.Correct

/-!
# The boundary between the two sweeps

The up-sweep reports how far it has scanned, and the down-sweep looks for that boundary. Both
recurse by halves, and stop at chunks of `n`.

* `SplitPoint` — where the recursion splits an interval of more than `n`.
* `Stops` — the up-sweep has stopped scanning at `p`, and has folded what the down-sweep needs.
* `Lands` — the down-sweep has reached `p`, through intervals of more than `n` around it.
* **`boundary_of_run`** — the up-sweep reports the end or a split point, and then the down-sweep
  lands there; whatever the synchronous forks report.

Source: `scan.hpp`, `rise_sweep`, `fall_sweep`, `scan_impl`.
-/

namespace Libfork.Algorithm.Scan

open Libfork.Found Prog Routine

variable {T V : Type}

/-! ## The implicit tree -/

section tree

variable (n : ℤ)

/-- The intervals below an interval, in the recursion by halves down to `n`. -/
inductive Node : Interval → ℤ → ℤ → Interval → ℤ → ℤ → Prop
  | self {ival : Interval} {beg fin : ℤ} : Node ival beg fin ival beg fin
  | left {ival i : Interval} {beg fin b f : ℤ} (hn : n < fin - beg)
      (h : Node (lChildOf ival) beg (beg + (fin - beg) / 2) i b f) : Node ival beg fin i b f
  | right {ival i : Interval} {beg fin b f : ℤ} (hn : n < fin - beg)
      (h : Node (rChildOf ival) (beg + (fin - beg) / 2) fin i b f) : Node ival beg fin i b f

/-- The recursion splits some interval of more than `n` at `p`. -/
inductive SplitPoint (p : ℤ) : ℤ → ℤ → Prop
  | here {beg fin : ℤ} (hn : n < fin - beg) (hp : p = beg + (fin - beg) / 2) : SplitPoint p beg fin
  | left {beg fin : ℤ} (hn : n < fin - beg) (h : SplitPoint p beg (beg + (fin - beg) / 2)) :
      SplitPoint p beg fin
  | right {beg fin : ℤ} (hn : n < fin - beg) (h : SplitPoint p (beg + (fin - beg) / 2) fin) :
      SplitPoint p beg fin

/-- All of the interval was processed as a fold. -/
def Folded (es : List Call) (ival : Interval) (beg fin : ℤ) : Prop :=
  ∀ i b f, Node n ival beg fin i b f → .fold i b f ∈ es

/-- The up-sweep has scanned up to `p` and folded from there on. -/
inductive Stops (es : List Call) (p : ℤ) : Interval → ℤ → ℤ → Prop
  | here {ival : Interval} {beg fin : ℤ} (hn : n < fin - beg) (hp : p = beg + (fin - beg) / 2)
      (hfold : Folded n es (rChildOf ival) (beg + (fin - beg) / 2) fin) : Stops es p ival beg fin
  | left {ival : Interval} {beg fin : ℤ} (hn : n < fin - beg)
      (h : Stops es p (lChildOf ival) beg (beg + (fin - beg) / 2))
      (hfold : Folded n es (rChildOf ival) (beg + (fin - beg) / 2) fin) : Stops es p ival beg fin
  | right {ival : Interval} {beg fin : ℤ} (hn : n < fin - beg)
      (h : Stops es p (rChildOf ival) (beg + (fin - beg) / 2) fin) : Stops es p ival beg fin

variable {n} {es es' : List Call} {p : ℤ} {ival : Interval} {beg fin : ℤ}

/-- More calls on record do not undo a fold. -/
theorem Folded.mono (h : Folded n es ival beg fin) (hsub : es ⊆ es') : Folded n es' ival beg fin :=
  fun i b f hnode => hsub (h i b f hnode)

/-- Nor do they undo a boundary. -/
theorem Stops.mono (h : Stops n es p ival beg fin) (hsub : es ⊆ es') :
    Stops n es' p ival beg fin := by
  induction h with
  | here hn hp hfold => exact .here hn hp (hfold.mono hsub)
  | left hn _ hfold ih => exact .left hn ih (hfold.mono hsub)
  | right hn _ ih => exact .right hn ih

/-- A boundary is a split point. -/
theorem Stops.splitPoint (h : Stops n es p ival beg fin) : SplitPoint n p beg fin := by
  induction h with
  | here hn hp => exact .here hn hp
  | left hn _ _ ih => exact .left hn ih
  | right hn _ ih => exact .right hn ih

/-- A split point is inside its interval. -/
theorem SplitPoint.inside (h : SplitPoint n p beg fin) (hpos : 1 ≤ n) : beg < p ∧ p < fin := by
  induction h with
  | here hn hp => omega
  | left hn _ ih => omega
  | right hn _ ih => omega

end tree

/-! ## The up-sweep -/

section rise

variable (A : Args T V) {fuel : ℕ} {ival : Interval} {beg fin out : ℤ}

/-- The up-sweep that folds, folds everything. -/
theorem yields_riseFoldCalls : Yields (A.riseFoldCalls fuel ival beg fin out) fun _ es =>
    Folded A.n es ival beg fin := by
  induction fuel generalizing ival beg fin out with
  | zero => exact yields_fail
  | succ fuel ih =>
    apply yields_record
    apply yields_assert
    intro _
    apply yields_ite
    · intro hleaf
      have hfolded : ∀ es, Folded A.n ([.fold ival beg fin] ++ es) ival beg fin := by
        rintro es i b f (_ | ⟨hn, -⟩ | ⟨hn, -⟩)
        · exact List.mem_cons_self
        · omega
        · omega
      apply yields_ite
      · intro _
        exact yields_lift_bind fun _ => yields_lift_bind fun _ => yields_lift fun _ => hfolded []
      · intro _
        exact yields_pure (hfolded [])
    · intro hnode
      refine Yields.bind (ih.both ih) ?_
      rintro _ es ⟨es₁, es₂, rfl, hl, hr⟩
      refine yields_lift fun _ => ?_
      rintro i b f (_ | ⟨-, h⟩ | ⟨-, h⟩)
      · exact List.mem_cons_self
      · have hmem := hl i b f h
        simp [hmem]
      · have hmem := hr i b f h
        simp [hmem]

/-- With the right child folded, scanning has stopped in the left one, or at its end. -/
theorem stops_of_folded {n p : ℤ} {es : List Call} (hn : n < fin - beg)
    (hleft : p = beg + (fin - beg) / 2 ∨
      Stops n es p (lChildOf ival) beg (beg + (fin - beg) / 2))
    (hfold : Folded n es (rChildOf ival) (beg + (fin - beg) / 2) fin) :
    Stops n es p ival beg fin := by
  rcases hleft with rfl | hstops
  · exact .here hn rfl hfold
  · exact .left hn hstops hfold

/-- **The up-sweep reports the end, or where it has stopped scanning.** -/
theorem yields_riseScanCalls :
    Yields (A.riseScanCalls fuel ival beg fin out) fun scanEnd es =>
      scanEnd = fin ∨ Stops A.n es scanEnd ival beg fin := by
  induction fuel generalizing ival beg fin out with
  | zero => exact yields_fail
  | succ fuel ih =>
    apply yields_record
    apply yields_assert
    intro _
    apply yields_ite
    · intro _
      apply yields_ite
      · intro _
        exact yields_lift_bind fun _ => yields_lift_bind fun _ => yields_pure (Or.inl rfl)
      · intro _
        exact yields_lift_bind fun _ => yields_lift_bind fun _ => yields_lift_bind fun _ =>
          yields_pure (Or.inl rfl)
    · intro hnode
      have hn : A.n < fin - beg := Int.not_le.mp hnode
      apply yields_ite
      · intro _
        refine Yields.bind ih fun leftOut es₁ hleft => yields_ite (fun heq => ?_) fun hne => ?_
        · -- the left child is scanned to its end, and the right one is scanned as well
          refine ih.mono fun scanEnd es₂ hright => hright.imp_right fun hstops => .right hn ?_
          exact hstops.mono (by simp)
        · have hstops := hleft.resolve_left hne
          refine Yields.bind (yields_riseFoldCalls A) fun _ es₂ hfold => ?_
          refine yields_lift_bind fun _ => yields_pure (Or.inr ?_)
          exact .left hn (hstops.mono (by simp)) (hfold.mono (by simp))
      · intro _
        refine Yields.bind (ih.both (yields_riseFoldCalls A)) ?_
        rintro ⟨leftOut, _⟩ es ⟨es₁, es₂, rfl, hleft, hfold⟩
        refine yields_lift_bind fun _ => yields_pure (Or.inr ?_)
        apply stops_of_folded hn
        · exact hleft.imp_right fun hstops => hstops.mono (by simp)
        · exact hfold.mono (by simp)

end rise

/-! ## The down-sweep -/

section fall

/-- The calls of `fall_sweep`, in their order. -/
def falls (es : List Call) : List Call := es.filter fun
  | .fall _ _ _ _ => true
  | _ => false

/-- What the down-sweep does, with the boundary at `p`, after an up-sweep. -/
structure Lands (n p : ℤ) (rise fall : List Call) : Prop where
  /-- It recurses and loops around the boundary. -/
  around : ∀ ival beg fin scanEnd, .fall ival beg fin scanEnd ∈ fall →
    scanEnd = p ∧ beg < scanEnd ∧ scanEnd < fin ∧ n < fin - beg
  /-- It ends where the boundary is the split, and calls `fall_sweep_impl` from there on, on what
  was processed as a fold. -/
  last : ∃ ival beg fin, (falls fall).getLast? = some (.fall ival beg fin p) ∧
    p = beg + (fin - beg) / 2 ∧ .fallImpl (rChildOf ival) p fin ∈ fall ∧
    .fold (rChildOf ival) p fin ∈ rise
  /-- All that `fall_sweep_impl` is called on was processed as a fold. -/
  folded : ∀ ival beg fin, .fallImpl ival beg fin ∈ fall → .fold ival beg fin ∈ rise

variable (A : Args T V) {fuel : ℕ} {ival : Interval} {beg fin out p : ℤ} {rise : List Call}

/-- The calls of `fall_sweep_impl` on an interval and below it. -/
structure Impl (n : ℤ) (ival : Interval) (beg fin : ℤ) (es : List Call) : Prop where
  mem : .fallImpl ival beg fin ∈ es
  node : ∀ e ∈ es, ∃ i b f, e = .fallImpl i b f ∧ Node n ival beg fin i b f

/-- What `fall_sweep_impl` records are calls of itself on the interval and below it. -/
theorem yields_fallSweepImplCalls : Yields (A.fallSweepImplCalls fuel ival beg fin out) fun _ es =>
    Impl A.n ival beg fin es := by
  induction fuel generalizing ival beg fin out with
  | zero => exact yields_fail
  | succ fuel ih =>
    apply yields_record
    apply yields_assert
    intro _
    apply yields_ite
    · intro _
      refine yields_lift_bind fun _ => yields_lift fun _ => ⟨List.mem_cons_self, ?_⟩
      intro e he
      obtain rfl := List.mem_singleton.mp he
      exact ⟨_, _, _, rfl, .self⟩
    · intro hnode
      have hn : A.n < fin - beg := Int.not_le.mp hnode
      refine yields_lift_bind fun _ => yields_lift_bind fun _ => yields_lift_bind fun _ => ?_
      refine Yields.bind (ih.both ih) ?_
      rintro _ es ⟨es₁, es₂, rfl, hl, hr⟩
      refine yields_pure ⟨List.mem_cons_self, fun e he => ?_⟩
      rw [List.append_nil, List.singleton_append, List.mem_cons, List.mem_append] at he
      rcases he with rfl | he | he
      · exact ⟨_, _, _, rfl, .self⟩
      · obtain ⟨i, b, f, rfl, h⟩ := hl.node e he
        exact ⟨i, b, f, rfl, .left hn h⟩
      · obtain ⟨i, b, f, rfl, h⟩ := hr.node e he
        exact ⟨i, b, f, rfl, .right hn h⟩

/-- `fall_sweep_impl` makes no call of `fall_sweep`. -/
theorem Impl.falls_eq {n : ℤ} {es : List Call} (h : Impl n ival beg fin es) : falls es = [] := by
  apply List.filter_eq_nil_iff.mpr
  intro e he
  obtain ⟨i, b, f, rfl, -⟩ := h.node e he
  exact Bool.false_ne_true

/-- It visits only what was folded. -/
theorem Impl.folded {n : ℤ} {es : List Call} (h : Impl n ival beg fin es)
    (hfold : Folded n rise ival beg fin) {i : Interval} {b f : ℤ} (hmem : .fallImpl i b f ∈ es) :
    .fold i b f ∈ rise := by
  obtain ⟨_, _, _, ⟨rfl⟩, hnode⟩ := h.node _ hmem
  exact hfold _ _ _ hnode

section lands

variable {n : ℤ} {es es' : List Call}

/-- The activation that finds the boundary at its split. -/
theorem lands_here (hpos : 1 ≤ n) (hn : n < fin - beg) (hp : p = beg + (fin - beg) / 2)
    (hfold : Folded n rise (rChildOf ival) p fin) (h : Impl n (rChildOf ival) p fin es) :
    Lands n p rise (.fall ival beg fin p :: es) := by
  refine ⟨?_, ⟨ival, beg, fin, ?_, hp, List.mem_cons_of_mem _ h.mem, hfold _ _ _ .self⟩, ?_⟩
  · intro i b f q hmem
    rcases List.mem_cons.mp hmem with heq | hmem
    · cases heq
      exact ⟨rfl, by omega, by omega, hn⟩
    · obtain ⟨_, _, _, ⟨⟩, -⟩ := h.node _ hmem
  · change (Call.fall ival beg fin p :: falls es).getLast? = _
    rw [h.falls_eq]
    rfl
  · intro i b f hmem
    exact h.folded hfold ((List.mem_cons.mp hmem).resolve_left nofun)

/-- An activation that goes on. -/
theorem Lands.cons (h : Lands n p rise es) (hbeg : beg < p) (hfin : p < fin)
    (hn : n < fin - beg) : Lands n p rise (.fall ival beg fin p :: es) := by
  obtain ⟨i, b, f, hlast, hp, hmem, hfold⟩ := h.last
  refine ⟨?_, ⟨i, b, f, ?_, hp, List.mem_cons_of_mem _ hmem, hfold⟩, ?_⟩
  · intro i b f q hmem
    rcases List.mem_cons.mp hmem with heq | hmem
    · cases heq
      exact ⟨rfl, hbeg, hfin, hn⟩
    · exact h.around i b f q hmem
  · change (Call.fall ival beg fin p :: falls es).getLast? = _
    rw [List.getLast?_cons, hlast]
    rfl
  · intro i b f hmem
    exact h.folded i b f ((List.mem_cons.mp hmem).resolve_left nofun)

/-- A call of `fall_sweep_impl` beside it. -/
theorem Lands.append {beg fin : ℤ} (h : Lands n p rise es) (h' : Impl n ival beg fin es')
    (hfold : Folded n rise ival beg fin) : Lands n p rise (es ++ es') := by
  obtain ⟨i, b, f, hlast, hp, hmem, hfold'⟩ := h.last
  refine ⟨?_, ⟨i, b, f, ?_, hp, List.mem_append_left _ hmem, hfold'⟩, ?_⟩
  · intro i b f q hmem
    rcases List.mem_append.mp hmem with hmem | hmem
    · exact h.around i b f q hmem
    · obtain ⟨_, _, _, ⟨⟩, -⟩ := h'.node _ hmem
  · have hfalls : falls (es ++ es') = falls es := by
      change (es ++ es').filter _ = _
      rw [List.filter_append]
      exact (congrArg (falls es ++ ·) h'.falls_eq).trans (List.append_nil _)
    rw [hfalls, hlast]
  · intro i b f hmem
    rcases List.mem_append.mp hmem with hmem | hmem
    · exact h.folded i b f hmem
    · exact h'.folded hfold hmem

end lands

/-- **The down-sweep lands on the boundary.** -/
theorem yields_fallSweepCalls (hpos : 1 ≤ A.n) (h : Stops A.n rise p ival beg fin) :
    Yields (A.fallSweepCalls fuel ival beg fin out p) fun _ es => Lands A.n p rise es := by
  induction fuel generalizing ival beg fin out with
  | zero => exact yields_fail
  | succ fuel ih =>
    have hinside := h.splitPoint.inside hpos
    apply yields_record
    apply yields_assert
    intro _
    cases h with
    | here hn hp hfold =>
      apply yields_ite
      · intro hlt
        omega
      · intro _
        rw [if_pos hp]
        subst hp
        exact (yields_fallSweepImplCalls A).mono fun _ es himpl =>
          lands_here hpos hn rfl hfold himpl
    | left hn h hfold =>
      have hleft := h.splitPoint.inside hpos
      apply yields_ite
      · intro _
        refine Yields.bind ((ih h).both (yields_fallSweepImplCalls A)) ?_
        rintro _ es ⟨es₁, es₂, rfl, hlands, himpl⟩
        refine yields_pure ?_
        rw [List.append_nil]
        exact (hlands.append himpl hfold).cons hinside.1 hinside.2 hn
      · intro hge
        omega
    | right hn h =>
      have hright := h.splitPoint.inside hpos
      apply yields_ite
      · intro hlt
        omega
      · intro _
        rw [if_neg (by omega)]
        exact (ih h).mono fun _ es hlands => hlands.cons hinside.1 hinside.2 hn

end fall

/-! ## The scan -/

/-- **The down-sweep lands on the boundary that the up-sweep reports.** The two sweeps of a scan
return; the first reports the end or a point where the recursion splits an interval of more than
`n`; and if it is not the end, the second goes down to that point through intervals of more than
`n` around it, to call `fall_sweep_impl` on what the first has processed as a fold. Whatever the
synchronous forks report. -/
theorem boundary_of_run (A : Args T V) (hn : 1 ≤ A.n) (beg fin out : ℤ)
    (hout : A.input.Aligned (out - beg)) (hlt : beg < fin) (m : ℤ → V) :
    ∃ scanEnd rise m₁,
      run (A.riseScanCalls (fin - beg).toNat .all beg fin out).prog m =
        some (⟨some scanEnd, rise⟩, m₁) ∧
      (scanEnd = fin ∨ SplitPoint A.n scanEnd beg fin) ∧
      (scanEnd ≠ fin → ∃ fall m₂,
        run (A.fallSweepCalls (fin - beg).toNat .all beg fin out scanEnd).prog m₁ =
          some (⟨some (), fall⟩, m₂) ∧ Lands A.n scanEnd rise fall) := by
  have hfuel : fin - beg ≤ ((fin - beg).toNat : ℤ) := by omega
  have hbeg : beg + (out - beg) = out := by omega
  have hrise := safe_riseScan hn hout .all hlt hfuel
  rw [hbeg] at hrise
  obtain ⟨scanEnd, m₁, hrun, ⟨hlow, hhigh⟩, -⟩ := hrise.run_some m
  obtain ⟨rise, hrun⟩ := (erases_riseScanCalls A).run_some hrun
  have hstops := yields_riseScanCalls A m scanEnd rise m₁ hrun
  refine ⟨scanEnd, rise, m₁, hrun, hstops.imp_right Stops.splitPoint, fun hne => ?_⟩
  have hfall := safe_fallSweep hn hout .all hlow (lt_of_le_of_ne hhigh hne) hfuel
  rw [hbeg] at hfall
  obtain ⟨_, m₂, hrun', -⟩ := hfall.run_some m₁
  obtain ⟨fall, hrun'⟩ := (erases_fallSweepCalls A).run_some hrun'
  exact ⟨fall, m₂, hrun', yields_fallSweepCalls A hn (hstops.resolve_left hne) m₁ () fall m₂ hrun'⟩

/-- Three lists, in chunks of one, with the first fork's continuation stolen: the up-sweep stops
after the first of them. -/
theorem boundary_of_run_concat : ∃ rise m₁ fall m₂,
    run (concatArgs.riseScanCalls 3 .all 0 3 0).prog (fun i => [i.toNat]) =
      some (⟨some 1, rise⟩, m₁) ∧
    SplitPoint 1 1 0 3 ∧
    run (concatArgs.fallSweepCalls 3 .all 0 3 0 1).prog m₁ = some (⟨some (), fall⟩, m₂) ∧
    Lands 1 1 rise fall := by
  have hvalue : ∃ rise m₁, run (concatArgs.riseScanCalls 3 .all 0 3 0).prog (fun i => [i.toNat]) =
      some (⟨some 1, rise⟩, m₁) := ⟨_, _, rfl⟩
  obtain ⟨rise', m₁', hrun'⟩ := hvalue
  obtain ⟨scanEnd, rise, m₁, hrun, hsplit, hfall⟩ :=
    boundary_of_run concatArgs (by decide) 0 3 0 rfl (by decide) fun i => [i.toNat]
  have heq := hrun'.symm.trans hrun
  cases heq
  obtain ⟨fall, m₂, hrun₂, hlands⟩ := hfall (by decide)
  exact ⟨_, _, fall, m₂, hrun, hsplit.resolve_left (by decide), hrun₂, hlands⟩

end Libfork.Algorithm.Scan
