import Libfork.Join.Wrap

/-!
# Exceptions at a join

* `Outcome` — what becomes of the exceptions captured in a scope.
* `Raises` — what holds of a frame in every state.
* **`raises_of_run`** — it does, along every interleaving in which no scope has more than
  `65534` steals; and `raises_wrong` shows an interleaving with `65536` in which it does not.

Source: `frame.hpp`, `capture_exception`, `rethrow`, `unsafe_rethrow_if_exception`;
`promise.hpp`, `unhandled_exception`; `awaitables.hpp`, `await_resume`.
-/

namespace Libfork.Join

open Libfork.Found

variable {ε : Type} {s s' : State ε} {es : List (Event ε)}

/-! ## The statement -/

/-- With no capture the join returns; else it throws the exception that won the flag, and no
other. -/
def Outcome (l : List (Event ε)) : Prop :=
  (captures l = [] ∧ throws l = [] ∧ .pass ∈ l) ∨
    ∃ e, e ∈ captures l ∧ winners l = [e] ∧ throws l = [e] ∧ .pass ∉ l

/-- **Exceptions are raised at the join.** -/
structure Raises (s : State ε) : Prop where
  /-- Every join that has been left. -/
  outcome : ∀ l ∈ s.past, Outcome l
  /-- The pointer is constructed wherever it is read. -/
  valid : ∀ l ∈ s.now :: s.past, .readInvalid ∉ l
  /-- A join does not throw an exception before it was captured, or another one. -/
  thrown : ∀ e ∈ throws s.now, winners s.now = [e]
  /-- A scope starts with no exception. -/
  fresh : s.now = [] → s.frame.mExcept = false ∧ s.frame.mEptr = .raw ∧ ∀ th, s.builds th = none

/-! ## The flag and the pointer -/

section cell

variable {f f' : Frame ε} {b b' : Option ℕ → Option ε} {l l' : List (Event ε)} {e : ε}
  {th : Option ℕ}

/-- Who wins has captured. -/
theorem winners_sublist_captures (l : List (Event ε)) : winners l ⊆ captures l := by
  intro e he
  obtain ⟨x, hx, hwon⟩ := List.mem_filterMap.mp he
  refine List.mem_filterMap.mpr ⟨x, hx, ?_⟩
  cases x with
  | capture e' prev =>
    cases prev
    · exact hwon
    · cases hwon
  | _ => cases hwon

/-- What does not touch the flag, the pointer, the builders or the captures. -/
theorem Cell.congr (h : Cell f b l) (hflag : f'.mExcept = f.mExcept) (heptr : f'.mEptr = f.mEptr)
    (hb : ∀ th, b' th = b th) (hcap : captures l' = captures l) (hwin : winners l' = winners l) :
    Cell f' b' l' := by
  cases h with
  | clear h₁ h₂ h₃ h₄ h₅ =>
    exact .clear (hflag.trans h₁) (heptr.trans h₂) (hcap.trans h₃) (hwin.trans h₄)
      fun th => (hb th).trans (h₅ th)
  | building e th h₁ h₂ h₃ h₄ h₅ =>
    exact .building e th (hflag.trans h₁) (heptr.trans h₂) (hwin.trans h₃) ((hb th).trans h₄)
      fun th' hth' => (hb th').trans (h₅ th' hth')
  | built e h₁ h₂ h₃ h₄ =>
    exact .built e (hflag.trans h₁) (heptr.trans h₂) (hwin.trans h₃)
      fun th => (hb th).trans (h₄ th)

/-- `m_except.exchange(true)` by the thread `th`, which goes on to construct the pointer if it
has won. -/
theorem Cell.exchange (h : Cell f b l) (hth : b th = none)
    (hself : b' th = if f.mExcept then none else some e)
    (hother : ∀ th', th' ≠ th → b' th' = b th') :
    Cell { f with mExcept := true } b' (l ++ [.capture e f.mExcept]) := by
  have hkeep : f.mExcept = true → ∀ th', b' th' = b th' := by
    intro hflag th'
    by_cases hth' : th' = th
    · rw [hth', hself, if_pos hflag, hth]
    · exact hother th' hth'
  have hlost : f.mExcept = true → winners (l ++ [.capture e f.mExcept]) = winners l := by
    intro hflag
    rw [hflag, winners_snoc]
    exact List.append_nil _
  cases h with
  | clear hflag heptr _ hwon hidle =>
    have hwin : winners (l ++ [.capture e f.mExcept]) = [e] := by
      rw [hflag, winners_snoc, hwon]
      rfl
    refine .building e th rfl heptr hwin ?_ fun th' hth' => (hother th' hth').trans (hidle th')
    rw [hself, hflag]
    rfl
  | building e' th' hflag heptr hwon hth' hidle =>
    exact .building e' th' rfl heptr ((hlost hflag).trans hwon) ((hkeep hflag th').trans hth')
      fun th'' hth'' => (hkeep hflag th'').trans (hidle th'' hth'')
  | built e' hflag heptr hwon hidle =>
    exact .built e' rfl heptr ((hlost hflag).trans hwon)
      fun th' => (hkeep hflag th').trans (hidle th')

/-- `m_eptr.construct(e)` by the thread `th`, which has won the flag. -/
theorem Cell.construct (h : Cell f b l) (hth : b th = some e) (hself : b' th = none)
    (hother : ∀ th', th' ≠ th → b' th' = b th') : Cell { f with mEptr := .holds e } b' l := by
  cases h with
  | clear _ _ _ _ hidle =>
    rw [hidle th] at hth
    cases hth
  | building e' th' hflag _ hwon hth' hidle =>
    have heq : th = th' := by
      by_contra hne
      rw [hidle th hne] at hth
      cases hth
    subst heq
    have hee : e' = e := Option.some.inj (hth'.symm.trans hth)
    subst hee
    refine .built e' hflag rfl hwon fun th'' => ?_
    by_cases hne : th'' = th
    · rw [hne, hself]
    · rw [hother th'' hne, hidle th'' hne]
  | built _ _ _ _ hidle =>
    rw [hidle th] at hth
    cases hth

/-- With nobody about to construct it, the pointer is constructed if the flag is set. -/
theorem Cell.settled (h : Cell f b l) (hidle : ∀ th, b th = none) :
    (f.mExcept = false ∧ captures l = []) ∨
      ∃ e, f.mExcept = true ∧ f.mEptr = .holds e ∧ winners l = [e] := by
  cases h with
  | clear hflag _ hcap _ _ => exact Or.inl ⟨hflag, hcap⟩
  | building e th _ _ _ hth _ =>
    rw [hidle th] at hth
    cases hth
  | built e hflag heptr hwon _ => exact Or.inr ⟨e, hflag, heptr, hwon⟩

end cell

/-! ## Every step keeps the exception right -/

/-- After the join, nobody captures any more. -/
theorem Counts.idle (h : Counts s) (hphase : s.parent.phase = .after)
    (hruns : s.parent.runs = none) (c : ℕ) : (s.child c).live = false := by
  obtain ⟨out, -, hiff, -, hcounters⟩ := h.out
  rw [hphase] at hcounters
  have hnil : out = [] := List.length_eq_zero_iff.mp hcounters.2.2
  by_contra hlive
  have hmem := (hiff c).mpr ⟨Bool.not_eq_false _ ▸ hlive, by rw [hruns]; nofun⟩
  rw [hnil] at hmem
  exact List.not_mem_nil hmem

/-- A child that is not live builds nothing. -/
theorem ChildPc.builds_of_not_live {pc : ChildPc ε} (h : pc.live = false) : pc.builds = none := by
  cases pc <;> first | rfl | cases h

/-- After the scope nobody builds an exception. -/
theorem Counts.builds_none (h : Counts s) (hphase : s.parent.phase = .after)
    (hruns : s.parent.runs = none) (th : Option ℕ) : s.builds th = none := by
  cases th with
  | none =>
    show s.parent.builds = none
    cases hp : s.parent <;> rw [hp] at hphase <;> first | rfl | cases hphase
  | some c => exact ChildPc.builds_of_not_live (h.idle hphase hruns c)

/-- Whether exceptions have to do with the event. -/
def Event.exceptional : Event ε → Bool
  | .capture _ _ => true
  | .throw _ => true
  | .readInvalid => true
  | .pass => true
  | _ => false

/-- The events that have to do with exceptions. -/
def exceptions (l : List (Event ε)) : List (Event ε) := l.filter Event.exceptional

section logs

variable {l : List (Event ε)} {x : Event ε}

/-- What is not about exceptions is left out. -/
theorem exceptions_snoc_of_not (hx : x.exceptional = false) :
    exceptions (l ++ [x]) = exceptions l := by
  simp [exceptions, List.filter_append, hx]

/-- The captures are all there. -/
theorem captures_exceptions : captures (exceptions l) = captures l := by
  unfold captures exceptions
  rw [List.filterMap_filter]
  congr 1
  funext x
  cases x <;> rfl

/-- So are the winners. -/
theorem winners_exceptions : winners (exceptions l) = winners l := by
  unfold winners exceptions
  rw [List.filterMap_filter]
  congr 1
  funext x
  cases x <;> rfl

/-- So are the throws. -/
theorem throws_exceptions : throws (exceptions l) = throws l := by
  unfold throws exceptions
  rw [List.filterMap_filter]
  congr 1
  funext x
  cases x <;> rfl

/-- So is whatever is about exceptions. -/
theorem mem_exceptions (hx : x.exceptional = true) : x ∈ exceptions l ↔ x ∈ l := by
  unfold exceptions
  rw [List.mem_filter]
  exact and_iff_left hx

end logs

/-- The join is throwing. -/
def ParentPc.throwing : ParentPc ε → Bool
  | .rethrow => true
  | .clear => true
  | _ => false

/-- Who does not throw is at neither of the two accesses. -/
theorem ParentPc.ne_of_not_throwing {pc : ParentPc ε} (h : pc.throwing = false) :
    pc ≠ .clear ∧ pc ≠ .rethrow := by
  constructor
  · rintro rfl
    cases h
  · rintro rfl
    cases h

/-- A child that goes on building the same changes nothing. -/
theorem builds_goto {c : ℕ} {pc : ChildPc ε} (hpc : pc.builds = (s.child c).builds) (c' : ℕ) :
    ((s.goto c pc).child c').builds = (s.child c').builds := by
  unfold State.goto
  by_cases hc : c' = c
  · subst hc
    simp only [Function.update_self]
    exact hpc
  · simp only [Function.update_of_ne hc]

/-- A step that exceptions have nothing to do with. -/
theorem captures_silent (h : Captures s) (hp : s.parent.throwing = false)
    (hp' : s'.parent.throwing = false) (hflag : s'.frame.mExcept = s.frame.mExcept)
    (heptr : s'.frame.mEptr = s.frame.mEptr) (hparent : s'.parent.builds = s.parent.builds)
    (hchild : ∀ c, (s'.child c).builds = (s.child c).builds)
    (hlog : exceptions s'.now = exceptions s.now) : Captures s' := by
  obtain ⟨hthrows, hcell⟩ := h.cell (ParentPc.ne_of_not_throwing hp).1
  obtain ⟨hclear, hrethrow⟩ := ParentPc.ne_of_not_throwing hp'
  refine ⟨fun _ => ⟨?_, ?_⟩, fun hp => absurd hp hrethrow, fun hp => absurd hp hclear, ?_, ?_⟩
  · rw [← throws_exceptions, hlog, throws_exceptions]
    exact hthrows
  · apply hcell.congr hflag heptr
    · intro th
      cases th with
      | none => exact hparent
      | some c => exact hchild c
    · rw [← captures_exceptions, hlog, captures_exceptions]
    · rw [← winners_exceptions, hlog, winners_exceptions]
  · rw [← mem_exceptions rfl, hlog, mem_exceptions rfl]
    exact h.sound.1
  · rw [← mem_exceptions rfl, hlog, mem_exceptions rfl]
    exact h.sound.2

/-- The scope goes on, or its join is left as it should be. -/
def Left (s s' : State ε) : Prop :=
  s'.past = s.past ∨ ∃ l, s'.past = s.past ++ [l] ∧ Outcome l ∧ .readInvalid ∉ l

/-- The next scope starts with no exception. -/
theorem captures_leave (hidle : ∀ c, (s.child c).builds = none) (hflag : s.frame.mExcept = false)
    (heptr : s.frame.mEptr = .raw) : Captures s.leave := by
  refine ⟨fun _ => ⟨rfl, .clear hflag heptr rfl rfl ?_⟩, nofun, nofun, List.not_mem_nil,
    List.not_mem_nil⟩
  intro th
  cases th with
  | none => rfl
  | some c => exact hidle c

/-- A thread exchanges the flag. -/
theorem captures_exchange (h : Captures s) (hp : s.parent.throwing = false) (th : Option ℕ) (e : ε)
    (hth : s.builds th = none)
    (hnow : s'.now = s.now ++ [.capture e s.frame.mExcept])
    (hframe : s'.frame = { s.frame with mExcept := true })
    (hp' : s'.parent.throwing = false)
    (hself : s'.builds th = if s.frame.mExcept then none else some e)
    (hother : ∀ th', th' ≠ th → s'.builds th' = s.builds th') : Captures s' := by
  obtain ⟨hthrows, hcell⟩ := h.cell (ParentPc.ne_of_not_throwing hp).1
  obtain ⟨hclear, hrethrow⟩ := ParentPc.ne_of_not_throwing hp'
  refine ⟨fun _ => ⟨?_, ?_⟩, fun hp => absurd hp hrethrow, fun hp => absurd hp hclear, ?_⟩
  · rw [hnow, throws_snoc, hthrows]
    rfl
  · rw [hnow, hframe]
    exact hcell.exchange hth hself hother
  · rw [hnow]
    simpa using h.sound

/-- A thread constructs the pointer. -/
theorem captures_construct (h : Captures s) (hp : s.parent.throwing = false) (th : Option ℕ) (e : ε)
    (hth : s.builds th = some e) (hnow : s'.now = s.now)
    (hframe : s'.frame = { s.frame with mEptr := .holds e })
    (hp' : s'.parent.throwing = false) (hself : s'.builds th = none)
    (hother : ∀ th', th' ≠ th → s'.builds th' = s.builds th') : Captures s' := by
  obtain ⟨hthrows, hcell⟩ := h.cell (ParentPc.ne_of_not_throwing hp).1
  obtain ⟨hclear, hrethrow⟩ := ParentPc.ne_of_not_throwing hp'
  refine ⟨fun _ => ⟨?_, ?_⟩, fun hp => absurd hp hrethrow, fun hp => absurd hp hclear, ?_⟩
  · rw [hnow]
    exact hthrows
  · rw [hnow, hframe]
    exact hcell.construct hth hself hother
  · rw [hnow]
    exact h.sound

/-- While a child is live the join has not been left. -/
theorem Counts.parent_of_live (h : Counts s) {c : ℕ} (hc : (s.child c).live = true) :
    s.parent.throwing = false := by
  by_contra hne
  have hphase : s.parent.phase = .after ∧ s.parent.runs = none := by
    cases hp : s.parent <;> rw [hp] at hne <;> first | exact ⟨rfl, rfl⟩ | exact absurd rfl hne
  rw [h.idle hphase.1 hphase.2 c] at hc
  cases hc

/-- Every access of the parent keeps what is known of the captures. -/
theorem captures_parent (hcounts : Counts s) (h : Captures s) (hstep : parentStep s = some s') :
    Captures s' ∧ Left s s' := by
  unfold parentStep at hstep
  split at hstep
  case h_1 | h_2 | h_3 | h_4 => cases hstep
  case h_5 e hp =>
    cases hstep
    refine ⟨?_, Or.inl rfl⟩
    have hidle : s.builds none = none := by
      show s.parent.builds = none
      rw [hp]
      rfl
    apply captures_exchange h (by rw [hp]; rfl) none e hidle rfl rfl
    · show ParentPc.throwing (if _ then _ else _) = _
      split <;> rfl
    · show ParentPc.builds (if _ then _ else _) = _
      split <;> rfl
    · intro th' hth'
      cases th' with
      | none => exact absurd rfl hth'
      | some c => rfl
  case h_6 e hp =>
    cases hstep
    refine ⟨?_, Or.inl rfl⟩
    have hbuilds : s.builds none = some e := by
      show s.parent.builds = some e
      rw [hp]
      rfl
    refine captures_construct h (by rw [hp]; rfl) none e hbuilds rfl rfl rfl rfl ?_
    intro th' hth'
    cases th' with
    | none => exact absurd rfl hth'
    | some c => rfl
  case h_7 hp =>
    cases hstep
    exact ⟨captures_silent h (by rw [hp]; rfl) rfl rfl rfl (by rw [hp]; rfl)
      (fun _ => rfl) rfl, Or.inl rfl⟩
  case h_8 hp =>
    dsimp only at hstep
    split at hstep
    · cases hstep
      exact ⟨captures_silent h (by rw [hp]; rfl) rfl rfl rfl (by rw [hp]; rfl)
        (fun _ => rfl) (exceptions_snoc_of_not rfl), Or.inl rfl⟩
    · cases hstep
      exact ⟨captures_silent h (by rw [hp]; rfl) rfl rfl rfl (by rw [hp]; rfl)
        (fun _ => rfl) rfl, Or.inl rfl⟩
  case h_9 hp =>
    dsimp only at hstep
    split at hstep
    · cases hstep
      exact ⟨captures_silent h (by rw [hp]; rfl) rfl rfl rfl (by rw [hp]; rfl)
        (fun _ => rfl) ((exceptions_snoc_of_not rfl).trans (exceptions_snoc_of_not rfl)),
        Or.inl rfl⟩
    · cases hstep
      exact ⟨captures_silent h (by rw [hp]; rfl) rfl rfl rfl (by rw [hp]; rfl)
        (fun _ => rfl) (exceptions_snoc_of_not rfl), Or.inl rfl⟩
  case h_10 hp =>
    have hphase : s.parent.phase = .after := by rw [hp]; rfl
    have hruns : s.parent.runs = none := by rw [hp]; rfl
    obtain ⟨hthrows, hcell⟩ := h.cell (by rw [hp]; nofun)
    dsimp only at hstep
    split at hstep
    · rename_i hflag
      cases hstep
      refine ⟨⟨fun _ => ⟨hthrows, ?_⟩, fun _ => hflag, nofun, h.sound⟩, Or.inl rfl⟩
      apply hcell.congr rfl rfl _ rfl rfl
      intro th
      rw [hcounts.builds_none hphase hruns th]
      cases th with
      | none => rfl
      | some c => exact hcounts.builds_none hphase hruns (some c)
    · rename_i hflag
      cases hstep
      have hflag := Bool.eq_false_iff.mpr hflag
      rcases hcell with ⟨-, heptr, hcap, -, -⟩ | ⟨_, _, hset, -⟩ | ⟨_, hset, -⟩
      · refine ⟨captures_leave (fun c => hcounts.builds_none hphase hruns (some c)) hflag heptr,
          Or.inr ⟨_, rfl, Or.inl ⟨?_, ?_, ?_⟩, ?_⟩⟩
        · exact (captures_snoc _ _).trans (by rw [hcap]; rfl)
        · exact (throws_snoc _ _).trans (by rw [hthrows]; rfl)
        · exact List.mem_append_right _ (List.mem_singleton_self _)
        · show .readInvalid ∉ s.now ++ [.pass]
          simpa using h.sound.1
      · rw [hflag] at hset
        cases hset
      · rw [hflag] at hset
        cases hset
  case h_11 hp =>
    have hphase : s.parent.phase = .after := by rw [hp]; rfl
    have hruns : s.parent.runs = none := by rw [hp]; rfl
    obtain ⟨hthrows, hcell⟩ := h.cell (by rw [hp]; nofun)
    rcases hcell.settled (hcounts.builds_none hphase hruns) with
      ⟨hflag, -⟩ | ⟨e, hflag, heptr, hwon⟩
    · rw [h.flag hp] at hflag
      cases hflag
    dsimp only at hstep
    rw [heptr] at hstep
    cases hstep
    refine ⟨⟨fun hne => absurd rfl hne, nofun, fun _ => ⟨e, ?_, ?_⟩, ?_⟩, Or.inl rfl⟩
    · exact (winners_snoc _ _).trans (by rw [hwon]; rfl)
    · exact (throws_snoc _ _).trans (by rw [hthrows]; rfl)
    · show .readInvalid ∉ s.now ++ [.throw e] ∧ .pass ∉ s.now ++ [.throw e]
      simpa using h.sound
  case h_12 hp =>
    cases hstep
    have hphase : s.parent.phase = .after := by rw [hp]; rfl
    have hruns : s.parent.runs = none := by rw [hp]; rfl
    obtain ⟨e, hwon, hthrown⟩ := h.thrown hp
    refine ⟨captures_leave (fun c => hcounts.builds_none hphase hruns (some c)) rfl rfl,
      Or.inr ⟨s.now, rfl, Or.inr ⟨e, ?_, hwon, hthrown, h.sound.2⟩, h.sound.1⟩⟩
    apply winners_sublist_captures
    rw [hwon]
    exact List.mem_singleton_self e

/-- What the others build stays as it is. -/
theorem goto_builds_other {c : ℕ} {pc : ChildPc ε} {th : Option ℕ} (hth : th ≠ some c) :
    (s.goto c pc).builds th = s.builds th := by
  cases th with
  | none => rfl
  | some c' =>
    have hne : c' ≠ c := fun he => hth (congrArg some he)
    show (Function.update s.child c pc c').builds = _
    rw [Function.update_of_ne hne]
    rfl

/-- What the child builds. -/
theorem goto_builds_self {c : ℕ} {pc : ChildPc ε} : (s.goto c pc).builds (some c) = pc.builds :=
  congrArg ChildPc.builds (Function.update_self _ _ _)

/-- So does every access of a child. -/
theorem captures_child (hcounts : Counts s) (h : Captures s) {c : ℕ}
    (hstep : childStep s c = some s') : Captures s' ∧ Left s s' := by
  unfold childStep at hstep
  split at hstep
  case h_1 | h_2 | h_3 => cases hstep
  case h_4 e hc =>
    cases hstep
    have hp := hcounts.parent_of_live (c := c) (by rw [hc]; rfl)
    have hidle : s.builds (some c) = none := congrArg ChildPc.builds hc
    refine ⟨captures_exchange h hp (some c) e hidle rfl rfl ?_ ?_ ?_, Or.inl rfl⟩
    · exact hp
    · rw [goto_builds_self]
      split <;> rfl
    · exact fun th' hth' => goto_builds_other hth'
  case h_5 e hc =>
    cases hstep
    have hp := hcounts.parent_of_live (c := c) (by rw [hc]; rfl)
    have hbuilds : s.builds (some c) = some e := congrArg ChildPc.builds hc
    refine ⟨?_, Or.inl rfl⟩
    exact captures_construct h hp (some c) e hbuilds rfl rfl hp goto_builds_self
      fun th' hth' => goto_builds_other hth'
  case h_6 hc =>
    cases hstep
    have hp := hcounts.parent_of_live (c := c) (by rw [hc]; rfl)
    refine ⟨captures_silent h hp hp rfl rfl rfl (builds_goto ?_)
      (exceptions_snoc_of_not rfl), Or.inl rfl⟩
    show ChildPc.builds (if _ then _ else _) = (s.child c).builds
    rw [hc]
    split <;> rfl
  case h_7 hc =>
    split at hstep
    · rename_i hp
      cases hstep
      exact ⟨captures_silent h (by rw [hp]; rfl) rfl rfl rfl (by rw [hp]; rfl)
        (builds_goto (by rw [hc]; rfl)) (exceptions_snoc_of_not rfl), Or.inl rfl⟩
    · cases hstep

/-- So does its end. -/
theorem captures_finish (hcounts : Counts s) (h : Captures s) {c : ℕ} (hc : s.child c = .working) :
    Captures (finish s c) ∧ Left s (finish s c) := by
  have hp := hcounts.parent_of_live (c := c) (by rw [hc]; rfl)
  unfold finish
  split
  · rename_i hruns
    refine ⟨captures_silent h hp rfl rfl rfl ?_ (builds_goto (by rw [hc]; rfl)) rfl,
      Or.inl rfl⟩
    cases hq : s.parent <;> rw [hq] at hruns <;> first | rfl | cases hruns
  · exact ⟨captures_silent h hp hp rfl rfl rfl (builds_goto (by rw [hc]; rfl)) rfl,
      Or.inl rfl⟩

/-- So does every step. -/
theorem captures_step (hcounts : Counts s) (h : Captures s) {a : Act ε}
    (hstep : (machine ε).step s a = some s') : Captures s' ∧ Left s s' := by
  cases a with
  | parent => exact captures_parent hcounts h hstep
  | child c => exact captures_child hcounts h hstep
  | fork c | call c =>
    simp only [machine] at hstep
    split at hstep
    · rename_i hp hc
      cases hstep
      exact ⟨captures_silent h (by rw [hp]; rfl) rfl rfl rfl (by rw [hp]; rfl)
        (builds_goto (by rw [hc]; rfl)) rfl, Or.inl rfl⟩
    · cases hstep
  | stash e =>
    simp only [machine] at hstep
    split at hstep
    · rename_i hp
      cases hstep
      exact ⟨captures_silent h (by rw [hp]; rfl) rfl rfl rfl (by rw [hp]; rfl)
        (fun _ => rfl) rfl, Or.inl rfl⟩
    · cases hstep
  | join =>
    simp only [machine] at hstep
    split at hstep
    · rename_i hp
      cases hstep
      unfold joinCall
      split
      · exact ⟨captures_silent h (by rw [hp]; rfl) rfl rfl rfl (by rw [hp]; rfl)
          (fun _ => rfl) ((exceptions_snoc_of_not rfl).trans (exceptions_snoc_of_not rfl)),
          Or.inl rfl⟩
      · exact ⟨captures_silent h (by rw [hp]; rfl) rfl rfl rfl (by rw [hp]; rfl)
          (fun _ => rfl) rfl, Or.inl rfl⟩
    · cases hstep
  | steal =>
    simp only [machine] at hstep
    split at hstep
    · rename_i c hp
      cases hstep
      exact ⟨captures_silent h (by rw [hp]; rfl) rfl rfl rfl (by rw [hp]; rfl)
        (fun _ => rfl) (exceptions_snoc_of_not rfl), Or.inl rfl⟩
    · cases hstep
  | capture c e =>
    simp only [machine] at hstep
    split at hstep
    · rename_i hc
      cases hstep
      have hp := hcounts.parent_of_live (c := c) (by rw [hc]; rfl)
      exact ⟨captures_silent h hp hp rfl rfl rfl (builds_goto (by rw [hc]; rfl))
        rfl, Or.inl rfl⟩
    · cases hstep
  | finish c =>
    simp only [machine] at hstep
    split at hstep
    · rename_i hc
      cases hstep
      exact captures_finish hcounts h hc
    · cases hstep

/-! ## The result -/

/-- The invariant that carries the result. -/
structure Raising (s : State ε) : Prop where
  counts : Counts s
  captures : Captures s
  left : ∀ l ∈ s.past, Outcome l ∧ .readInvalid ∉ l

/-- A new frame has nothing to raise. -/
theorem raising_new : Raising (State.new : State ε) :=
  ⟨counts_new, ⟨fun _ => ⟨rfl, .clear rfl rfl rfl rfl (fun th => by cases th <;> rfl)⟩, nofun,
    nofun, List.not_mem_nil, List.not_mem_nil⟩, nofun⟩

/-- Every step with few steals keeps the raising right. -/
theorem raising_step (h : Raising s) {a : Act ε} (hfew : AtMost 65534 s a)
    (hstep : (machine ε).step s a = some s') : Raising s' := by
  obtain ⟨hcaptures, hleft⟩ := captures_step h.counts h.captures hstep
  refine ⟨counts_step h.counts hfew hstep, hcaptures, ?_⟩
  rcases hleft with hpast | ⟨l, hpast, houtcome, hvalid⟩
  · rw [hpast]
    exact h.left
  · intro l' hl'
    rw [hpast] at hl'
    rcases List.mem_append.mp hl' with hl' | hl'
    · exact h.left l' hl'
    · rw [List.mem_singleton.mp hl']
      exact ⟨houtcome, hvalid⟩

/-- What is thrown was won. -/
theorem Captures.thrown_won (h : Captures s) {e : ε} (he : e ∈ throws s.now) :
    winners s.now = [e] := by
  by_cases hclear : s.parent = .clear
  · obtain ⟨e', hwon, hthrown⟩ := h.thrown hclear
    rw [hthrown] at he
    rw [hwon, List.mem_singleton.mp he]
  · rw [(h.cell hclear).1] at he
    cases he

/-- A scope begins without an exception. -/
theorem Captures.fresh (h : Captures s) (hnil : s.now = []) :
    s.frame.mExcept = false ∧ s.frame.mEptr = .raw ∧ ∀ th, s.builds th = none := by
  have hnowin : ∀ e, winners s.now ≠ [e] := by
    intro e he
    rw [hnil] at he
    cases he
  have hclear : s.parent ≠ .clear := by
    intro hp
    obtain ⟨e, hwon, -⟩ := h.thrown hp
    exact hnowin e hwon
  rcases (h.cell hclear).2 with ⟨hflag, heptr, -, -, hidle⟩ | ⟨e, -, -, -, hwon, -⟩ |
    ⟨e, -, -, hwon, -⟩
  · exact ⟨hflag, heptr, hidle⟩
  · exact absurd hwon (hnowin e)
  · exact absurd hwon (hnowin e)

/-- **A join throws the exception that won the flag, if one was captured.** Whatever the
interleaving, as long as no scope has more than `65534` steals. -/
theorem raises_of_run (as : List (Act ε)) (s : State ε)
    (h : (machine ε).Run (AtMost 65534) State.new as s) : Raises s := by
  have hraising : Raising s :=
    h.invariant (fun _ _ _ hs hok hstep => raising_step hs hok hstep) raising_new
  refine ⟨fun l hl => (hraising.left l hl).1, fun l hl => ?_,
    fun e he => hraising.captures.thrown_won he, hraising.captures.fresh⟩
  rcases List.mem_cons.mp hl with rfl | hl
  · exact hraising.captures.sound.1
  · exact (hraising.left l hl).2

/-- Two children race for the flag while their parent waits; the join throws the exception of the
one that won. -/
theorem raises_of_run_race :
    ∃ s : State ℕ, (machine ℕ).Run (AtMost 65534) State.new
        [.fork 0, .steal, .parent, .fork 1, .steal, .parent, .capture 0 5, .capture 1 7, .join,
          .parent, .child 1, .child 0, .finish 0, .child 0, .parent, .child 1, .finish 1, .child 1,
          .child 1, .parent, .parent, .parent] s ∧
      s.past.map throws = [[7]] ∧ Raises s := by
  have h : ((machine ℕ).exec (AtMost 65534) State.new
      [.fork 0, .steal, .parent, .fork 1, .steal, .parent, .capture 0 5, .capture 1 7, .join,
        .parent, .child 1, .child 0, .finish 0, .child 0, .parent, .child 1, .finish 1, .child 1,
        .child 1, .parent, .parent, .parent]).map (fun s => s.past.map throws) = some [[7]] := by
    decide
  obtain ⟨s, hs, hpast⟩ := Option.map_eq_some_iff.mp h
  have hrun := Machine.run_iff_exec.mpr hs
  exact ⟨s, hrun, hpast, raises_of_run _ s hrun⟩

/-! ## Too many steals -/

/-- Where the code finds no steals, it does not wait for a child that has set the flag and not
constructed the pointer. -/
theorem reads_unconstructed (e : ε) (hp : s.parent = .running) (hc : s.child 0 = .working)
    (hz : s.frame.mSteal = 0) (hflag : s.frame.mExcept = false) (heptr : s.frame.mEptr = .raw) :
    ∃ s', (machine ε).Run Machine.free s [.capture 0 e, .child 0, .join, .parent, .parent] s' ∧
      .readInvalid ∈ s'.now := by
  set s₁ : State ε := s.goto 0 (.exchange e) with hs₁
  have hc₁ : s₁.child 0 = .exchange e := by
    show Function.update s.child 0 (.exchange e) 0 = _
    exact Function.update_self _ _ _
  set s₂ : State ε := (exchangeFlag s₁ e).goto 0 (.construct e) with hs₂
  set s₃ : State ε := (s₂.logged .shortcut).resumeBy .worker with hs₃
  have hstep₁ : (machine ε).step s (.capture 0 e) = some s₁ := by
    simp only [machine, hc, hs₁]
  have hstep₂ : (machine ε).step s₁ (.child 0) = some s₂ := by
    have hflag₁ : s₁.frame.mExcept = false := hflag
    simp only [machine, childStep, hc₁, hflag₁, Bool.false_eq_true, if_false, hs₂]
  have hstep₃ : (machine ε).step s₂ .join = some s₃ := by
    have hp₂ : s₂.parent = .running := hp
    have hz₂ : s₂.frame.loadSteals = 0 := hz
    simp only [machine, hp₂, joinCall, hz₂, if_true, hs₃]
  have hstep₅ : (machine ε).step { s₃ with parent := .rethrow } .parent =
      some ({ s₃ with frame := { s₃.frame with mEptr := .null }, parent := .clear }.logged
        .readInvalid) := by
    have heptr₃ : s₃.frame.mEptr = .raw := heptr
    simp only [machine, parentStep, heptr₃]
  exact ⟨_, ⟨trivial, _, hstep₁, trivial, _, hstep₂, trivial, _, hstep₃, trivial, _, rfl, trivial,
    _, hstep₅, rfl⟩, List.mem_append_right _ (List.mem_singleton_self _)⟩

/-- After 65536 steals the parent reads an exception that was not constructed. -/
theorem exists_unconstructed (e : ε) {n : ℕ} (hn : n = 65536) :
    ∃ s, (machine ε).Run Machine.free State.new
        (stolenForks ε n ++ [.capture 0 e, .child 0, .join, .parent, .parent]) s ∧
      .readInvalid ∈ s.now ∧ ¬ Raises s := by
  have hforks : (machine ε).Run Machine.free State.new (stolenForks ε n) (scopeState ε n 0) :=
    (run_stolenForks (Nat.le_refl n)).mono fun _ _ _ => trivial
  have hwork : (scopeState ε n 0).child 0 = .working := by
    simp [scopeState, hn]
  have hzero : (scopeState ε n 0).frame.mSteal = 0 := by
    rw [hn]
    rfl
  obtain ⟨s, hrun, hmem⟩ := reads_unconstructed e rfl hwork hzero rfl rfl
  exact ⟨s, Machine.run_append.mpr ⟨_, hforks, hrun⟩, hmem,
    fun h => h.valid s.now List.mem_cons_self hmem⟩

/-- With `65536` steals the join reads a pointer that is not constructed. -/
theorem raises_wrong :
    ∃ s : State ℕ, (machine ℕ).Run Machine.free State.new
        (stolenForks ℕ 65536 ++ [.capture 0 5, .child 0, .join, .parent, .parent]) s ∧
      .readInvalid ∈ s.now ∧ ¬ Raises s :=
  exists_unconstructed 5 rfl

end Libfork.Join
