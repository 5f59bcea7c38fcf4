import Libfork.Found.ForkJoin

/-!
# Routines that throw and record their calls

* `Routine A V E R` — a fork-join program that returns an `R` or throws, and records the calls it
  makes as a list of `E`. The record is a ghost: a call adds to it, nothing reads it.
* `Routine.both l r` — fork `l`, call `r` with its exception stashed, join. The join throws if
  either of the two threw.
* `Routine.Erases t p` — without its record, `t` is the program `p`.
* `Routine.Yields t Q` — if `t` returns, what it returns and its record satisfy `Q`.
* `Prog.Meets p rd wr post` — `p` is safe, and every memory `m` leads to a result `r` and a
  memory `m'` with `post m r m'`; **`Prog.Meets.complete`**, `Prog.Meets.result`: so does every
  interleaving.

Nothing here is about a particular program.
-/

namespace Libfork.Found

/-! ## Specifications -/

namespace Prog

variable {A V R : Type} [DecidableEq A]

/-- The program is safe, and what it returns and leaves in the memory satisfies `post`. -/
structure Meets (p : Prog A V R) (rd wr : Set A) (post : (A → V) → R → (A → V) → Prop) :
    Prop where
  safe : Safe rd wr (fun _ => True) p
  run : ∀ m, ∃ r m', run p m = some (r, m') ∧ post m r m'

variable {p p' : Prog A V R} {rd wr : Set A} {post : (A → V) → R → (A → V) → Prop}

/-- **Every interleaving can be completed.** -/
theorem Meets.complete (h : Meets p rd wr post) {m m' : A → V} (hs : Steps p m p' m') :
    ∃ r m'', Steps p' m' (ret r) m'' := by
  obtain ⟨r, m'', -, hsteps⟩ := h.safe.complete hs
  exact ⟨r, m'', hsteps⟩

/-- **Every completed interleaving satisfies the postcondition** and changes only what the
program may write. -/
theorem Meets.result (h : Meets p rd wr post) {m m' : A → V} {r : R}
    (hs : Steps p m (ret r) m') : post m r m' ∧ ∀ a, a ∉ wr → m' a = m a := by
  have hrun := h.safe.result hs
  obtain ⟨r', m'', hrun', hpost⟩ := h.run m
  rw [hrun] at hrun'
  cases hrun'
  exact ⟨hpost, (h.safe.frame hrun).2⟩

end Prog

/-! ## Routines -/

/-- How a routine ends. -/
structure Outcome (E R : Type) where
  /-- What it returned, `none` if it threw. -/
  value : Option R
  /-- The calls it made. -/
  calls : List E

/-- What a join makes of the two routines that it waits for. -/
def Outcome.both {E X Y : Type} (o : Outcome E X) (o' : Outcome E Y) : Outcome E (X × Y) where
  value := o.value.bind fun x => o'.value.map fun y => (x, y)
  calls := o.calls ++ o'.calls

/-- A program that throws or returns, and records its calls. -/
structure Routine (A V E R : Type) where
  prog : Prog A V (Outcome E R)

namespace Routine

open Prog

variable {A V E R S X Y : Type}

/-- A program that returns and makes no call. -/
def lift (p : Prog A V R) : Routine A V E R := ⟨p.bind fun r => .ret ⟨some r, []⟩⟩

/-- A call that returns `r`, or throws if that is `none`. -/
def call (e : E) (r : Option R) : Routine A V E R := ⟨.ret ⟨r, [e]⟩⟩

/-- What follows a routine that ended with `o`. -/
def resume (f : R → Routine A V E S) (o : Outcome E R) : Prog A V (Outcome E S) :=
  match o.value with
  | none => .ret ⟨none, o.calls⟩
  | some r => (f r).prog.bind fun o' => .ret ⟨o'.value, o.calls ++ o'.calls⟩

/-- First `t`, then `f` of what it returned, unless `t` threw. -/
def bind (t : Routine A V E R) (f : R → Routine A V E S) : Routine A V E S :=
  ⟨t.prog.bind (resume f)⟩

instance : Monad (Routine A V E) where
  pure r := ⟨.ret ⟨some r, []⟩⟩
  bind := bind

/-- Add to the record. -/
def record (es : List E) : Routine A V E Unit := ⟨.ret ⟨some (), es⟩⟩

/-- Fork the first, call the second with its exception stashed, and join. -/
def both (l : Routine A V E X) (r : Routine A V E Y) : Routine A V E (X × Y) :=
  ⟨.par l.prog r.prog fun o o' => .ret (o.both o')⟩

/-- Recording nothing is doing nothing. -/
theorem record_nil : (record [] : Routine A V E Unit) = pure () := rfl

/-- Returning first does nothing. -/
theorem pure_bind (r : R) (f : R → Routine A V E S) : (pure r >>= f) = f r := by
  have h : (fun o : Outcome E S => Prog.ret (A := A) (V := V) ⟨o.value, [] ++ o.calls⟩) = .ret := by
    funext o
    rfl
  change (⟨(f r).prog.bind _⟩ : Routine A V E S) = f r
  rw [h, bind_ret]

/-- Returning what was returned does nothing. -/
theorem bind_pure (t : Routine A V E R) : (t >>= fun r => pure r) = t := by
  have h : resume (fun r => (pure r : Routine A V E R)) = .ret := by
    funext o
    obtain ⟨value, calls⟩ := o
    cases value with
    | none => rfl
    | some r =>
      change Prog.ret (Outcome.mk (some r) (calls ++ [])) = _
      rw [List.append_nil]
  change (⟨t.prog.bind (resume _)⟩ : Routine A V E R) = t
  rw [h, bind_ret]

/-- An assertion that holds. -/
theorem assert_bind {b : Prop} [Decidable b] (hb : b) (f : Unit → Routine A V E S) :
    (lift (assert b) >>= f) = f () := by
  have h : (lift (assert b) : Routine A V E Unit) = pure () := by
    unfold assert
    rw [if_pos hb]
    rfl
  rw [h, pure_bind]

/-! ## Their runs -/

section run

variable [DecidableEq A] {m m' m₁ m₂ : A → V}

/-- A return has an empty record. -/
@[simp] theorem run_pure (r : R) (m : A → V) :
    run (pure r : Routine A V E R).prog m = some (⟨some r, []⟩, m) := rfl

/-- A call is recorded, and answers. -/
@[simp] theorem run_call (e : E) (r : Option R) (m : A → V) :
    run (call e r : Routine A V E R).prog m = some (⟨r, [e]⟩, m) := rfl

/-- A record is recorded. -/
@[simp] theorem run_record (es : List E) (m : A → V) :
    run (record es : Routine A V E Unit).prog m = some (⟨some (), es⟩, m) := rfl

/-- A lifted program. -/
theorem run_lift {p : Prog A V R} {r : R} (h : run p m = some (r, m')) :
    run (lift p : Routine A V E R).prog m = some (⟨some r, []⟩, m') := run_bind_of h

/-- After a routine that returned. -/
theorem run_bind_some {t : Routine A V E R} {f : R → Routine A V E S} {r : R} {es es' : List E}
    {v : Option S} (h : run t.prog m = some (⟨some r, es⟩, m₁))
    (hf : run (f r).prog m₁ = some (⟨v, es'⟩, m₂)) :
    run (t >>= f).prog m = some (⟨v, es ++ es'⟩, m₂) :=
  (run_bind_of h).trans (run_bind_of hf)

/-- After a routine that threw. -/
theorem run_bind_none {t : Routine A V E R} {f : R → Routine A V E S} {es : List E}
    (h : run t.prog m = some (⟨none, es⟩, m₁)) :
    run (t >>= f).prog m = some (⟨none, es⟩, m₁) := run_bind_of h

/-- Both branches of a fork, the left one first. -/
theorem run_both {l : Routine A V E X} {r : Routine A V E Y} {o : Outcome E X} {o' : Outcome E Y}
    (hl : run l.prog m = some (o, m₁)) (hr : run r.prog m₁ = some (o', m₂)) :
    run (both l r).prog m = some (o.both o', m₂) := by
  change ((run l.prog m).bind fun x => (run r.prog x.2).bind fun y => _) = _
  rw [hl, Option.bind_some, hr]
  rfl

end run

/-! ## Their programs -/

section erases

variable [DecidableEq A]

/-- Without its record, the routine is the program `p`: the two run alike from every memory. -/
def Erases (t : Routine A V E R) (p : Prog A V R) : Prop :=
  ∀ m, run p m = (run t.prog m).bind fun x => x.1.value.map fun r => (r, x.2)

variable {t : Routine A V E R} {p : Prog A V R}

/-- A failure, without its record. -/
theorem erases_fail : Erases (⟨.fail⟩ : Routine A V E R) .fail := fun _ => rfl

/-- A return, without its record. -/
theorem erases_pure (r : R) : Erases (pure r : Routine A V E R) (.ret r) := fun _ => rfl

/-- A program has no record. -/
theorem erases_lift (p : Prog A V R) : Erases (lift p : Routine A V E R) p := by
  intro m
  unfold lift
  rw [run_bind]
  cases run p m <;> rfl

/-- Routines in sequence, without their records. -/
theorem Erases.bind {f : R → Routine A V E S} {g : R → Prog A V S} (h : Erases t p)
    (hf : ∀ r, Erases (f r) (g r)) : Erases (t >>= f) (p.bind g) := by
  intro m
  change _ = (run (t.prog.bind (resume f)) m).bind _
  rw [run_bind, run_bind, h m]
  rcases run t.prog m with _ | ⟨⟨_ | r, es⟩, m'⟩
  · rfl
  · rfl
  · have hr := hf r m'
    change run (g r) m' = (run ((f r).prog.bind _) m').bind _
    rw [run_bind, hr]
    cases run (f r).prog m' <;> rfl

/-- A call that is recorded is nothing to the program. -/
theorem Erases.record {f : Unit → Routine A V E R} (h : Erases (f ()) p) (es : List E) :
    Erases (record es >>= f) p := by
  have hunit : Erases (Routine.record es : Routine A V E Unit) (.ret ()) := fun _ => rfl
  exact hunit.bind (f := f) (g := fun _ => p) fun _ => h

/-- Two branches, without their records. -/
theorem Erases.both {l : Routine A V E X} {r : Routine A V E Y} {p : Prog A V X} {q : Prog A V Y}
    (hl : Erases l p) (hr : Erases r q) : Erases (both l r) (fork p q) := by
  intro m
  change (run p m).bind _ = ((run l.prog m).bind _).bind _
  rw [hl m]
  rcases run l.prog m with _ | ⟨⟨_ | x, es⟩, m'⟩
  · rfl
  · change none = ((run r.prog m').bind _).bind _
    cases run r.prog m' <;> rfl
  · change (run q m').bind _ = ((run r.prog m').bind _).bind _
    rw [hr m']
    rcases run r.prog m' with _ | ⟨⟨_ | y, es'⟩, m''⟩ <;> rfl

/-- A choice, without its records. -/
theorem erases_ite {b : Prop} [Decidable b] {t' : Routine A V E R} {p' : Prog A V R}
    (h : b → Erases t p) (h' : ¬ b → Erases t' p') :
    Erases (if b then t else t') (if b then p else p') := by
  split
  · exact h ‹_›
  · exact h' ‹_›

/-- A program that returns is one whose routine does. -/
theorem Erases.run_some (h : Erases t p) {m m' : A → V} {r : R} (hp : run p m = some (r, m')) :
    ∃ es, run t.prog m = some (⟨some r, es⟩, m') := by
  rw [h m] at hp
  rcases ht : run t.prog m with _ | ⟨⟨_ | r', es⟩, m''⟩ <;> rw [ht] at hp <;> cases hp
  exact ⟨es, rfl⟩

end erases

/-! ## Their records -/

section yields

variable [DecidableEq A]

/-- If the routine returns, what it returns and its record satisfy `Q`. -/
def Yields (t : Routine A V E R) (Q : R → List E → Prop) : Prop :=
  ∀ m r es m', run t.prog m = some (⟨some r, es⟩, m') → Q r es

variable {t : Routine A V E R} {Q : R → List E → Prop}

/-- A failure yields nothing. -/
theorem yields_fail : Yields (⟨.fail⟩ : Routine A V E R) Q := nofun

/-- A return yields its value and an empty record. -/
theorem yields_pure {r : R} (h : Q r []) : Yields (pure r : Routine A V E R) Q := by
  rintro m _ _ _ ⟨⟩
  exact h

/-- The rule of sequential composition. -/
theorem Yields.bind {f : R → Routine A V E S} {Q' : S → List E → Prop} (h : Yields t Q)
    (hf : ∀ r es, Q r es → Yields (f r) fun r' es' => Q' r' (es ++ es')) :
    Yields (t >>= f) Q' := by
  intro m r es m' hrun
  change run (t.prog.bind (resume f)) m = _ at hrun
  rw [run_bind] at hrun
  rcases ht : run t.prog m with _ | ⟨⟨_ | r₁, es₁⟩, m₁⟩ <;> rw [ht] at hrun
  · cases hrun
  · cases hrun
  · change run ((f r₁).prog.bind _) m₁ = _ at hrun
    rw [run_bind] at hrun
    rcases hr : run (f r₁).prog m₁ with _ | ⟨⟨v, es₂⟩, m₂⟩ <;> rw [hr] at hrun
    · cases hrun
    · cases hrun
      exact hf r₁ es₁ (h m r₁ es₁ m₁ ht) m₁ _ es₂ _ hr

/-- What is yielded satisfies whatever follows. -/
theorem Yields.mono {Q' : R → List E → Prop} (h : Yields t Q) (hle : ∀ r es, Q r es → Q' r es) :
    Yields t Q' :=
  fun m r es m' hrun => hle r es (h m r es m' hrun)

/-- A program makes no calls. -/
theorem yields_lift {p : Prog A V R} (h : ∀ r, Q r []) : Yields (lift p) Q := by
  intro m r es m' hrun
  unfold lift at hrun
  rw [run_bind] at hrun
  rcases hp : run p m with _ | ⟨r', m''⟩ <;> rw [hp] at hrun <;> cases hrun
  exact h _

/-- After a program. -/
theorem yields_lift_bind {p : Prog A V X} {f : X → Routine A V E R} (h : ∀ x, Yields (f x) Q) :
    Yields (lift p >>= f) Q := by
  have hlift : Yields (lift p : Routine A V E X) fun _ es => es = [] := yields_lift fun _ => rfl
  refine hlift.bind fun x es hes => ?_
  subst hes
  exact h x

/-- After an assertion. -/
theorem yields_assert {b : Prop} [Decidable b] {f : Unit → Routine A V E R}
    (h : b → Yields (f ()) Q) : Yields (lift (assert b) >>= f) Q := by
  by_cases hb : b
  · rw [assert_bind hb]
    exact h hb
  · have hfail : lift (assert b) = (⟨.fail⟩ : Routine A V E Unit) := by
      unfold assert
      rw [if_neg hb]
      rfl
    rw [hfail]
    nofun

/-- After a call. -/
theorem yields_record {es : List E} {f : Unit → Routine A V E R}
    (h : Yields (f ()) fun r es' => Q r (es ++ es')) : Yields (record es >>= f) Q := by
  have hrecord : Yields (record es : Routine A V E Unit) fun _ es' => es' = es := by
    rintro m _ _ _ ⟨⟩
    rfl
  refine hrecord.bind fun _ es' hes => ?_
  subst hes
  exact h

/-- Two branches yield both values, and both records in order. -/
theorem Yields.both {l : Routine A V E X} {r : Routine A V E Y} {Q : X → List E → Prop}
    {Q' : Y → List E → Prop} (hl : Yields l Q) (hr : Yields r Q') :
    Yields (both l r) fun x es => ∃ es₁ es₂, es = es₁ ++ es₂ ∧ Q x.1 es₁ ∧ Q' x.2 es₂ := by
  intro m x es m' hrun
  change ((run l.prog m).bind fun x => (run r.prog x.2).bind fun y => _) = _ at hrun
  rcases hl' : run l.prog m with _ | ⟨⟨v, es₁⟩, m₁⟩ <;> rw [hl'] at hrun
  · cases hrun
  rw [Option.bind_some] at hrun
  rcases hr' : run r.prog m₁ with _ | ⟨⟨v', es₂⟩, m₂⟩ <;> rw [hr'] at hrun
  · cases hrun
  · rcases v with _ | x₁ <;> rcases v' with _ | x₂ <;> cases hrun
    exact ⟨es₁, es₂, rfl, hl m x₁ es₁ m₁ hl', hr m₁ x₂ es₂ _ hr'⟩

/-- A choice yields what the branch taken does. -/
theorem yields_ite {b : Prop} [Decidable b] {t' : Routine A V E R} (h : b → Yields t Q)
    (h' : ¬ b → Yields t' Q) : Yields (if b then t else t') Q := by
  split
  · exact h ‹_›
  · exact h' ‹_›

end yields

/-! ## Safety -/

section safe

variable {rd wr rd₁ wr₁ rd₂ wr₂ : Set A}

/-- The routine does not fail, and accesses what it may. -/
def Within (rd wr : Set A) (t : Routine A V E R) : Prop := Safe rd wr (fun _ => True) t.prog

/-- A return touches nothing. -/
theorem within_pure (r : R) : Within rd wr (pure r : Routine A V E R) := trivial

/-- A call touches nothing. -/
theorem within_call (e : E) (r : Option R) : Within rd wr (call e r : Routine A V E R) := trivial

/-- A record touches nothing. -/
theorem within_record (es : List E) : Within rd wr (record es : Routine A V E Unit) := trivial

/-- A safe program stays within its cells. -/
theorem within_lift {p : Prog A V R} (h : Safe rd wr (fun _ => True) p) :
    Within rd wr (lift p : Routine A V E R) := h.bind fun _ _ => trivial

/-- So do routines in sequence. -/
theorem Within.bind {t : Routine A V E R} {f : R → Routine A V E S} (h : Within rd wr t)
    (hf : ∀ r, Within rd wr (f r)) : Within rd wr (t >>= f) := by
  apply Safe.bind h
  rintro ⟨value, calls⟩ -
  cases value with
  | none => trivial
  | some r => exact Safe.bind (hf r) fun _ _ => trivial

/-- Two routines may run in parallel if neither accesses a cell that the other writes. -/
theorem within_both {l : Routine A V E X} {r : Routine A V E Y} (hl : Within rd₁ wr₁ l)
    (hr : Within rd₂ wr₂ r) (h₁ : ∀ a ∈ wr₁, a ∉ rd₂ ∪ wr₂) (h₂ : ∀ a ∈ wr₂, a ∉ rd₁ ∪ wr₁)
    (hrd : rd₁ ∪ rd₂ ⊆ rd) (hwr : wr₁ ∪ wr₂ ⊆ wr) : Within rd wr (both l r) :=
  ⟨rd₁, wr₁, rd₂, wr₂, fun _ => True, fun _ => True, ⟨hrd, hwr⟩, h₁, h₂, hl, hr,
    fun _ _ _ _ => trivial⟩

end safe

end Routine

end Libfork.Found
