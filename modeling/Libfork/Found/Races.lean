import Libfork.Found.ForkJoin

/-!
# Races between the branches of a fork

* `Prog.Forks p l r` — somewhere in `p` the branches `l` and `r` run in parallel, between a fork
  and its join.
* `Prog.MayRead`, `Prog.MayWrite` — the cells that a branch may still access, whatever is written
  to the memory between two of its accesses.
* `Prog.RaceFree l r` — neither branch may access a cell that the other may write.
* **`Prog.Safe.raceFree`**, **`Prog.Safe.fork_result`** — the branches of every fork that a safe
  program reaches are free of races, and every interleaving of them ends as the left branch
  followed by the right one.

Nothing here is about a particular program.
-/

namespace Libfork.Found.Prog

variable {A V R X Y : Type}

/-! ## Accesses -/

/-- The next access of some branch reads the cell. -/
inductive NextRead : {R : Type} → Prog A V R → A → Prop
  | read {R : Type} {a : A} {k : V → Prog A V R} : NextRead (read a k) a
  | left {R X Y : Type} {p : Prog A V X} {q : Prog A V Y} {k : X → Y → Prog A V R} {a : A}
      (h : NextRead p a) : NextRead (par p q k) a
  | right {R X Y : Type} {p : Prog A V X} {q : Prog A V Y} {k : X → Y → Prog A V R} {a : A}
      (h : NextRead q a) : NextRead (par p q k) a

/-- The next access of some branch writes the cell. -/
inductive NextWrite : {R : Type} → Prog A V R → A → Prop
  | write {R : Type} {a : A} {v : V} {k : Prog A V R} : NextWrite (write a v k) a
  | left {R X Y : Type} {p : Prog A V X} {q : Prog A V Y} {k : X → Y → Prog A V R} {a : A}
      (h : NextWrite p a) : NextWrite (par p q k) a
  | right {R X Y : Type} {p : Prog A V X} {q : Prog A V Y} {k : X → Y → Prog A V R} {a : A}
      (h : NextWrite q a) : NextWrite (par p q k) a

/-- Somewhere in the program the two branches run in parallel. -/
inductive Forks : {R X Y : Type} → Prog A V R → Prog A V X → Prog A V Y → Prop
  | here {R X Y : Type} {p : Prog A V X} {q : Prog A V Y} {k : X → Y → Prog A V R} :
      Forks (par p q k) p q
  | left {R X Y X' Y' : Type} {p : Prog A V X} {q : Prog A V Y} {k : X → Y → Prog A V R}
      {l : Prog A V X'} {r : Prog A V Y'} (h : Forks p l r) : Forks (par p q k) l r
  | right {R X Y X' Y' : Type} {p : Prog A V X} {q : Prog A V Y} {k : X → Y → Prog A V R}
      {l : Prog A V X'} {r : Prog A V Y'} (h : Forks q l r) : Forks (par p q k) l r

/-! ## The accesses of a safe program -/

variable {rd wr : Set A} {Q : R → Prop} {p p' : Prog A V R} {a : A}
  {l : Prog A V X} {r : Prog A V Y}

/-- What a safe program reads next it may read. -/
theorem Safe.nextRead (h : Safe rd wr Q p) (ha : NextRead p a) : a ∈ rd := by
  induction ha generalizing rd wr with
  | read => exact h.1
  | left _ ih =>
    obtain ⟨rd₁, wr₁, rd₂, wr₂, Q₁, Q₂, ⟨hrd, -⟩, -, -, hp, -, -⟩ := h
    exact hrd (Or.inl (ih hp))
  | right _ ih =>
    obtain ⟨rd₁, wr₁, rd₂, wr₂, Q₁, Q₂, ⟨hrd, -⟩, -, -, -, hq, -⟩ := h
    exact hrd (Or.inr (ih hq))

/-- What it writes next it may write. -/
theorem Safe.nextWrite (h : Safe rd wr Q p) (ha : NextWrite p a) : a ∈ wr := by
  induction ha generalizing rd wr with
  | write => exact h.1
  | left _ ih =>
    obtain ⟨rd₁, wr₁, rd₂, wr₂, Q₁, Q₂, ⟨-, hwr⟩, -, -, hp, -, -⟩ := h
    exact hwr (Or.inl (ih hp))
  | right _ ih =>
    obtain ⟨rd₁, wr₁, rd₂, wr₂, Q₁, Q₂, ⟨-, hwr⟩, -, -, -, hq, -⟩ := h
    exact hwr (Or.inr (ih hq))

/-- The two branches of a fork, run on their own. -/
theorem Safe.fork_of_forks (h : Safe rd wr Q p) (hf : Forks p l r) :
    Safe rd wr (fun _ => True) (fork l r) := by
  induction hf generalizing rd wr with
  | here =>
    obtain ⟨rd₁, wr₁, rd₂, wr₂, Q₁, Q₂, ⟨hrd, hwr⟩, h₁, h₂, hp, hq, -⟩ := h
    exact (safe_fork hp hq h₁ h₂ hrd hwr).mono subset_rfl subset_rfl fun _ _ => trivial
  | left _ ih =>
    obtain ⟨rd₁, wr₁, rd₂, wr₂, Q₁, Q₂, ⟨hrd, hwr⟩, -, -, hp, -, -⟩ := h
    exact (ih hp).mono (fun a ha => hrd (Or.inl ha)) (fun a ha => hwr (Or.inl ha)) fun _ h => h
  | right _ ih =>
    obtain ⟨rd₁, wr₁, rd₂, wr₂, Q₁, Q₂, ⟨hrd, hwr⟩, -, -, -, hq, -⟩ := h
    exact (ih hq).mono (fun a ha => hrd (Or.inr ha)) (fun a ha => hwr (Or.inr ha)) fun _ h => h

/-! ## Accesses to come -/

variable [DecidableEq A]

/-- What is left of a program after some of its accesses, with anything written to the memory in
between. -/
inductive Evolves {R : Type} : Prog A V R → Prog A V R → Prop
  | refl {p : Prog A V R} : Evolves p p
  | head {p p' p'' : Prog A V R} {m m' : A → V} (h : Step p m p' m') (hs : Evolves p' p'') :
      Evolves p p''

/-- Some access to come may read the cell. -/
def MayRead (p : Prog A V R) (a : A) : Prop := ∃ p', Evolves p p' ∧ NextRead p' a

/-- Some access to come may write the cell. -/
def MayWrite (p : Prog A V R) (a : A) : Prop := ∃ p', Evolves p p' ∧ NextWrite p' a

/-- No cell that one may write is accessed by the other. -/
structure RaceFree (l : Prog A V X) (r : Prog A V Y) : Prop where
  left : ∀ a, MayWrite l a → ¬ MayRead r a ∧ ¬ MayWrite r a
  right : ∀ a, MayWrite r a → ¬ MayRead l a ∧ ¬ MayWrite l a

/-- What becomes of a safe program is safe. -/
theorem Safe.evolves (h : Safe rd wr Q p) (hs : Evolves p p') : Safe rd wr Q p' := by
  induction hs with
  | refl => exact h
  | head hstep _ ih => exact ih (h.step hstep).1

/-- Whatever it reads it may read. -/
theorem Safe.mayRead (h : Safe rd wr Q p) (ha : MayRead p a) : a ∈ rd := by
  obtain ⟨p', hs, ha⟩ := ha
  exact (h.evolves hs).nextRead ha

/-- Whatever it writes it may write. -/
theorem Safe.mayWrite (h : Safe rd wr Q p) (ha : MayWrite p a) : a ∈ wr := by
  obtain ⟨p', hs, ha⟩ := ha
  exact (h.evolves hs).nextWrite ha

/-! ## The branches of a fork -/

/-- **The branches of a safe program's forks are free of races.** -/
theorem Safe.raceFree (h : Safe rd wr Q p) (hf : Forks p l r) : RaceFree l r := by
  obtain ⟨rd₁, wr₁, rd₂, wr₂, Q₁, Q₂, -, h₁, h₂, hl, hr, -⟩ := h.fork_of_forks hf
  constructor
  · intro a ha
    have hnot := h₁ a (hl.mayWrite ha)
    exact ⟨fun hread => hnot (Or.inl (hr.mayRead hread)),
      fun hwrite => hnot (Or.inr (hr.mayWrite hwrite))⟩
  · intro a ha
    have hnot := h₂ a (hr.mayWrite ha)
    exact ⟨fun hread => hnot (Or.inl (hl.mayRead hread)),
      fun hwrite => hnot (Or.inr (hl.mayWrite hwrite))⟩

/-- **Every interleaving of the branches of a safe program's fork** ends as the left branch
followed by the right one. -/
theorem Safe.fork_result (h : Safe rd wr Q p) (hf : Forks p l r) {m m' : A → V} {x : X × Y}
    (hs : Steps (fork l r) m (ret x) m') :
    ∃ mid, run l m = some (x.1, mid) ∧ run r mid = some (x.2, m') := by
  have hrun := (h.fork_of_forks hf).result hs
  rw [run_fork] at hrun
  obtain ⟨⟨x₁, mid⟩, hl, hrun⟩ := Option.bind_eq_some_iff.mp hrun
  obtain ⟨⟨x₂, m''⟩, hr, hrun⟩ := Option.bind_eq_some_iff.mp hrun
  cases hrun
  exact ⟨mid, hl, hr⟩

end Libfork.Found.Prog
