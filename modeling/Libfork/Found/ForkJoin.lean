import Mathlib.Data.Set.Lattice
import Mathlib.Logic.Function.Basic
import Mathlib.Tactic.Common

/-!
# Fork-join programs on a shared memory

* `Prog A V R` — a program that reads and writes cells `A` with values `V`, runs two programs in
  parallel until both have returned, and returns an `R`. It may also fail.
* `Prog.Step` — one access of one of the parallel branches: the interleavings.
* `Prog.run` — the sequential run, left branch first.
* `Prog.Safe rd wr Q p` — `p` does not fail, reads only in `rd`, writes only in `wr`, returns a
  value in `Q`, and no cell that one of two parallel branches writes is accessed by the other.
* **`Prog.Safe.complete`** — every interleaving of a safe program can be completed, and ends as
  the sequential run does.

Nothing here is about a particular program.
-/

namespace Libfork.Found

/-- A program on the cells `A` with values `V` that returns an `R`. -/
inductive Prog (A V : Type) : Type → Type 1
  /-- Return. -/
  | ret {R : Type} (r : R) : Prog A V R
  /-- Fail: an assertion does not hold, or the program would not return. -/
  | fail {R : Type} : Prog A V R
  /-- Read a cell. -/
  | read {R : Type} (a : A) (k : V → Prog A V R) : Prog A V R
  /-- Write a cell. -/
  | write {R : Type} (a : A) (v : V) (k : Prog A V R) : Prog A V R
  /-- Run two programs in parallel, then go on with what they return. -/
  | par {R X Y : Type} (p : Prog A V X) (q : Prog A V Y) (k : X → Y → Prog A V R) : Prog A V R

namespace Prog

variable {A V R S X Y : Type}

/-! ## Composition -/

/-- First `p`, then `f` of what it returns. -/
def bind : {R : Type} → Prog A V R → (R → Prog A V S) → Prog A V S
  | _, ret r, f => f r
  | _, fail, _ => fail
  | _, read a k, f => read a fun v => bind (k v) f
  | _, write a v k, f => write a v (bind k f)
  | _, par p q k, f => par p q fun x y => bind (k x y) f

instance : Monad (Prog A V) where
  pure := ret
  bind := bind

/-- The value of a cell. -/
def load (a : A) : Prog A V V := read a ret

/-- Overwrite a cell. -/
def store (a : A) (v : V) : Prog A V Unit := write a v (ret ())

/-- Fail unless `b` holds. -/
def assert (b : Prop) [Decidable b] : Prog A V Unit := if b then ret () else fail

/-- Run both and return what both return. -/
def fork (p : Prog A V X) (q : Prog A V Y) : Prog A V (X × Y) := par p q fun x y => ret (x, y)

/-- The monad's `pure`. -/
@[simp] theorem pure_eq (r : R) : (pure r : Prog A V R) = ret r := rfl

/-- The monad's `bind`. -/
@[simp] theorem bind_eq (p : Prog A V R) (f : R → Prog A V S) : p >>= f = bind p f := rfl

/-- Returning what was returned. -/
theorem bind_ret (p : Prog A V R) : bind p ret = p := by
  induction p with
  | ret r => rfl
  | fail => rfl
  | read a k ih =>
    simp only [bind]
    congr 1
    funext v
    exact ih v
  | write a v k ih =>
    simp only [bind]
    congr 1
  | par p q k _ _ ih =>
    simp only [bind]
    congr 1
    funext x y
    exact ih x y

/-! ## Safe programs -/

/-- The program does not fail, reads in `rd`, writes in `wr`, returns in `Q`, and has no races. -/
def Safe : {R : Type} → Set A → Set A → (R → Prop) → Prog A V R → Prop
  | _, _, _, Q, ret r => Q r
  | _, _, _, _, fail => False
  | _, rd, wr, Q, read a k => a ∈ rd ∧ ∀ v, Safe rd wr Q (k v)
  | _, rd, wr, Q, write a _ k => a ∈ wr ∧ Safe rd wr Q k
  | _, rd, wr, Q, @par _ _ _ X Y p q k =>
      ∃ (rd₁ wr₁ rd₂ wr₂ : Set A) (Q₁ : X → Prop) (Q₂ : Y → Prop),
        (rd₁ ∪ rd₂ ⊆ rd ∧ wr₁ ∪ wr₂ ⊆ wr) ∧
        (∀ a ∈ wr₁, a ∉ rd₂ ∪ wr₂) ∧ (∀ a ∈ wr₂, a ∉ rd₁ ∪ wr₁) ∧
        Safe rd₁ wr₁ Q₁ p ∧ Safe rd₂ wr₂ Q₂ q ∧ ∀ x y, Q₁ x → Q₂ y → Safe rd wr Q (k x y)

section safe

variable {rd wr rd' wr' rd₁ wr₁ rd₂ wr₂ : Set A} {Q Q' : R → Prop} {p : Prog A V R} {a : A}
  {v : V}

/-- A larger footprint and a weaker promise. -/
theorem Safe.mono (h : Safe rd wr Q p) (hrd : rd ⊆ rd') (hwr : wr ⊆ wr') (hQ : ∀ r, Q r → Q' r) :
    Safe rd' wr' Q' p := by
  induction p with
  | ret r => exact hQ r h
  | fail => exact h
  | read a k ih => exact ⟨hrd h.1, fun v => ih v (h.2 v) hQ⟩
  | write a v k ih => exact ⟨hwr h.1, ih h.2 hQ⟩
  | par p q k _ _ ih =>
    obtain ⟨rd₁, wr₁, rd₂, wr₂, Q₁, Q₂, ⟨h₁, h₂⟩, h₃, h₄, hp, hq, hk⟩ := h
    exact ⟨rd₁, wr₁, rd₂, wr₂, Q₁, Q₂, ⟨h₁.trans hrd, h₂.trans hwr⟩, h₃, h₄, hp, hq,
      fun x y hx hy => ih x y (hk x y hx hy) hQ⟩

/-- Safe programs in sequence are safe. -/
theorem Safe.bind {Q' : S → Prop} {f : R → Prog A V S} (h : Safe rd wr Q p)
    (hf : ∀ r, Q r → Safe rd wr Q' (f r)) : Safe rd wr Q' (bind p f) := by
  induction p with
  | ret r => exact hf r h
  | fail => exact h
  | read a k ih => exact ⟨h.1, fun v => ih v (h.2 v) hf⟩
  | write a v k ih => exact ⟨h.1, ih h.2 hf⟩
  | par p q k _ _ ih =>
    obtain ⟨rd₁, wr₁, rd₂, wr₂, Q₁, Q₂, hsub, h₃, h₄, hp, hq, hk⟩ := h
    exact ⟨rd₁, wr₁, rd₂, wr₂, Q₁, Q₂, hsub, h₃, h₄, hp, hq,
      fun x y hx hy => ih x y (hk x y hx hy) hf⟩

/-- A load is safe where the cell may be read. -/
theorem safe_load (ha : a ∈ rd) : Safe rd wr (fun _ => True) (load a : Prog A V V) :=
  ⟨ha, fun _ => trivial⟩

/-- A store is safe where the cell may be written. -/
theorem safe_store (ha : a ∈ wr) : Safe rd wr (fun _ => True) (store a v : Prog A V Unit) :=
  ⟨ha, trivial⟩

/-- An assertion that holds is safe. -/
theorem safe_assert {b : Prop} [Decidable b] (hb : b) :
    Safe rd wr (fun _ => True) (assert b : Prog A V Unit) := by
  unfold assert
  rw [if_pos hb]
  trivial

/-- Two branches may run in parallel if neither accesses a cell that the other writes. -/
theorem safe_fork {Q₁ : X → Prop} {Q₂ : Y → Prop} {p : Prog A V X} {q : Prog A V Y}
    (hp : Safe rd₁ wr₁ Q₁ p) (hq : Safe rd₂ wr₂ Q₂ q) (h₁ : ∀ a ∈ wr₁, a ∉ rd₂ ∪ wr₂)
    (h₂ : ∀ a ∈ wr₂, a ∉ rd₁ ∪ wr₁) (hrd : rd₁ ∪ rd₂ ⊆ rd) (hwr : wr₁ ∪ wr₂ ⊆ wr) :
    Safe rd wr (fun x => Q₁ x.1 ∧ Q₂ x.2) (fork p q) :=
  ⟨rd₁, wr₁, rd₂, wr₂, Q₁, Q₂, ⟨hrd, hwr⟩, h₁, h₂, hp, hq, fun _ _ hx hy => ⟨hx, hy⟩⟩

end safe

variable [DecidableEq A]

/-! ## The interleavings -/

/-- One access of one branch. -/
inductive Step : {R : Type} → Prog A V R → (A → V) → Prog A V R → (A → V) → Prop
  | read {R : Type} {a : A} {k : V → Prog A V R} {m : A → V} : Step (read a k) m (k (m a)) m
  | write {R : Type} {a : A} {v : V} {k : Prog A V R} {m : A → V} :
      Step (write a v k) m k (Function.update m a v)
  | left {R X Y : Type} {p p' : Prog A V X} {q : Prog A V Y} {k : X → Y → Prog A V R}
      {m m' : A → V} (h : Step p m p' m') : Step (par p q k) m (par p' q k) m'
  | right {R X Y : Type} {p : Prog A V X} {q q' : Prog A V Y} {k : X → Y → Prog A V R}
      {m m' : A → V} (h : Step q m q' m') : Step (par p q k) m (par p q' k) m'
  | join {R X Y : Type} {x : X} {y : Y} {k : X → Y → Prog A V R} {m : A → V} :
      Step (par (ret x) (ret y) k) m (k x y) m

/-- An interleaving. -/
inductive Steps {R : Type} : Prog A V R → (A → V) → Prog A V R → (A → V) → Prop
  | refl {p : Prog A V R} {m : A → V} : Steps p m p m
  | head {p p' p'' : Prog A V R} {m m' m'' : A → V} (h : Step p m p' m')
      (hs : Steps p' m' p'' m'') : Steps p m p'' m''

/-! ## The sequential run -/

/-- What the program returns and the memory it leaves, left branches first; `none` if it fails. -/
def run : {R : Type} → Prog A V R → (A → V) → Option (R × (A → V))
  | _, ret r, m => some (r, m)
  | _, fail, _ => none
  | _, read a k, m => run (k (m a)) m
  | _, write a v k, m => run k (Function.update m a v)
  | _, par p q k, m =>
      (run p m).bind fun x => (run q x.2).bind fun y => run (k x.1 y.1) y.2

section run

variable (m : A → V)

/-- A return leaves the memory alone. -/
@[simp] theorem run_ret (r : R) : run (ret r : Prog A V R) m = some (r, m) := rfl

/-- A load reads the memory. -/
@[simp] theorem run_load (a : A) : run (load a : Prog A V V) m = some (m a, m) := rfl

/-- A store changes one cell. -/
@[simp] theorem run_store (a : A) (v : V) :
    run (store a v) m = some ((), Function.update m a v) := rfl

/-- An assertion that holds does nothing. -/
theorem run_assert {b : Prop} [Decidable b] (hb : b) :
    run (assert b : Prog A V Unit) m = some ((), m) := by
  unfold assert
  rw [if_pos hb]
  rfl

/-- Programs in sequence run one after the other. -/
theorem run_bind (p : Prog A V R) (f : R → Prog A V S) :
    run (bind p f) m = (run p m).bind fun x => run (f x.1) x.2 := by
  induction p generalizing m with
  | ret r => rfl
  | fail => rfl
  | read a k ih => exact ih (m a) m f
  | write a v k ih => exact ih _ f
  | par p q k _ _ ih =>
    simp only [bind, run, Option.bind_assoc]
    congr 1
    funext x
    congr 1
    funext y
    exact ih x.1 y.1 y.2 f

/-- The branches run one after the other. -/
theorem run_fork (p : Prog A V X) (q : Prog A V Y) :
    run (fork p q) m =
      (run p m).bind fun x => (run q x.2).bind fun y => some ((x.1, y.1), y.2) := rfl

/-- The rule of sequential composition. -/
theorem run_bind_of {p : Prog A V R} {f : R → Prog A V S} {m m' : A → V} {r : R}
    (h : run p m = some (r, m')) : run (bind p f) m = run (f r) m' := by
  rw [run_bind, h]
  rfl

end run

/-! ## Safe programs run as in sequence -/

variable {rd wr : Set A} {Q : R → Prop} {p p' : Prog A V R} {m m' : A → V} {a : A} {v : V}

/-- A safe program returns what it promises. -/
theorem Safe.run_some (h : Safe rd wr Q p) (m : A → V) :
    ∃ r m', run p m = some (r, m') ∧ Q r ∧ ∀ a, a ∉ wr → m' a = m a := by
  induction p generalizing m rd wr with
  | ret r => exact ⟨r, m, rfl, h, fun _ _ => rfl⟩
  | fail => exact h.elim
  | read a k ih => exact ih (m a) (h.2 (m a)) m
  | write a v k ih =>
    obtain ⟨r, m', hrun, hQ, hframe⟩ := ih h.2 (Function.update m a v)
    refine ⟨r, m', hrun, hQ, fun b hb => ?_⟩
    have hne : b ≠ a := fun he => hb (he ▸ h.1)
    rw [hframe b hb, Function.update_of_ne hne]
  | par p q k ihp ihq ih =>
    obtain ⟨rd₁, wr₁, rd₂, wr₂, Q₁, Q₂, ⟨-, hwr⟩, -, -, hp, hq, hk⟩ := h
    obtain ⟨x, m₁, hx, hQ₁, hframe₁⟩ := ihp hp m
    obtain ⟨y, m₂, hy, hQ₂, hframe₂⟩ := ihq hq m₁
    obtain ⟨r, m', hrun, hQ, hframe⟩ := ih x y (hk x y hQ₁ hQ₂) m₂
    refine ⟨r, m', ?_, hQ, fun b hb => ?_⟩
    · simp only [run, hx, hy, Option.bind_some]
      exact hrun
    · rw [hframe b hb, hframe₂ b fun hb' => hb (hwr (Or.inr hb')),
        hframe₁ b fun hb' => hb (hwr (Or.inl hb'))]

/-- What a safe program does not write is as before. -/
theorem Safe.frame {r : R} (h : Safe rd wr Q p) (hrun : run p m = some (r, m')) :
    Q r ∧ ∀ a, a ∉ wr → m' a = m a := by
  obtain ⟨r', m'', hrun', hQ, hframe⟩ := h.run_some m
  rw [hrun] at hrun'
  cases hrun'
  exact ⟨hQ, hframe⟩

/-- The run of a safe program commutes with a write outside its footprint. -/
theorem Safe.run_update (h : Safe rd wr Q p) (ha : a ∉ rd ∪ wr) (m : A → V) :
    run p (Function.update m a v) =
      (run p m).map fun x => (x.1, Function.update x.2 a v) := by
  induction p generalizing m rd wr with
  | ret r => rfl
  | fail => rfl
  | read b k ih =>
    have hne : b ≠ a := fun he => ha (Or.inl (he ▸ h.1))
    simp only [run, Function.update_of_ne hne]
    exact ih (m b) (h.2 (m b)) ha m
  | write b w k ih =>
    have hne : a ≠ b := fun he => ha (Or.inr (he ▸ h.1))
    simp only [run, Function.update_comm hne]
    exact ih h.2 ha _
  | par p q k ihp ihq ih =>
    obtain ⟨rd₁, wr₁, rd₂, wr₂, Q₁, Q₂, ⟨hrd, hwr⟩, -, -, hp, hq, hk⟩ := h
    have ha₁ : a ∉ rd₁ ∪ wr₁ := fun hmem =>
      ha (hmem.imp (fun hm => hrd (Or.inl hm)) fun hm => hwr (Or.inl hm))
    have ha₂ : a ∉ rd₂ ∪ wr₂ := fun hmem =>
      ha (hmem.imp (fun hm => hrd (Or.inr hm)) fun hm => hwr (Or.inr hm))
    obtain ⟨x, m₁, hx, hQ₁, -⟩ := hp.run_some m
    obtain ⟨y, m₂, hy, hQ₂, -⟩ := hq.run_some m₁
    have hp' := ihp hp ha₁ m
    have hq' := ihq hq ha₂ m₁
    rw [hx] at hp'
    rw [hy] at hq'
    simp only [Option.map_some] at hp' hq'
    simp only [run, hx, hy, hp', hq', Option.bind_some]
    exact ih x y (hk x y hQ₁ hQ₂) ha m₂

/-- A step depends on the cells it may read only, and changes a cell it may write at most. -/
theorem Step.local (hs : Step p m p' m') (h : Safe rd wr Q p) {m₁ : A → V}
    (hagree : ∀ a ∈ rd, m₁ a = m a) :
    ∃ m₁', Step p m₁ p' m₁' ∧ ((m' = m ∧ m₁' = m₁) ∨
      ∃ a ∈ wr, ∃ v, m' = Function.update m a v ∧ m₁' = Function.update m₁ a v) := by
  induction hs generalizing rd wr m₁ with
  | @read R a k m =>
    refine ⟨m₁, ?_, Or.inl ⟨rfl, rfl⟩⟩
    rw [← hagree a h.1]
    exact .read
  | @write R a v k m => exact ⟨_, .write, Or.inr ⟨a, h.1, v, rfl, rfl⟩⟩
  | left _ ih =>
    obtain ⟨rd₁, wr₁, rd₂, wr₂, Q₁, Q₂, ⟨hrd, hwr⟩, -, -, hp, -, -⟩ := h
    obtain ⟨m₁', hstep, hm⟩ := ih hp fun a ha => hagree a (hrd (Or.inl ha))
    refine ⟨m₁', .left hstep, hm.imp_right ?_⟩
    rintro ⟨a, ha, hv⟩
    exact ⟨a, hwr (Or.inl ha), hv⟩
  | right _ ih =>
    obtain ⟨rd₁, wr₁, rd₂, wr₂, Q₁, Q₂, ⟨hrd, hwr⟩, -, -, -, hq, -⟩ := h
    obtain ⟨m₁', hstep, hm⟩ := ih hq fun a ha => hagree a (hrd (Or.inr ha))
    refine ⟨m₁', .right hstep, hm.imp_right ?_⟩
    rintro ⟨a, ha, hv⟩
    exact ⟨a, hwr (Or.inr ha), hv⟩
  | join => exact ⟨m₁, .join, Or.inl ⟨rfl, rfl⟩⟩

/-- **One step of any branch changes nothing about how the run ends.** -/
theorem Safe.step (h : Safe rd wr Q p) (hs : Step p m p' m') :
    Safe rd wr Q p' ∧ run p' m' = run p m := by
  induction p generalizing m m' rd wr with
  | ret r => cases hs
  | fail => cases hs
  | read a k _ =>
    cases hs
    exact ⟨h.2 _, rfl⟩
  | write a v k _ =>
    cases hs
    exact ⟨h.2, rfl⟩
  | par p q k ihp ihq _ =>
    obtain ⟨rd₁, wr₁, rd₂, wr₂, Q₁, Q₂, hsub, h₁, h₂, hp, hq, hk⟩ := h
    cases hs with
    | left hs =>
      obtain ⟨hp', hrun⟩ := ihp hp hs
      refine ⟨⟨rd₁, wr₁, rd₂, wr₂, Q₁, Q₂, hsub, h₁, h₂, hp', hq, hk⟩, ?_⟩
      simp only [run, hrun]
    | @right _ _ _ _ _ q' _ _ _ hs =>
      obtain ⟨x, m₁, hx, -, hframe⟩ := hp.run_some m
      -- the step of the right branch, after the run of the left one
      obtain ⟨m₁', hs', hm⟩ := hs.local hq fun a ha =>
        hframe a fun ha' => h₁ a ha' (Or.inl ha)
      have hp' : run p m' = some (x, m₁') := by
        rcases hm with ⟨rfl, rfl⟩ | ⟨a, ha, v, rfl, rfl⟩
        · exact hx
        · rw [hp.run_update (h₂ a ha), hx]
          rfl
      have hsafe := (ihq hq hs).1
      have hrun := (ihq hq hs').2
      refine ⟨⟨rd₁, wr₁, rd₂, wr₂, Q₁, Q₂, hsub, h₁, h₂, hp, hsafe, hk⟩, ?_⟩
      simp only [run, hx, hp', Option.bind_some, hrun]
    | join =>
      exact ⟨hk _ _ hp hq, rfl⟩

/-- Steps of a safe program keep it safe, and keep its result. -/
theorem Safe.steps (h : Safe rd wr Q p) (hs : Steps p m p' m') :
    Safe rd wr Q p' ∧ run p' m' = run p m := by
  induction hs with
  | refl => exact ⟨h, rfl⟩
  | head hstep _ ih =>
    obtain ⟨h', hrun⟩ := h.step hstep
    obtain ⟨h'', hrun'⟩ := ih h'
    exact ⟨h'', hrun'.trans hrun⟩

/-! ## The sequential run is an interleaving -/

/-- Steps after steps are steps. -/
theorem Steps.trans {p'' : Prog A V R} {m'' : A → V} (h₁ : Steps p m p' m')
    (h₂ : Steps p' m' p'' m'') : Steps p m p'' m'' := by
  induction h₁ with
  | refl => exact h₂
  | head h _ ih => exact .head h (ih h₂)

/-- The left branch goes on. -/
theorem Steps.left {p p' : Prog A V X} {q : Prog A V Y} {k : X → Y → Prog A V R}
    (h : Steps p m p' m') : Steps (par p q k) m (par p' q k) m' := by
  induction h with
  | refl => exact .refl
  | head h _ ih => exact .head (.left h) ih

/-- The right branch goes on. -/
theorem Steps.right {p : Prog A V X} {q q' : Prog A V Y} {k : X → Y → Prog A V R}
    (h : Steps q m q' m') : Steps (par p q k) m (par p q' k) m' := by
  induction h with
  | refl => exact .refl
  | head h _ ih => exact .head (.right h) ih

/-- The sequential run is one of the interleavings. -/
theorem steps_of_run {r : R} (h : run p m = some (r, m')) : Steps p m (ret r) m' := by
  induction p generalizing m m' with
  | ret r' =>
    cases h
    exact .refl
  | fail => cases h
  | read a k ih => exact .head .read (ih _ h)
  | write a v k ih => exact .head .write (ih h)
  | par p q k ihp ihq ih =>
    simp only [run, Option.bind_eq_some_iff] at h
    obtain ⟨⟨x, m₁⟩, hx, ⟨y, m₂⟩, hy, hk⟩ := h
    exact (Steps.left (ihp hx)).trans ((Steps.right (ihq hy)).trans (.head .join (ih x y hk)))

/-- **Every interleaving of a safe program ends as the sequential run does.** It can be completed
from wherever it stands, and what it then returns and leaves in the memory does not depend on
it. -/
theorem Safe.complete (h : Safe rd wr Q p) (hs : Steps p m p' m') :
    ∃ r m'', run p m = some (r, m'') ∧ Steps p' m' (ret r) m'' := by
  obtain ⟨h', hrun⟩ := h.steps hs
  obtain ⟨r, m'', hr, -⟩ := h'.run_some m'
  exact ⟨r, m'', hrun.symm.trans hr, steps_of_run hr⟩

/-- A completed interleaving ends as the sequential run does. -/
theorem Safe.result {r : R} (h : Safe rd wr Q p) (hs : Steps p m (ret r) m') :
    run p m = some (r, m') := (h.steps hs).2.symm

end Prog

end Libfork.Found
