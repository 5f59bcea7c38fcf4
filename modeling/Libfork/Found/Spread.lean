import Libfork.Found.ForkJoin

/-!
# Fork-join programs spread over tasks

A fork-join program in the middle of an interleaving, whose branches are tasks of their own. A task
invokes one for the left branch and one for the right branch, one after the other, awaits a join,
and goes on with what both have returned.

* `Spread A V R` — the tasks, each with the program it stands before.
* `Spread.act f μ` — what the code of the task `f` does.
* `Spread.erase` — the program that is left, with the tasks forgotten.
* `Spread.stage` — how far each task has come; `Turns` is what one action does to it.
* **`Acts.interleaves`** — an action is a step of the program or none, as long as nobody goes on
  from a join before both branches have returned.

Nothing here is about a particular program.
-/

namespace Libfork.Found

/-- A program whose branches run as tasks. -/
inductive Spread (A V : Type) : Type → Type 1
  /-- The task `f` stands before `p`. -/
  | here {R : Type} (f : ℕ) (p : Prog A V R) : Spread A V R
  /-- The task `f` has invoked one for its left branch. -/
  | half {R X Y : Type} (f : ℕ) (l : Spread A V X) (q : Prog A V Y) (k : X → Y → Prog A V R) :
      Spread A V R
  /-- The task `f` has invoked both, and may have awaited the join. -/
  | both {R X Y : Type} (f : ℕ) (l : Spread A V X) (r : Spread A V Y) (k : X → Y → Prog A V R)
      (joined : Bool) : Spread A V R
  /-- The task `f` has returned. -/
  | finished {R : Type} (f : ℕ) (x : R) : Spread A V R

/-- What the code of a task does next. -/
inductive Deed
  /-- It reads or writes a cell. -/
  | access
  /-- It invokes the task `c`. -/
  | invoke (c : ℕ)
  /-- It awaits the join. -/
  | join
  /-- It is past the join, and takes what its branches have returned. -/
  | collect
  /-- It returns. -/
  | ret
deriving DecidableEq, Repr

/-- It is a step of the program: the other actions are between two steps. -/
def Deed.advances : Deed → Bool
  | .access => true
  | .invoke _ => false
  | .join => false
  | .collect => true
  | .ret => false

/-- How far a task has come. -/
inductive Stage
  /-- It has invoked nothing since the last join. -/
  | here
  /-- It has invoked one task. -/
  | half
  /-- It has invoked two. -/
  | both (joined : Bool)
deriving DecidableEq, Repr

/-- The tasks it has invoked since. -/
def Stage.children : Stage → ℕ
  | .here => 0
  | .half => 1
  | .both _ => 2

namespace Spread

variable {A V R X Y : Type}

/-- The task at the top. -/
def task : {R : Type} → Spread A V R → ℕ
  | _, here f _ => f
  | _, half f _ _ _ => f
  | _, both f _ _ _ _ => f
  | _, finished f _ => f

/-- The program that is left. -/
def erase : {R : Type} → Spread A V R → Prog A V R
  | _, here _ p => p
  | _, half _ l q k => .par l.erase q k
  | _, both _ l r k _ => .par l.erase r.erase k
  | _, finished _ x => .ret x

/-- What the task at the top has returned. -/
def returned : {R : Type} → Spread A V R → Option R
  | _, finished _ x => some x
  | _, _ => none

/-- How far each task has come, `none` where it has returned. -/
def stage : {R : Type} → Spread A V R → ℕ → Option Stage
  | _, here f _, g => if g = f then some .here else none
  | _, half f l _ _, g => (if g = f then some .half else none).or (l.stage g)
  | _, both f l r _ joined, g =>
      (if g = f then some (.both joined) else none).or ((l.stage g).or (r.stage g))
  | _, finished _ _, _ => none

/-- The task `g` has invoked `c`. -/
def Invoked : {R : Type} → Spread A V R → ℕ → ℕ → Prop
  | _, here _ _, _, _ => False
  | _, half f l _ _, g, c => (g = f ∧ c = l.task) ∨ l.Invoked g c
  | _, both f l r _ _, g, c =>
      (g = f ∧ (c = l.task ∨ c = r.task)) ∨ l.Invoked g c ∨ r.Invoked g c
  | _, finished _ _, _, _ => False

/-- No two tasks have one name. -/
def Distinct : {R : Type} → Spread A V R → Prop
  | _, here _ _ => True
  | _, half f l _ _ => l.stage f = none ∧ l.Distinct
  | _, both f l r _ _ =>
      (l.stage f = none ∧ r.stage f = none) ∧ (∀ g, l.stage g = none ∨ r.stage g = none) ∧
        l.Distinct ∧ r.Distinct
  | _, finished _ _ => True

/-! ## What the code does -/

section act

variable [DecidableEq A]

/-- What follows a join. To take what was not returned yet is to fail. -/
def next : {X Y : Type} → Spread A V X → Spread A V Y → (X → Y → Prog A V R) → Prog A V R
  | _, _, finished _ x, finished _ y, k => k x y
  | _, _, _, _, _ => .fail

/-- What the task at the top does. -/
def deed : {R : Type} → Deed → Spread A V R → (A → V) → Option (Spread A V R × (A → V))
  | _, .access, here f (.read a k), m => some (here f (k (m a)), m)
  | _, .access, here f (.write a v k), m => some (here f k, Function.update m a v)
  | _, .invoke c, here f (.par p q k), m => some (half f (here c p) q k, m)
  | _, .invoke c, half f l q k, m => some (both f l (here c q) k false, m)
  | _, .join, both f l r k false, m => some (both f l r k true, m)
  | _, .collect, both f l r k true, m => some (here f (next l r k), m)
  | _, .ret, here f (.ret x), m => some (finished f x, m)
  | _, _, _, _ => none

/-- What the code of the task `f` does. -/
def act (f : ℕ) (μ : Deed) :
    {R : Type} → Spread A V R → (A → V) → Option (Spread A V R × (A → V))
  | _, here g p, m => if g = f then deed μ (here g p) m else none
  | _, half g l q k, m =>
      if g = f then deed μ (half g l q k) m
      else (act f μ l m).map fun x => (half g x.1 q k, x.2)
  | _, both g l r k joined, m =>
      if g = f then deed μ (both g l r k joined) m
      else ((act f μ l m).map fun x => (both g x.1 r k joined, x.2)).or
        ((act f μ r m).map fun x => (both g l x.1 k joined, x.2))
  | _, finished _ _, _ => none

/-- The cases of `act`. -/
inductive Acts (f : ℕ) :
    {R : Type} → Deed → Spread A V R → (A → V) → Spread A V R → (A → V) → Prop
  | read {R : Type} {a : A} {k : V → Prog A V R} {m : A → V} :
      Acts f .access (here f (.read a k)) m (here f (k (m a))) m
  | write {R : Type} {a : A} {v : V} {k : Prog A V R} {m : A → V} :
      Acts f .access (here f (.write a v k)) m (here f k) (Function.update m a v)
  | left {R X Y : Type} {c : ℕ} {p : Prog A V X} {q : Prog A V Y} {k : X → Y → Prog A V R}
      {m : A → V} : Acts f (.invoke c) (here f (.par p q k)) m (half f (here c p) q k) m
  | right {R X Y : Type} {c : ℕ} {l : Spread A V X} {q : Prog A V Y} {k : X → Y → Prog A V R}
      {m : A → V} : Acts f (.invoke c) (half f l q k) m (both f l (here c q) k false) m
  | join {R X Y : Type} {l : Spread A V X} {r : Spread A V Y} {k : X → Y → Prog A V R}
      {m : A → V} : Acts f .join (both f l r k false) m (both f l r k true) m
  | collect {R X Y : Type} {l : Spread A V X} {r : Spread A V Y} {k : X → Y → Prog A V R}
      {m : A → V} : Acts f .collect (both f l r k true) m (here f (next l r k)) m
  | ret {R : Type} {x : R} {m : A → V} : Acts f .ret (here f (.ret x)) m (finished f x) m
  | inHalf {R X Y : Type} {μ : Deed} {g : ℕ} {l l' : Spread A V X} {q : Prog A V Y}
      {k : X → Y → Prog A V R} {m m' : A → V} (h : Acts f μ l m l' m') :
      Acts f μ (half g l q k) m (half g l' q k) m'
  | inLeft {R X Y : Type} {μ : Deed} {g : ℕ} {l l' : Spread A V X} {r : Spread A V Y}
      {k : X → Y → Prog A V R} {joined : Bool} {m m' : A → V} (h : Acts f μ l m l' m') :
      Acts f μ (both g l r k joined) m (both g l' r k joined) m'
  | inRight {R X Y : Type} {μ : Deed} {g : ℕ} {l : Spread A V X} {r r' : Spread A V Y}
      {k : X → Y → Prog A V R} {joined : Bool} {m m' : A → V} (h : Acts f μ r m r' m') :
      Acts f μ (both g l r k joined) m (both g l r' k joined) m'

variable {f g c : ℕ} {μ : Deed} {t t' : Spread A V R} {m m' : A → V}

/-- What a task does is an act of the tree. -/
theorem acts_of_deed (h : deed μ t m = some (t', m')) : Acts t.task μ t m t' m' := by
  unfold deed at h
  split at h <;> cases h
  case h_1 => exact .read
  case h_2 => exact .write
  case h_3 => exact .left
  case h_4 => exact .right
  case h_5 => exact .join
  case h_6 => exact .collect
  case h_7 => exact .ret

/-- **Every action is one of the cases.** -/
theorem acts_of_act (h : act f μ t m = some (t', m')) : Acts f μ t m t' m' := by
  induction t generalizing m m' with
  | here g p =>
    unfold act at h
    split_ifs at h with hg
    exact hg ▸ acts_of_deed h
  | half g l q k ih =>
    unfold act at h
    split_ifs at h with hg
    · exact hg ▸ acts_of_deed h
    · obtain ⟨⟨l', m₁⟩, hl, heq⟩ := Option.map_eq_some_iff.mp h
      cases heq
      exact .inHalf (ih hl)
  | both g l r k joined ihl ihr =>
    unfold act at h
    split_ifs at h with hg
    · exact hg ▸ acts_of_deed h
    · rcases Option.or_eq_some_iff.mp h with h | ⟨-, h⟩
      · obtain ⟨⟨l', m₁⟩, hl, heq⟩ := Option.map_eq_some_iff.mp h
        cases heq
        exact .inLeft (ihl hl)
      · obtain ⟨⟨r', m₁⟩, hr, heq⟩ := Option.map_eq_some_iff.mp h
        cases heq
        exact .inRight (ihr hr)
  | finished g x => cases h

end act

end Spread

/-! ## What an action does to the tasks -/

variable {A V R X Y : Type}

/-- What an action of `f` does to how far the tasks have come. -/
inductive Turns (st : ℕ → Option Stage) (f : ℕ) : Deed → (ℕ → Option Stage) → Prop
  | access (h : st f = some .here) : Turns st f .access st
  | left {c : ℕ} (h : st f = some .here) (hc : st c = none) :
      Turns st f (.invoke c) (Function.update (Function.update st f (some .half)) c (some .here))
  | right {c : ℕ} (h : st f = some .half) (hc : st c = none) : Turns st f (.invoke c)
      (Function.update (Function.update st f (some (.both false))) c (some .here))
  | join (h : st f = some (.both false)) :
      Turns st f .join (Function.update st f (some (.both true)))
  | collect (h : st f = some (.both true)) :
      Turns st f .collect (Function.update st f (some .here))
  | ret (h : st f = some .here) : Turns st f .ret (Function.update st f none)

section turns

variable {st st' o : ℕ → Option Stage} {f g : ℕ} {μ : Deed}

/-- A task that turns is there. -/
theorem Turns.ne_none (h : Turns st f μ st') : st f ≠ none := by
  cases h with
  | access h => simp [h]
  | left h => simp [h]
  | right h => simp [h]
  | join h => simp [h]
  | collect h => simp [h]
  | ret h => simp [h]

/-- A task that is not there comes by being invoked. -/
theorem Turns.eq_none (h : Turns st f μ st') (hg : st g = none) (hnew : μ ≠ .invoke g) :
    st' g = none := by
  have hgf : g ≠ f := by
    rintro rfl
    exact h.ne_none hg
  cases h with
  | access => exact hg
  | @left c =>
    have hgc : g ≠ c := fun heq => hnew (heq ▸ rfl)
    rw [Function.update_of_ne hgc, Function.update_of_ne hgf, hg]
  | @right c =>
    have hgc : g ≠ c := fun heq => hnew (heq ▸ rfl)
    rw [Function.update_of_ne hgc, Function.update_of_ne hgf, hg]
  | join => rw [Function.update_of_ne hgf, hg]
  | collect => rw [Function.update_of_ne hgf, hg]
  | ret => rw [Function.update_of_ne hgf, hg]

/-- Other tasks stay as they are. -/
theorem or_update (hg : o g = none) (st : ℕ → Option Stage) (a : Option Stage) :
    (fun x => (o x).or (Function.update st g a x)) =
      Function.update (fun x => (o x).or (st x)) g a := by
  funext x
  by_cases hx : x = g
  · simp [hx, hg]
  · simp [hx]

/-- A task turns the same beside others. -/
theorem Turns.beside (h : Turns st f μ st') (hf : o f = none)
    (hnew : ∀ c, μ = .invoke c → o c = none) :
    Turns (fun g => (o g).or (st g)) f μ fun g => (o g).or (st' g) := by
  cases h with
  | access h => exact .access (by simp [h, hf])
  | @left c h hc =>
    have hoc := hnew c rfl
    rw [or_update hoc, or_update hf]
    exact .left (by simp [h, hf]) (by simp [hc, hoc])
  | @right c h hc =>
    have hoc := hnew c rfl
    rw [or_update hoc, or_update hf]
    exact .right (by simp [h, hf]) (by simp [hc, hoc])
  | join h =>
    rw [or_update hf]
    exact .join (by simp [h, hf])
  | collect h =>
    rw [or_update hf]
    exact .collect (by simp [h, hf])
  | ret h =>
    rw [or_update hf]
    exact .ret (by simp [h, hf])

end turns

namespace Spread

/-- New tasks have new names, and a join is left after both branches have returned. -/
structure Orderly (t : Spread A V R) (f : ℕ) (μ : Deed) : Prop where
  new : ∀ c, μ = .invoke c → t.stage c = none
  joined : μ = .collect → ∀ c, t.Invoked f c → t.stage c = none

section orderly

variable {l : Spread A V X} {r : Spread A V Y} {q : Prog A V Y} {k : X → Y → Prog A V R}
  {joined : Bool} {f g : ℕ} {μ : Deed}

/-- An orderly deed is orderly in the branch that has begun. -/
theorem Orderly.half (h : (half g l q k).Orderly f μ) : l.Orderly f μ where
  new c hc := (Option.or_eq_none_iff.mp (h.new c hc)).2
  joined hμ c hc := (Option.or_eq_none_iff.mp (h.joined hμ c (Or.inr hc))).2

/-- It is orderly in the left branch. -/
theorem Orderly.left (h : (both g l r k joined).Orderly f μ) : l.Orderly f μ where
  new c hc := (Option.or_eq_none_iff.mp (Option.or_eq_none_iff.mp (h.new c hc)).2).1
  joined hμ c hc :=
    (Option.or_eq_none_iff.mp
      (Option.or_eq_none_iff.mp (h.joined hμ c (Or.inr (Or.inl hc)))).2).1

/-- It is orderly in the right branch. -/
theorem Orderly.right (h : (both g l r k joined).Orderly f μ) : r.Orderly f μ where
  new c hc := (Option.or_eq_none_iff.mp (Option.or_eq_none_iff.mp (h.new c hc)).2).2
  joined hμ c hc :=
    (Option.or_eq_none_iff.mp
      (Option.or_eq_none_iff.mp (h.joined hμ c (Or.inr (Or.inr hc)))).2).2

end orderly

/-- The task at the top is there until it has returned. -/
theorem exists_finished {t : Spread A V R} (h : t.stage t.task = none) :
    ∃ f x, t = finished f x := by
  cases t with
  | finished f x => exact ⟨f, x, rfl⟩
  | here f p => simp [stage, task] at h
  | half f l q k => simp [stage, task] at h
  | both f l r k joined => simp [stage, task] at h

/-- In which order the branches are asked does not matter. -/
theorem stage_both {f : ℕ} {l : Spread A V X} {r : Spread A V Y} {k : X → Y → Prog A V R}
    {joined : Bool} (hdisj : ∀ g, l.stage g = none ∨ r.stage g = none) :
    (both f l r k joined).stage = fun g =>
      ((if g = f then some (.both joined) else none).or (r.stage g)).or (l.stage g) := by
  funext g
  rcases hdisj g with h | h <;> simp [stage, h]

/-- A tree that has returned is over. -/
theorem exists_finished_of_returned {t : Spread A V R} {x : R} (h : t.returned = some x) :
    t = finished t.task x := by
  cases t <;> cases h
  rfl

section acts

variable [DecidableEq A] {f g c : ℕ} {μ : Deed} {t t' : Spread A V R} {m m' : A → V}

/-- An act does not change whose tree it is. -/
theorem Acts.task_eq (h : Acts f μ t m t' m') : t'.task = t.task := by
  cases h <;> rfl

/-- Who goes on from a join has awaited it. -/
theorem Acts.stage_collect (h : Acts f μ t m t' m') (hμ : μ = .collect) (hd : t.Distinct) :
    t.stage f = some (.both true) := by
  induction h with
  | read => cases hμ
  | write => cases hμ
  | left => cases hμ
  | right => cases hμ
  | join => cases hμ
  | collect => simp [stage]
  | ret => cases hμ
  | @inHalf R X Y μ g l l' q k m m' h ih =>
    obtain ⟨hgl, hl⟩ := hd
    have hf := ih hμ hl
    have hfg : f ≠ g := by
      rintro rfl
      cases hgl.symm.trans hf
    simp [stage, hfg, hf]
  | @inLeft R X Y μ g l l' r k joined m m' h ih =>
    obtain ⟨⟨hgl, -⟩, -, hl, -⟩ := hd
    have hf := ih hμ hl
    have hfg : f ≠ g := by
      rintro rfl
      cases hgl.symm.trans hf
    simp [stage, hfg, hf]
  | @inRight R X Y μ g l r r' k joined m m' h ih =>
    obtain ⟨⟨-, hgr⟩, hdisj, -, hr⟩ := hd
    have hf := ih hμ hr
    have hfg : f ≠ g := by
      rintro rfl
      cases hgr.symm.trans hf
    have hfl := (hdisj f).resolve_right (by simp [hf])
    simp [stage, hfg, hfl, hf]

/-- **The tasks after an action.** -/
theorem Acts.turns (h : Acts f μ t m t' m') (hd : t.Distinct) (ho : t.Orderly f μ) :
    Turns t.stage f μ t'.stage ∧ t'.Distinct := by
  induction h with
  | read => exact ⟨.access (by simp [stage]), trivial⟩
  | write => exact ⟨.access (by simp [stage]), trivial⟩
  | @left R X Y c p q k m =>
    have hc := ho.new c rfl
    have hcf : c ≠ f := by
      rintro rfl
      simp [stage] at hc
    have heq : (half f (here c p) q k).stage = Function.update
        (Function.update (here f (p.par q k)).stage f (some .half)) c (some .here) := by
      funext g
      by_cases hgc : g = c
      · simp [stage, hgc, hcf]
      · by_cases hgf : g = f <;> simp [stage, hgc, hgf, hcf.symm]
    exact ⟨heq ▸ .left (by simp [stage]) hc, by simp [stage, hcf.symm], trivial⟩
  | @right R X Y c l q k m =>
    obtain ⟨hlf, hl⟩ := hd
    have hc := ho.new c rfl
    obtain ⟨hcf, hlc⟩ : c ≠ f ∧ l.stage c = none := by simpa [stage] using hc
    have heq : (both f l (here c q) k false).stage = Function.update
        (Function.update (half f l q k).stage f (some (.both false))) c (some .here) := by
      funext g
      by_cases hgc : g = c
      · simp [stage, hgc, hcf, hlc]
      · by_cases hgf : g = f <;> simp [stage, hgc, hgf, hcf.symm]
    refine ⟨heq ▸ .right (by simp [stage]) hc, ⟨hlf, by simp [stage, hcf.symm]⟩, fun g => ?_, hl,
      trivial⟩
    by_cases hgc : g = c
    · exact Or.inl (hgc ▸ hlc)
    · exact Or.inr (by simp [stage, hgc])
  | @join R X Y l r k m =>
    have heq : (both f l r k true).stage =
        Function.update (both f l r k false).stage f (some (.both true)) := by
      funext g
      by_cases hgf : g = f <;> simp [stage, hgf]
    exact ⟨heq ▸ .join (by simp [stage]), hd⟩
  | @collect R X Y l r k m =>
    -- both branches have returned, and are forgotten
    have hover := ho.joined rfl
    simp only [Invoked, stage, Option.or_eq_none_iff] at hover
    obtain ⟨fl, x, rfl⟩ := exists_finished (hover l.task (by simp)).2.1
    obtain ⟨fr, y, rfl⟩ := exists_finished (hover r.task (by simp)).2.2
    have heq : (here f (k x y)).stage =
        Function.update (both f (finished fl x) (finished fr y) k true).stage f (some .here) := by
      funext g
      by_cases hgf : g = f <;> simp [stage, hgf]
    exact ⟨heq ▸ .collect (by simp [stage]), trivial⟩
  | @ret R x m =>
    have heq : (finished f x : Spread A V R).stage =
        Function.update (here f (.ret x : Prog A V R)).stage f none := by
      funext g
      by_cases hgf : g = f <;> simp [stage, hgf]
    exact ⟨heq ▸ .ret (by simp [stage]), trivial⟩
  | @inHalf R X Y μ g l l' q k m m' h ih =>
    obtain ⟨hgl, hl⟩ := hd
    obtain ⟨hturns, hl'⟩ := ih hl ho.half
    have hnew : ∀ c, μ = .invoke c → c ≠ g := by
      rintro c hc rfl
      have := ho.new c hc
      simp [stage] at this
    have hfg : f ≠ g := by
      rintro rfl
      exact hturns.ne_none hgl
    refine ⟨hturns.beside (by simp [hfg]) fun c hc => by simp [hnew c hc], ?_, hl'⟩
    exact hturns.eq_none hgl fun hg => hnew g hg rfl
  | @inLeft R X Y μ g l l' r k joined m m' h ih =>
    obtain ⟨⟨hgl, hgr⟩, hdisj, hl, hr⟩ := hd
    obtain ⟨hturns, hl'⟩ := ih hl ho.left
    have hfg : f ≠ g := by
      rintro rfl
      exact hturns.ne_none hgl
    have hfr : r.stage f = none := (hdisj f).resolve_left hturns.ne_none
    have hnew : ∀ c, μ = .invoke c → c ≠ g ∧ r.stage c = none := by
      intro c hc
      have hcnone := ho.new c hc
      simp only [stage, Option.or_eq_none_iff] at hcnone
      refine ⟨?_, hcnone.2.2⟩
      rintro rfl
      simp at hcnone
    have hdisj' : ∀ x, l'.stage x = none ∨ r.stage x = none := by
      intro x
      by_cases hx : μ = .invoke x
      · exact Or.inr (hnew x hx).2
      · exact (hdisj x).imp_left fun hlx => hturns.eq_none hlx hx
    have hgl' : l'.stage g = none := hturns.eq_none hgl fun hg => (hnew g hg).1 rfl
    refine ⟨?_, ⟨hgl', hgr⟩, hdisj', hl', hr⟩
    rw [stage_both hdisj, stage_both hdisj']
    exact hturns.beside (by simp [hfg, hfr]) fun c hc => by simp [hnew c hc]
  | @inRight R X Y μ g l r r' k joined m m' h ih =>
    obtain ⟨⟨hgl, hgr⟩, hdisj, hl, hr⟩ := hd
    obtain ⟨hturns, hr'⟩ := ih hr ho.right
    have hfg : f ≠ g := by
      rintro rfl
      exact hturns.ne_none hgr
    have hfl : l.stage f = none := (hdisj f).resolve_right hturns.ne_none
    have hnew : ∀ c, μ = .invoke c → c ≠ g ∧ l.stage c = none := by
      intro c hc
      have hcnone := ho.new c hc
      simp only [stage, Option.or_eq_none_iff] at hcnone
      refine ⟨?_, hcnone.2.1⟩
      rintro rfl
      simp at hcnone
    have hdisj' : ∀ x, l.stage x = none ∨ r'.stage x = none := by
      intro x
      by_cases hx : μ = .invoke x
      · exact Or.inl (hnew x hx).2
      · exact (hdisj x).imp_right fun hrx => hturns.eq_none hrx hx
    have hgr' : r'.stage g = none := hturns.eq_none hgr fun hg => (hnew g hg).1 rfl
    refine ⟨?_, ⟨hgl, hgr'⟩, hdisj', hl, hr'⟩
    have hassoc : ∀ r : Spread A V Y, (both g l r k joined).stage = fun x =>
        ((if x = g then some (.both joined) else none).or (l.stage x)).or (r.stage x) := by
      intro r
      funext x
      rw [Option.or_assoc]
      rfl
    rw [hassoc, hassoc]
    exact hturns.beside (by simp [hfg, hfl]) fun c hc => by simp [hnew c hc]

/-- Who has invoked whom after an action. -/
theorem Acts.invoked (h : Acts f μ t m t' m') (hgc : t'.Invoked g c) :
    t.Invoked g c ∨ (g = f ∧ μ = .invoke c) := by
  induction h with
  | read => exact hgc.elim
  | write => exact hgc.elim
  | left =>
    obtain ⟨rfl, rfl⟩ | hgc := hgc
    · exact Or.inr ⟨rfl, rfl⟩
    · exact hgc.elim
  | right =>
    obtain ⟨rfl, rfl | rfl⟩ | hgc | hgc := hgc
    · exact Or.inl (Or.inl ⟨rfl, rfl⟩)
    · exact Or.inr ⟨rfl, rfl⟩
    · exact Or.inl (Or.inr hgc)
    · exact hgc.elim
  | join => exact Or.inl hgc
  | collect => exact hgc.elim
  | ret => exact hgc.elim
  | inHalf h ih =>
    rcases hgc with hgc | hgc
    · exact Or.inl (Or.inl (h.task_eq ▸ hgc))
    · exact (ih hgc).imp_left Or.inr
  | inLeft h ih =>
    rcases hgc with hgc | hgc | hgc
    · exact Or.inl (Or.inl (h.task_eq ▸ hgc))
    · exact (ih hgc).imp_left fun hl => Or.inr (Or.inl hl)
    · exact Or.inl (Or.inr (Or.inr hgc))
  | inRight h ih =>
    rcases hgc with hgc | hgc | hgc
    · exact Or.inl (Or.inl (h.task_eq ▸ hgc))
    · exact Or.inl (Or.inr (Or.inl hgc))
    · exact (ih hgc).imp_left fun hr => Or.inr (Or.inr hr)

/-! ## What an action does to the program -/

/-- **An access, and a join that is left after both branches have returned, is a step of the
program.** -/
theorem Acts.step (h : Acts f μ t m t' m') (ho : t.Orderly f μ) (hμ : μ.advances = true) :
    Prog.Step t.erase m t'.erase m' := by
  induction h with
  | read => exact .read
  | write => exact .write
  | left => cases hμ
  | right => cases hμ
  | join => cases hμ
  | @collect R X Y l r k m =>
    have hover := ho.joined rfl
    simp only [Invoked, stage, Option.or_eq_none_iff] at hover
    obtain ⟨fl, x, rfl⟩ := exists_finished (hover l.task (by simp)).2.1
    obtain ⟨fr, y, rfl⟩ := exists_finished (hover r.task (by simp)).2.2
    exact .join
  | ret => cases hμ
  | inHalf h ih => exact .left (ih ho.half hμ)
  | inLeft h ih => exact .left (ih ho.left hμ)
  | inRight h ih => exact .right (ih ho.right hμ)

/-- What else a task does leaves the program and the memory as they are. -/
theorem Acts.idle (h : Acts f μ t m t' m') (hμ : μ.advances = false) :
    t'.erase = t.erase ∧ m' = m := by
  induction h with
  | read => cases hμ
  | write => cases hμ
  | left => exact ⟨rfl, rfl⟩
  | right => exact ⟨rfl, rfl⟩
  | join => exact ⟨rfl, rfl⟩
  | collect => cases hμ
  | ret => exact ⟨rfl, rfl⟩
  | inHalf h ih =>
    obtain ⟨hl, hm⟩ := ih hμ
    exact ⟨by simp only [erase, hl], hm⟩
  | inLeft h ih =>
    obtain ⟨hl, hm⟩ := ih hμ
    exact ⟨by simp only [erase, hl], hm⟩
  | inRight h ih =>
    obtain ⟨hr, hm⟩ := ih hμ
    exact ⟨by simp only [erase, hr], hm⟩

/-- **An action is a step of the program, or none.** -/
theorem Acts.steps (h : Acts f μ t m t' m') (ho : t.Orderly f μ) :
    Prog.Steps t.erase m t'.erase m' := by
  cases hμ : μ.advances with
  | true => exact .head (h.step ho hμ) .refl
  | false =>
    obtain ⟨heq, rfl⟩ := h.idle hμ
    rw [heq]
    exact .refl

/-! ## A task can always go on -/

/-- A task that has not returned does something next, if the program that is left is safe. -/
theorem exists_act {rd wr : Set A} {Q : R → Prop} (hsafe : t.erase.Safe rd wr Q)
    (hf : t.stage f ≠ none) (c : ℕ) (m : A → V) :
    ∃ μ x, (∀ d, μ = .invoke d → d = c) ∧ act f μ t m = some x := by
  induction t generalizing rd wr with
  | here g p =>
    obtain rfl : f = g := by
      by_contra hne
      simp [stage, hne] at hf
    cases p with
    | ret x => exact ⟨.ret, _, by simp, if_pos rfl⟩
    | fail => exact hsafe.elim
    | read a k => exact ⟨.access, _, by simp, if_pos rfl⟩
    | write a v k => exact ⟨.access, _, by simp, if_pos rfl⟩
    | par p q k => exact ⟨.invoke c, _, by simp, if_pos rfl⟩
  | half g l q k ih =>
    by_cases hfg : g = f
    · exact ⟨.invoke c, _, by simp, if_pos hfg⟩
    · obtain ⟨_, _, _, _, _, _, -, -, -, hl, -⟩ := hsafe
      obtain ⟨μ, x, hμ, hx⟩ := ih hl (by simpa [stage, Ne.symm hfg] using hf)
      exact ⟨μ, (half g x.1 q k, x.2), hμ, by simp [act, hfg, hx]⟩
  | both g l r k joined ihl ihr =>
    by_cases hfg : g = f
    · cases joined with
      | false => exact ⟨.join, _, by simp, if_pos hfg⟩
      | true => exact ⟨.collect, _, by simp, if_pos hfg⟩
    · obtain ⟨_, _, _, _, _, _, -, -, -, hl, hr, -⟩ := hsafe
      by_cases hfl : l.stage f = none
      · obtain ⟨μ, x, hμ, hx⟩ := ihr hr (by simpa [stage, Ne.symm hfg, hfl] using hf)
        cases hleft : act f μ l m with
        | none => exact ⟨μ, (both g l x.1 k joined, x.2), hμ, by simp [act, hfg, hleft, hx]⟩
        | some y => exact ⟨μ, (both g y.1 r k joined, y.2), hμ, by simp [act, hfg, hleft]⟩
      · obtain ⟨μ, x, hμ, hx⟩ := ihl hl hfl
        exact ⟨μ, (both g x.1 r k joined, x.2), hμ, by simp [act, hfg, hx]⟩
  | finished g x => exact absurd rfl hf

end acts

end Spread

end Libfork.Found
