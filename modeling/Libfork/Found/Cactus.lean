import Mathlib.Data.List.Basic
import Mathlib.Logic.Function.Basic

/-!
# Cactus stacks

A cactus stack keeps the blocks of a tree of tasks on several branches. The blocks of a task lie
over those of its parent, or begin a branch of their own. Workers pass the branches on to each
other: a worker that holds a branch uses its top, one that has given it up does not, and a branch
that nobody holds waits for whoever goes on with the task on top of it.

* `Cactus` — the branches, and the one that each worker has at hand.
* `Hold` — what a worker has of the branch at hand.
* `Kept` — a branch is held by one worker at most, and none is lost.
* The rules after it: each thing that a worker may do with a branch keeps this.

Nothing here is about a particular program.
-/

namespace Libfork.Found

variable {K W α : Type}

/-! ## Branches -/

/-- What a worker has of the branch at hand. -/
inductive Hold (α : Type)
  /-- It has given the branch up. -/
  | gone
  /-- It holds the branch, and nothing is on it. -/
  | bare
  /-- It holds the branch, and `x` is on top of it. -/
  | top (x : α)
deriving DecidableEq

/-- The branches by their names, the newest block first, the branch that each worker has at hand,
and the one that each task is on. -/
@[ext]
structure Cactus (K W α : Type) where
  branch : K → Option (List α)
  hand : W → K
  home : α → K

/-- A branch as it grows: tasks over their parents, each with any number of blocks. -/
inductive Grown (parent : α → Option α) : List α → Prop
  | nil : Grown parent []
  | first (x : α) : Grown parent [x]
  | onto {x p : α} {xs : List α} (hx : parent x = some p) (hnew : x ∉ p :: xs)
      (h : Grown parent (p :: xs)) : Grown parent (x :: p :: xs)
  | again {x : α} {xs : List α} (h : Grown parent (x :: xs)) : Grown parent (x :: x :: xs)

section grown

variable {parent : α → Option α} {x : α} {xs : List α}

/-- What is beneath the newest block has grown as well. -/
theorem Grown.tail (h : Grown parent (x :: xs)) : Grown parent xs := by
  cases h with
  | first => exact .nil
  | onto _ _ h => exact h
  | again h => exact h

/-- A task without children on the branch is on top of it. -/
theorem Grown.exists_cons (h : Grown parent xs) (hx : x ∈ xs)
    (hleaf : ∀ y ∈ xs, parent y ≠ some x) : ∃ ys, xs = x :: ys := by
  induction h with
  | nil => cases hx
  | first y => exact ⟨[], congrArg (fun z => [z]) (List.mem_singleton.mp hx).symm⟩
  | @onto y p ys hy _ _ ih =>
    rcases List.mem_cons.mp hx with rfl | hx
    · exact ⟨_, rfl⟩
    · obtain ⟨zs, heq⟩ := ih hx fun z hz => hleaf z (List.mem_cons_of_mem y hz)
      obtain ⟨rfl, -⟩ := List.cons.inj heq
      exact absurd hy (hleaf y List.mem_cons_self)
  | @again y ys _ ih =>
    rcases List.mem_cons.mp hx with rfl | hx
    · exact ⟨_, rfl⟩
    · obtain ⟨zs, heq⟩ := ih hx fun z hz => hleaf z (List.mem_cons_of_mem y hz)
      obtain ⟨rfl, -⟩ := List.cons.inj heq
      exact ⟨_, rfl⟩

end grown

namespace Cactus

variable (c : Cactus K W α)

/-- The branch at hand of `w` is as `w` knows it. -/
def Holds (w : W) : Hold α → Prop
  | .gone => True
  | .bare => c.branch (c.hand w) = some []
  | .top x => ∃ xs, c.branch (c.hand w) = some (x :: xs)

variable [DecidableEq K] [DecidableEq W] [DecidableEq α]

/-- A block of `x` on the branch at hand of `w`. -/
def push (w : W) (x : α) : Cactus K W α where
  branch := Function.update c.branch (c.hand w) ((c.branch (c.hand w)).map (x :: ·))
  hand := c.hand
  home := Function.update c.home x (c.hand w)

/-- The newest block of the branch at hand of `w` goes. -/
def pop (w : W) : Cactus K W α :=
  { c with branch := Function.update c.branch (c.hand w) ((c.branch (c.hand w)).map List.tail) }

/-- `w` lets its branch go for the one that `x` is on. -/
def take (w : W) (x : α) : Cactus K W α where
  branch := Function.update c.branch (c.hand w) none
  hand := Function.update c.hand w (c.home x)
  home := c.home

/-- `w` begins a new branch at `k`. -/
def renew (w : W) (k : K) : Cactus K W α where
  branch := Function.update c.branch k (some [])
  hand := Function.update c.hand w k
  home := c.home

/-- A branch that begins at `k` with `x`, for nobody yet. -/
def plant (x : α) (k : K) : Cactus K W α where
  branch := Function.update c.branch k (some [x])
  hand := c.hand
  home := Function.update c.home x k

end Cactus

/-! ## What is kept -/

section kept

variable [DecidableEq K] [DecidableEq α]

/-- The branches are in order: `size` tells how many blocks each task has, and `hold` what each
worker holds. -/
structure Kept (parent : α → Option α) (size : α → ℕ) (hold : W → Hold α) (c : Cactus K W α) :
    Prop where
  grown : ∀ k xs, c.branch k = some xs → Grown parent xs
  /-- A task has all its blocks on one branch. -/
  count : ∀ k xs x, c.branch k = some xs → xs.count x = if c.home x = k then size x else 0
  rooted : ∀ x, 0 < size x → ∃ xs, c.branch (c.home x) = some xs
  holds : ∀ w, c.Holds w (hold w)
  /-- A branch is held by one worker at most. -/
  apart : ∀ v w, hold v ≠ .gone → hold w ≠ .gone → c.hand v = c.hand w → v = w
  /-- An empty branch is held. -/
  bare : ∀ k, c.branch k = some [] → ∃ w, hold w = .bare ∧ c.hand w = k

namespace Kept

variable {parent : α → Option α} {size : α → ℕ} {hold : W → Hold α} {c : Cactus K W α}
  {v w : W} {x p : α} {k : K} {xs : List α} (h : Kept parent size hold c)

include h

/-! ### Reading it -/

/-- The blocks of a branch are those that live on it. -/
theorem mem_iff (hk : c.branch k = some xs) : x ∈ xs ↔ c.home x = k ∧ 0 < size x := by
  rw [← List.count_pos_iff, h.count k xs x hk]
  split_ifs with hx <;> simp [hx]

/-- A block lives on its branch. -/
theorem exists_branch (hx : 0 < size x) : ∃ xs, c.branch (c.home x) = some xs ∧ x ∈ xs := by
  obtain ⟨xs, hxs⟩ := h.rooted x hx
  exact ⟨xs, hxs, (h.mem_iff hxs).mpr ⟨rfl, hx⟩⟩

/-- The holder's branch has the block that is on top of it. -/
theorem home_of_top (hw : hold w = .top x) : c.home x = c.hand w ∧ 0 < size x := by
  have hholds := h.holds w
  rw [hw] at hholds
  obtain ⟨xs, hxs⟩ := hholds
  exact (h.mem_iff hxs).mp List.mem_cons_self

/-- Nothing lives on a bare branch. -/
theorem home_ne_of_bare (hw : hold w = .bare) (hx : 0 < size x) : c.home x ≠ c.hand w := by
  have hholds := h.holds w
  rw [hw] at hholds
  intro heq
  exact absurd ((h.mem_iff hholds).mpr ⟨heq, hx⟩) List.not_mem_nil

/-- There are no blocks of a task without any. -/
theorem notMem (hx : size x = 0) (hk : c.branch k = some xs) : x ∉ xs := by
  rw [h.mem_iff hk, hx]
  exact fun hlt => absurd hlt.2 (Nat.lt_irrefl 0)

/-- A task without children is on top of its branch. -/
theorem exists_top (hx : 0 < size x) (hleaf : ∀ y, parent y = some x → size y = 0) :
    ∃ xs, c.branch (c.home x) = some (x :: xs) := by
  obtain ⟨xs, hxs, hmem⟩ := h.exists_branch hx
  obtain ⟨ys, rfl⟩ := (h.grown _ xs hxs).exists_cons hmem fun y hy hparent =>
    absurd hy (h.notMem (hleaf y hparent) hxs)
  exact ⟨ys, hxs⟩

/-- A branch whose top no worker has is held by none. -/
theorem unheld (hk : c.branch k = some (x :: xs)) (hnone : ∀ w, hold w ≠ .top x)
    (hw : hold w ≠ .gone) : c.hand w ≠ k := by
  rintro rfl
  have hholds := h.holds w
  cases hold' : hold w with
  | gone => exact hw hold'
  | bare =>
    rw [hold'] at hholds
    cases hk.symm.trans hholds
  | top y =>
    rw [hold'] at hholds
    obtain ⟨ys, hys⟩ := hholds
    obtain ⟨rfl, -⟩ := List.cons.inj (Option.some.inj (hk.symm.trans hys))
    exact hnone w hold'

/-- The task on top has one block: it is at the bottom, or over its parent. -/
theorem last_cases (hw : hold w = .top x) (hx : size x = 1) :
    c.branch (c.hand w) = some [x] ∨
      ∃ p xs, parent x = some p ∧ c.branch (c.hand w) = some (x :: p :: xs) := by
  have hholds := h.holds w
  rw [hw] at hholds
  obtain ⟨xs, hxs⟩ := hholds
  have hcount := h.count _ _ x hxs
  rw [if_pos (h.home_of_top hw).1, hx] at hcount
  cases h.grown _ _ hxs with
  | first => exact Or.inl hxs
  | onto hp => exact Or.inr ⟨_, _, hp, hxs⟩
  | again => simp at hcount

/-- The task on top has more blocks: one of them is right under the newest. -/
theorem exists_again (hw : hold w = .top x) (hx : 1 < size x) :
    ∃ xs, c.branch (c.hand w) = some (x :: x :: xs) := by
  have hholds := h.holds w
  rw [hw] at hholds
  obtain ⟨xs, hxs⟩ := hholds
  have hcount := h.count _ _ x hxs
  rw [List.count_cons_self, if_pos (h.home_of_top hw).1] at hcount
  have hmem : x ∈ xs := List.count_pos_iff.mp (by omega)
  cases h.grown _ _ hxs with
  | first => cases hmem
  | onto _ hnew => exact absurd hmem hnew
  | again => exact ⟨_, hxs⟩

/-- What is held is there. -/
theorem hand_ne (hk : c.branch k = none) (hv : hold v ≠ .gone) : c.hand v ≠ k := by
  rintro rfl
  have hholds := h.holds v
  cases hold' : hold v with
  | gone => exact hv hold'
  | bare =>
    rw [hold'] at hholds
    cases hk.symm.trans hholds
  | top x =>
    rw [hold'] at hholds
    obtain ⟨xs, hxs⟩ := hholds
    cases hk.symm.trans hxs

/-- No task is on a branch that is not there. -/
theorem home_ne (hk : c.branch k = none) (hx : 0 < size x) : c.home x ≠ k := by
  rintro rfl
  obtain ⟨xs, hxs⟩ := h.rooted x hx
  cases hk.symm.trans hxs

/-- A branch appears where there was none, with at most one new task on it. -/
theorem appear {size' : α → ℕ} {home' : α → K} (hk : c.branch k = none)
    (hgrown : Grown parent xs)
    (hcount : ∀ y, xs.count y = if home' y = k then size' y else 0)
    (hother : ∀ y, (home' y = c.home y ∧ size' y = size y) ∨ (home' y = k ∧ size y = 0)) :
    (∀ j ys, Function.update c.branch k (some xs) j = some ys → Grown parent ys) ∧
    (∀ j ys y, Function.update c.branch k (some xs) j = some ys →
      ys.count y = if home' y = j then size' y else 0) ∧
    ∀ y, 0 < size' y → ∃ ys, Function.update c.branch k (some xs) (home' y) = some ys := by
  refine ⟨?_, ?_, ?_⟩
  · intro j ys hj
    by_cases hjk : j = k
    · rw [hjk, Function.update_self] at hj
      exact Option.some.inj hj ▸ hgrown
    · rw [Function.update_of_ne hjk] at hj
      exact h.grown j ys hj
  · intro j ys y hj
    by_cases hjk : j = k
    · subst hjk
      rw [Function.update_self] at hj
      exact Option.some.inj hj ▸ hcount y
    · rw [Function.update_of_ne hjk] at hj
      rw [h.count j ys y hj]
      rcases hother y with ⟨hhome, hsize⟩ | ⟨hhome, hzero⟩
      · rw [hhome, hsize]
      · rw [if_neg (hhome.trans_ne (Ne.symm hjk)), hzero, ite_self]
  · intro y hy
    rcases hother y with ⟨hhome, hsize⟩ | ⟨hhome, -⟩
    · rw [hsize] at hy
      obtain ⟨ys, hys⟩ := h.rooted y hy
      rw [hhome, Function.update_of_ne (h.home_ne hk hy)]
      exact ⟨ys, hys⟩
    · exact ⟨xs, by rw [hhome, Function.update_self]⟩

/-- What is held stays as it is where a branch appears. -/
theorem holds_appear (hk : c.branch k = none) {hand' : W → K} {home' : α → K}
    (hand : hold v ≠ .gone → hand' v = c.hand v) :
    Cactus.Holds ⟨Function.update c.branch k (some xs), hand', home'⟩ v (hold v) := by
  have hholds := h.holds v
  cases hv : hold v with
  | gone => trivial
  | bare =>
    have hgone : hold v ≠ .gone := by simp [hv]
    rw [hv] at hholds
    change Function.update c.branch k (some xs) (hand' v) = some []
    rw [hand hgone, Function.update_of_ne (h.hand_ne hk hgone)]
    exact hholds
  | top x =>
    have hgone : hold v ≠ .gone := by simp [hv]
    rw [hv] at hholds
    obtain ⟨ys, hys⟩ := hholds
    refine ⟨ys, ?_⟩
    change Function.update c.branch k (some xs) (hand' v) = some (x :: ys)
    rw [hand hgone, Function.update_of_ne (h.hand_ne hk hgone)]
    exact hys

/-! ### The rules -/

/-- A new task begins on a branch that is nobody's yet. -/
theorem plant (hx : size x = 0) (hk : c.branch k = none) :
    Kept parent (Function.update size x 1) hold (c.plant x k) := by
  have hcount : ∀ y, List.count y [x] =
      if Function.update c.home x k y = k then Function.update size x 1 y else 0 := by
    intro y
    by_cases hy : y = x
    · subst hy
      simp
    · rw [Function.update_of_ne hy, Function.update_of_ne hy,
        List.count_eq_zero.mpr fun hmem => hy (List.mem_singleton.mp hmem)]
      split_ifs with hhome
      · by_contra hne
        exact h.home_ne hk (Nat.pos_of_ne_zero (Ne.symm hne)) hhome
      · rfl
  obtain ⟨hgrown, hcount, hrooted⟩ := h.appear hk (.first x) hcount fun y => by
    by_cases hy : y = x
    · subst hy
      exact Or.inr ⟨Function.update_self .., hx⟩
    · rw [Function.update_of_ne hy, Function.update_of_ne hy]
      exact Or.inl ⟨rfl, rfl⟩
  refine ⟨hgrown, hcount, hrooted, fun v => h.holds_appear hk fun _ => rfl, h.apart, ?_⟩
  intro j hj
  by_cases hjk : j = k
  · have hself : (c.plant x k).branch j = some [x] := by
      rw [hjk]
      exact Function.update_self ..
    cases hself.symm.trans hj
  · exact h.bare j ((Function.update_of_ne hjk ..).symm.trans hj)

section moves

variable [DecidableEq W]

/-- A branch with something on it is given up. -/
theorem giveUp (hw : hold w ≠ .bare) : Kept parent size (Function.update hold w .gone) c := by
  have hother : ∀ v, Function.update hold w .gone v ≠ .gone → hold v ≠ .gone := by
    intro v hv
    by_cases hvw : v = w
    · rw [hvw, Function.update_self] at hv
      exact absurd rfl hv
    · rwa [Function.update_of_ne hvw] at hv
  refine ⟨h.grown, h.count, h.rooted, ?_, ?_, ?_⟩
  · intro v
    by_cases hvw : v = w
    · rw [hvw, Function.update_self]
      trivial
    · rw [Function.update_of_ne hvw]
      exact h.holds v
  · intro u v hu hv heq
    exact h.apart u v (hother u hu) (hother v hv) heq
  · intro k hk
    obtain ⟨v, hv, rfl⟩ := h.bare k hk
    have hvw : v ≠ w := by
      rintro rfl
      exact hw hv
    exact ⟨v, by rwa [Function.update_of_ne hvw], rfl⟩

/-- The branch that a worker holds changes. -/
theorem change {size' : α → ℕ} {home' : α → K} {l : Hold α} (hw : hold w ≠ .gone)
    (hl : Cactus.Holds ⟨Function.update c.branch (c.hand w) (some xs), c.hand, home'⟩ w l)
    (hbare : xs = [] → l = .bare) (hgrown : Grown parent xs)
    (hcount : ∀ y, xs.count y = if home' y = c.hand w then size' y else 0)
    (hother : ∀ y, (home' y = c.home y ∧ size' y = size y) ∨
      (home' y = c.hand w ∧ (c.home y = c.hand w ∨ size y = 0))) :
    Kept parent size' (Function.update hold w l)
      ⟨Function.update c.branch (c.hand w) (some xs), c.hand, home'⟩ := by
  have hheld : ∀ v, Function.update hold w l v ≠ .gone → hold v ≠ .gone := by
    intro v hv
    by_cases hvw : v = w
    · rwa [hvw]
    · rwa [Function.update_of_ne hvw] at hv
  refine ⟨?_, ?_, ?_, ?_, fun u v hu hv heq => h.apart u v (hheld u hu) (hheld v hv) heq, ?_⟩
  · intro k ys (hk : Function.update c.branch (c.hand w) (some xs) k = some ys)
    by_cases hkw : k = c.hand w
    · rw [hkw, Function.update_self] at hk
      exact Option.some.inj hk ▸ hgrown
    · rw [Function.update_of_ne hkw] at hk
      exact h.grown k ys hk
  · intro k ys y (hk : Function.update c.branch (c.hand w) (some xs) k = some ys)
    change ys.count y = if home' y = k then size' y else 0
    by_cases hkw : k = c.hand w
    · subst hkw
      rw [Function.update_self] at hk
      exact Option.some.inj hk ▸ hcount y
    · rw [Function.update_of_ne hkw] at hk
      rw [h.count k ys y hk]
      rcases hother y with ⟨hhome, hsize⟩ | ⟨hhome, hor⟩
      · rw [hhome, hsize]
      · rw [if_neg (hhome.trans_ne (Ne.symm hkw))]
        rcases hor with hhome' | hzero
        · exact if_neg (hhome'.trans_ne (Ne.symm hkw))
        · rw [hzero, ite_self]
  · intro y hy
    change ∃ ys, Function.update c.branch (c.hand w) (some xs) (home' y) = some ys
    by_cases hkw : home' y = c.hand w
    · exact ⟨xs, by rw [hkw]; exact Function.update_self ..⟩
    · rcases hother y with ⟨hhome, hsize⟩ | ⟨hhome, -⟩
      · rw [hsize] at hy
        obtain ⟨ys, hys⟩ := h.rooted y hy
        exact ⟨ys, by rw [Function.update_of_ne hkw, hhome, hys]⟩
      · exact absurd hhome hkw
  · intro v
    by_cases hvw : v = w
    · rw [hvw, Function.update_self]
      exact hl
    · rw [Function.update_of_ne hvw]
      cases hv : hold v with
      | gone => trivial
      | bare =>
        have hne : c.hand v ≠ c.hand w := fun heq => hvw (h.apart v w (by simp [hv]) hw heq)
        have hholds := h.holds v
        rw [hv] at hholds
        exact (Function.update_of_ne hne ..).trans hholds
      | top x =>
        have hne : c.hand v ≠ c.hand w := fun heq => hvw (h.apart v w (by simp [hv]) hw heq)
        have hholds := h.holds v
        rw [hv] at hholds
        obtain ⟨ys, hys⟩ := hholds
        exact ⟨ys, (Function.update_of_ne hne ..).trans hys⟩
  · intro k (hk : Function.update c.branch (c.hand w) (some xs) k = some [])
    by_cases hkw : k = c.hand w
    · rw [hkw, Function.update_self] at hk
      refine ⟨w, ?_, hkw.symm⟩
      rw [Function.update_self, hbare (Option.some.inj hk)]
    · rw [Function.update_of_ne hkw] at hk
      obtain ⟨v, hv, rfl⟩ := h.bare k hk
      have hvw : v ≠ w := by
        rintro rfl
        exact hkw rfl
      exact ⟨v, by rwa [Function.update_of_ne hvw], rfl⟩

/-- A new task begins, over its parent or on a bare branch. -/
theorem push (hw : hold w = .bare ∨ ∃ p, hold w = .top p ∧ parent x = some p) (hx : size x = 0) :
    Kept parent (Function.update size x 1) (Function.update hold w (.top x)) (c.push w x) := by
  have hheld : hold w ≠ .gone := by
    rcases hw with hw | ⟨p, hw, -⟩ <;> simp [hw]
  have hholds := h.holds w
  obtain ⟨xs, hxs, hgrown⟩ :
      ∃ xs, c.branch (c.hand w) = some xs ∧ Grown parent (x :: xs) := by
    rcases hw with hw | ⟨p, hw, hp⟩
    · rw [hw] at hholds
      exact ⟨[], hholds, .first x⟩
    · rw [hw] at hholds
      obtain ⟨xs, hxs⟩ := hholds
      exact ⟨_, hxs, .onto hp (h.notMem hx hxs) (h.grown _ _ hxs)⟩
  unfold Cactus.push
  rw [hxs, Option.map_some]
  refine h.change hheld ⟨xs, Function.update_self ..⟩ nofun hgrown ?_ ?_
  · intro y
    by_cases hy : y = x
    · subst hy
      rw [Function.update_self, Function.update_self, if_pos rfl, List.count_cons_self,
        List.count_eq_zero.mpr (h.notMem hx hxs)]
    · rw [Function.update_of_ne hy, Function.update_of_ne hy, List.count_cons_of_ne (Ne.symm hy)]
      exact h.count _ xs y hxs
  · intro y
    by_cases hy : y = x
    · subst hy
      exact Or.inr ⟨Function.update_self .., Or.inr hx⟩
    · rw [Function.update_of_ne hy, Function.update_of_ne hy]
      exact Or.inl ⟨rfl, rfl⟩

/-- The task on top is given one more block. -/
theorem again (hw : hold w = .top x) :
    Kept parent (Function.update size x (size x + 1)) hold (c.push w x) := by
  have hholds := h.holds w
  rw [hw] at hholds
  obtain ⟨xs, hxs⟩ := hholds
  have hhome := (h.home_of_top hw).1
  have hsame : Function.update c.home x (c.hand w) = c.home := by
    rw [← hhome, Function.update_eq_self]
  unfold Cactus.push
  rw [hxs, Option.map_some, hsame, ← Function.update_eq_self w hold]
  refine h.change (by simp [hw]) ?_ nofun (.again (h.grown _ _ hxs)) ?_ ?_
  · rw [hw]
    exact ⟨x :: xs, Function.update_self ..⟩
  · intro y
    by_cases hy : y = x
    · subst hy
      rw [Function.update_self, if_pos hhome, List.count_cons_self, h.count _ _ y hxs,
        if_pos hhome]
    · rw [Function.update_of_ne hy, List.count_cons_of_ne (Ne.symm hy)]
      exact h.count _ _ y hxs
  · intro y
    by_cases hy : y = x
    · exact Or.inr ⟨hy ▸ hhome, Or.inl (hy ▸ hhome)⟩
    · exact Or.inl ⟨rfl, Function.update_of_ne hy ..⟩

/-- The branch at hand loses the newest of the blocks of the task `x` on top. -/
theorem dropTop {l : Hold α} (hw : hold w = .top x)
    (hxs : c.branch (c.hand w) = some (x :: xs)) (hl : (c.pop w).Holds w l)
    (hbare : xs = [] → l = .bare) :
    Kept parent (Function.update size x (size x - 1)) (Function.update hold w l) (c.pop w) := by
  have hhome := (h.home_of_top hw).1
  unfold Cactus.pop at hl ⊢
  rw [hxs, Option.map_some, List.tail_cons] at hl ⊢
  refine h.change (by simp [hw]) hl hbare (h.grown _ _ hxs).tail ?_ ?_
  · intro y
    have hcount := h.count _ _ y hxs
    by_cases hy : y = x
    · subst hy
      rw [List.count_cons_self, if_pos hhome] at hcount
      rw [Function.update_self, if_pos hhome, ← hcount, Nat.add_sub_cancel]
    · rw [List.count_cons_of_ne (Ne.symm hy)] at hcount
      rw [Function.update_of_ne hy, hcount]
  · intro y
    by_cases hy : y = x
    · exact Or.inr ⟨hy ▸ hhome, Or.inl (hy ▸ hhome)⟩
    · exact Or.inl ⟨rfl, Function.update_of_ne hy ..⟩

/-- The task on top gives back a block, and has more. -/
theorem shrink (hw : hold w = .top x) (hx : 1 < size x) :
    Kept parent (Function.update size x (size x - 1)) hold (c.pop w) := by
  obtain ⟨xs, hxs⟩ := h.exists_again hw hx
  rw [← Function.update_eq_self w hold]
  refine h.dropTop hw hxs ?_ nofun
  rw [hw]
  exact ⟨xs, by simp [Cactus.pop, hxs]⟩

/-- The task on top ends. What is under it is its parent, if that is on the same branch. -/
theorem finish (hw : hold w = .top x) (hx : size x = 1) (hp : parent x = some p) (hne : p ≠ x)
    (hsize : 0 < size p) :
    Kept parent (Function.update size x 0)
      (Function.update hold w (if c.home x = c.home p then .top p else .bare)) (c.pop w) := by
  have hhome := (h.home_of_top hw).1
  have hzero : size x - 1 = 0 := by rw [hx]
  rw [← hzero]
  rcases h.last_cases hw hx with hxs | ⟨q, xs, hq, hxs⟩
  · have hoff : c.home x ≠ c.home p := by
      intro heq
      have hmem := (h.mem_iff hxs).mpr ⟨heq.symm.trans hhome, hsize⟩
      exact hne (List.mem_singleton.mp hmem)
    rw [if_neg hoff]
    exact h.dropTop hw hxs (by simp [Cactus.Holds, Cactus.pop, hxs]) fun _ => rfl
  · obtain rfl : p = q := Option.some.inj (hp.symm.trans hq)
    have hon := ((h.mem_iff hxs).mp (List.mem_cons_of_mem x List.mem_cons_self)).1
    rw [if_pos (hhome.trans hon.symm)]
    exact h.dropTop hw hxs ⟨xs, by simp [Cactus.pop, hxs]⟩ nofun

/-- The task on top ends, and has no parent. -/
theorem finishRoot (hw : hold w = .top x) (hx : size x = 1) (hp : parent x = none) :
    Kept parent (Function.update size x 0) (Function.update hold w .bare) (c.pop w) := by
  have hzero : size x - 1 = 0 := by rw [hx]
  rw [← hzero]
  rcases h.last_cases hw hx with hxs | ⟨q, xs, hq, -⟩
  · exact h.dropTop hw hxs (by simp [Cactus.Holds, Cactus.pop, hxs]) fun _ => rfl
  · cases hp.symm.trans hq

/-- A worker whose branch is bare goes over to one that nobody holds, for the task on top. -/
theorem take (hw : hold w = .bare) (hx : 0 < size x) (hnone : ∀ v, hold v ≠ .top x)
    (hleaf : ∀ y, parent y = some x → size y = 0) :
    Kept parent size (Function.update hold w (.top x)) (c.take w x) := by
  obtain ⟨xs, hxs⟩ := h.exists_top hx hleaf
  have hunheld : ∀ v, hold v ≠ .gone → c.hand v ≠ c.home x := fun v => h.unheld hxs hnone
  have hgone : hold w ≠ .gone := by simp [hw]
  have hbranch : ∀ k ys, (c.take w x).branch k = some ys →
      k ≠ c.hand w ∧ c.branch k = some ys := by
    intro k ys hk
    change Function.update c.branch (c.hand w) none k = some ys at hk
    by_cases hkw : k = c.hand w
    · rw [hkw, Function.update_self] at hk
      cases hk
    · exact ⟨hkw, (Function.update_of_ne hkw ..).symm.trans hk⟩
  have hkeep : ∀ k, k ≠ c.hand w → (c.take w x).branch k = c.branch k :=
    fun k hk => Function.update_of_ne hk ..
  have hself : (c.take w x).hand w = c.home x := Function.update_self ..
  have hother : ∀ v, v ≠ w → (c.take w x).hand v = c.hand v :=
    fun v hv => Function.update_of_ne hv ..
  refine ⟨?_, ?_, ?_, ?_, ?_, ?_⟩
  · intro k ys hk
    exact h.grown k ys (hbranch k ys hk).2
  · intro k ys y hk
    exact h.count k ys y (hbranch k ys hk).2
  · intro y hy
    obtain ⟨ys, hys⟩ := h.rooted y hy
    exact ⟨ys, (hkeep _ (h.home_ne_of_bare hw hy)).trans hys⟩
  · intro v
    by_cases hvw : v = w
    · rw [hvw, Function.update_self]
      refine ⟨xs, ?_⟩
      rw [hself, hkeep _ (h.home_ne_of_bare hw hx), hxs]
    · rw [Function.update_of_ne hvw]
      cases hv : hold v with
      | gone => trivial
      | bare =>
        have hne : c.hand v ≠ c.hand w := fun heq => hvw (h.apart v w (by simp [hv]) hgone heq)
        have hholds := h.holds v
        rw [hv] at hholds
        change (c.take w x).branch ((c.take w x).hand v) = some []
        rw [hother v hvw, hkeep _ hne]
        exact hholds
      | top y =>
        have hne : c.hand v ≠ c.hand w := fun heq => hvw (h.apart v w (by simp [hv]) hgone heq)
        have hholds := h.holds v
        rw [hv] at hholds
        obtain ⟨ys, hys⟩ := hholds
        refine ⟨ys, ?_⟩
        rw [hother v hvw, hkeep _ hne]
        exact hys
  · intro u v hu hv heq
    by_cases huw : u = w
    · by_cases hvw : v = w
      · exact huw.trans hvw.symm
      · rw [Function.update_of_ne hvw] at hv
        rw [huw, hself, hother v hvw] at heq
        exact absurd heq.symm (hunheld v hv)
    · rw [Function.update_of_ne huw] at hu
      by_cases hvw : v = w
      · rw [hvw, hself, hother u huw] at heq
        exact absurd heq (hunheld u hu)
      · rw [Function.update_of_ne hvw] at hv
        rw [hother u huw, hother v hvw] at heq
        exact h.apart u v hu hv heq
  · intro k hk
    obtain ⟨hkw, hk⟩ := hbranch k [] hk
    obtain ⟨v, hv, rfl⟩ := h.bare k hk
    have hvw : v ≠ w := by
      rintro rfl
      exact hkw rfl
    exact ⟨v, by rwa [Function.update_of_ne hvw], hother v hvw⟩

/-- A worker that has given its branch up begins a new one. -/
theorem renew (hw : hold w = .gone) (hk : c.branch k = none) :
    Kept parent size (Function.update hold w .bare) (c.renew w k) := by
  have hself : (c.renew w k).hand w = k := Function.update_self ..
  have hother : ∀ v, v ≠ w → (c.renew w k).hand v = c.hand v :=
    fun v hv => Function.update_of_ne hv ..
  have hcount : ∀ y, List.count y [] = if c.home y = k then size y else 0 := by
    intro y
    split_ifs with hy
    · by_contra hne
      exact h.home_ne hk (Nat.pos_of_ne_zero (Ne.symm hne)) hy
    · rfl
  obtain ⟨hgrown, hcount, hrooted⟩ := h.appear hk .nil hcount fun y => Or.inl ⟨rfl, rfl⟩
  refine ⟨hgrown, hcount, hrooted, ?_, ?_, ?_⟩
  · intro v
    by_cases hvw : v = w
    · rw [hvw, Function.update_self]
      change Function.update c.branch k (some []) ((c.renew w k).hand w) = some []
      rw [hself, Function.update_self]
    · rw [Function.update_of_ne hvw]
      exact h.holds_appear hk fun _ => hother v hvw
  · intro u v hu hv heq
    by_cases huw : u = w
    · by_cases hvw : v = w
      · exact huw.trans hvw.symm
      · rw [Function.update_of_ne hvw] at hv
        rw [huw, hself, hother v hvw] at heq
        exact absurd heq.symm (h.hand_ne hk hv)
    · rw [Function.update_of_ne huw] at hu
      by_cases hvw : v = w
      · rw [hvw, hself, hother u huw] at heq
        exact absurd heq (h.hand_ne hk hu)
      · rw [Function.update_of_ne hvw] at hv
        rw [hother u huw, hother v hvw] at heq
        exact h.apart u v hu hv heq
  · intro j hj
    by_cases hjk : j = k
    · exact ⟨w, Function.update_self .., hself.trans hjk.symm⟩
    · obtain ⟨v, hv, rfl⟩ := h.bare j ((Function.update_of_ne hjk ..).symm.trans hj)
      have hvw : v ≠ w := by
        rintro rfl
        cases hw.symm.trans hv
      exact ⟨v, by rwa [Function.update_of_ne hvw], hother v hvw⟩

end moves

end Kept

end kept

end Libfork.Found
