import Libfork.Found.Spread

/-!
# How much is left to do

* `Prog.cost p m` — how many steps the sequential run of `p` takes, a return counting as one and a
  join as one.
* **`Prog.Safe.cost_step`** — in a safe program every step of every interleaving lowers it.
* `Spread.rest` — how much the tasks of a program have left to do, and **`Spread.Acts.rest`**: each
  action of any of them lowers it.

Nothing here is about a particular program.
-/

namespace Libfork.Found

namespace Prog

variable {A V R X Y : Type} [DecidableEq A]

/-- The steps of the sequential run. -/
def cost : {R : Type} → Prog A V R → (A → V) → ℕ
  | _, ret _, _ => 1
  | _, fail, _ => 1
  | _, read a k, m => cost (k (m a)) m + 1
  | _, write a v k, m => cost k (Function.update m a v) + 1
  | _, par p q k, m =>
      cost p m + ((run p m).elim 0 fun x =>
        cost q x.2 + (run q x.2).elim 0 fun y => cost (k x.1 y.1) y.2) + 1

variable {rd wr : Set A} {Q : R → Prop} {p p' : Prog A V R} {m m' : A → V} {a : A} {v : V}

/-- Two branches cost what both cost, what comes after them, and the fork. -/
theorem cost_par {p : Prog A V X} {q : Prog A V Y} {k : X → Y → Prog A V R} {x : X} {y : Y}
    {m₁ m₂ : A → V} (hp : run p m = some (x, m₁)) (hq : run q m₁ = some (y, m₂)) :
    cost (par p q k) m = cost p m + (cost q m₁ + cost (k x y) m₂) + 1 := by
  simp [cost, hp, hq]

/-- A write outside the footprint changes nothing. -/
theorem Safe.cost_update (h : Safe rd wr Q p) (ha : a ∉ rd ∪ wr) (m : A → V) :
    cost p (Function.update m a v) = cost p m := by
  induction p generalizing m rd wr with
  | ret r => rfl
  | fail => rfl
  | read b k ih =>
    have hne : b ≠ a := fun he => ha (Or.inl (he ▸ h.1))
    simp only [cost, Function.update_of_ne hne]
    rw [ih (m b) (h.2 (m b)) ha m]
  | write b w k ih =>
    have hne : a ≠ b := fun he => ha (Or.inr (he ▸ h.1))
    simp only [cost, Function.update_comm hne]
    rw [ih h.2 ha]
  | par p q k ihp ihq ih =>
    obtain ⟨rd₁, wr₁, rd₂, wr₂, Q₁, Q₂, ⟨hrd, hwr⟩, -, -, hp, hq, hk⟩ := h
    have ha₁ : a ∉ rd₁ ∪ wr₁ := fun hmem =>
      ha (hmem.imp (fun hm => hrd (Or.inl hm)) fun hm => hwr (Or.inl hm))
    have ha₂ : a ∉ rd₂ ∪ wr₂ := fun hmem =>
      ha (hmem.imp (fun hm => hrd (Or.inr hm)) fun hm => hwr (Or.inr hm))
    obtain ⟨x, m₁, hx, hQ₁, -⟩ := hp.run_some m
    obtain ⟨y, m₂, hy, hQ₂, -⟩ := hq.run_some m₁
    have hx' : run p (Function.update m a v) = some (x, Function.update m₁ a v) := by
      rw [hp.run_update ha₁, hx]
      rfl
    have hy' : run q (Function.update m₁ a v) = some (y, Function.update m₂ a v) := by
      rw [hq.run_update ha₂, hy]
      rfl
    rw [cost_par hx' hy', cost_par hx hy, ihp hp ha₁, ihq hq ha₂, ih x y (hk x y hQ₁ hQ₂) ha]

/-- **Every step of every interleaving lowers the cost.** -/
theorem Safe.cost_step (h : Safe rd wr Q p) (hs : Step p m p' m') :
    cost p' m' + 1 ≤ cost p m := by
  induction p generalizing m m' rd wr with
  | ret r => cases hs
  | fail => cases hs
  | read a k _ =>
    cases hs
    exact Nat.le_refl _
  | write a v k _ =>
    cases hs
    exact Nat.le_refl _
  | par p q k ihp ihq _ =>
    obtain ⟨rd₁, wr₁, rd₂, wr₂, Q₁, Q₂, hsub, h₁, h₂, hp, hq, hk⟩ := h
    obtain ⟨x, m₁, hx, -, hframe⟩ := hp.run_some m
    obtain ⟨y, m₂, hy, -, -⟩ := hq.run_some m₁
    rw [cost_par hx hy]
    cases hs with
    | @left _ _ _ _ p' _ _ _ _ hs =>
      have hx' : run p' m' = some (x, m₁) := (hp.step hs).2.trans hx
      have hlt := ihp hp hs
      rw [cost_par hx' hy]
      omega
    | @right _ _ _ _ _ q' _ _ _ hs =>
      -- the step of the right branch, after the run of the left one
      obtain ⟨m₁', hs', hm⟩ := hs.local hq fun a ha =>
        hframe a fun ha' => h₁ a ha' (Or.inl ha)
      have hp' : run p m' = some (x, m₁') ∧ cost p m' = cost p m := by
        rcases hm with ⟨rfl, rfl⟩ | ⟨a, ha, v, rfl, rfl⟩
        · exact ⟨hx, rfl⟩
        · refine ⟨?_, hp.cost_update (h₂ a ha) m⟩
          rw [hp.run_update (h₂ a ha), hx]
          rfl
      have hy' : run q' m₁' = some (y, m₂) := (hq.step hs').2.trans hy
      have hlt := ihq hq hs'
      rw [cost_par hp'.1 hy', hp'.2]
      omega
    | join =>
      cases hx
      cases hy
      simp only [cost]
      omega

end Prog

namespace Spread

variable {A V R : Type} [DecidableEq A]

/-- The actions of the tasks since their last joins. -/
def done : {R : Type} → Spread A V R → ℕ
  | _, here _ _ => 0
  | _, half _ l _ _ => l.done + 1
  | _, both _ l r _ joined => l.done + r.done + joined.toNat + 2
  | _, finished _ _ => 1

/-- What the tasks have left to do. A step of the program counts for the actions up to it. -/
def rest (t : Spread A V R) (m : A → V) : ℕ := 6 * t.erase.cost m - t.done

variable {f : ℕ} {μ : Deed} {t t' : Spread A V R} {m m' : A → V} {rd wr : Set A} {Q : R → Prop}

/-- What has been done is bounded by the cost. -/
theorem done_le (h : t.erase.Safe rd wr Q) (m : A → V) : t.done ≤ 6 * t.erase.cost m := by
  induction t generalizing rd wr m with
  | here f p => exact Nat.zero_le _
  | half f l q k ih =>
    obtain ⟨_, _, _, _, _, _, -, -, -, hl, hq, -⟩ := h
    obtain ⟨x, m₁, hx, -, -⟩ := hl.run_some m
    obtain ⟨y, m₂, hy, -, -⟩ := hq.run_some m₁
    have hle := ih hl m
    simp only [erase, done, Prog.cost_par hx hy]
    omega
  | both f l r k joined ihl ihr =>
    obtain ⟨_, _, _, _, _, _, -, -, -, hl, hr, -⟩ := h
    obtain ⟨x, m₁, hx, -, -⟩ := hl.run_some m
    obtain ⟨y, m₂, hy, -, -⟩ := hr.run_some m₁
    have hlel := ihl hl m
    have hler := ihr hr m₁
    have hjoined : joined.toNat ≤ 1 := Bool.toNat_le joined
    simp only [erase, done, Prog.cost_par hx hy]
    omega
  | finished f x => simp [erase, done, Prog.cost]

/-- What is between two steps of the program is counted. -/
theorem Acts.done_succ (h : Acts f μ t m t' m') (hμ : μ.advances = false) :
    t'.done = t.done + 1 := by
  induction h with
  | read => cases hμ
  | write => cases hμ
  | left => rfl
  | right => simp [done]
  | join => simp [done]
  | collect => cases hμ
  | ret => rfl
  | inHalf h ih => simp only [done, ih hμ]
  | inLeft h ih =>
    simp only [done, ih hμ]
    omega
  | inRight h ih =>
    simp only [done, ih hμ]
    omega

/-- A task does five things at most up to the end of a join. -/
theorem Acts.done_le (h : Acts f μ t m t' m') (ho : t.Orderly f μ) (hμ : μ.advances = true) :
    t.done ≤ t'.done + 5 := by
  induction h with
  | read => exact Nat.le_add_right _ _
  | write => exact Nat.le_add_right _ _
  | left => cases hμ
  | right => cases hμ
  | join => cases hμ
  | @collect R X Y l r k m =>
    have hover := ho.joined rfl
    simp only [Invoked, stage, Option.or_eq_none_iff] at hover
    obtain ⟨fl, x, rfl⟩ := exists_finished (hover l.task (by simp)).2.1
    obtain ⟨fr, y, rfl⟩ := exists_finished (hover r.task (by simp)).2.2
    exact Nat.le_refl 5
  | ret => cases hμ
  | inHalf h ih =>
    have hle := ih ho.half hμ
    simp only [done]
    omega
  | inLeft h ih =>
    have hle := ih ho.left hμ
    simp only [done]
    omega
  | inRight h ih =>
    have hle := ih ho.right hμ
    simp only [done]
    omega

/-- **Every action of a task leaves less to do.** -/
theorem Acts.rest (h : Acts f μ t m t' m') (ho : t.Orderly f μ) (hsafe : t.erase.Safe rd wr Q) :
    t'.rest m' + 1 ≤ t.rest m := by
  unfold Spread.rest
  cases hμ : μ.advances with
  | true =>
    have hcost := hsafe.cost_step (h.step ho hμ)
    have hle := Spread.done_le (hsafe.step (h.step ho hμ)).1 m'
    have hdone := h.done_le ho hμ
    omega
  | false =>
    obtain ⟨heq, rfl⟩ := h.idle hμ
    have hdone := h.done_succ hμ
    have hle := Spread.done_le (heq ▸ hsafe) m'
    rw [heq] at hle ⊢
    omega

end Spread

end Libfork.Found
