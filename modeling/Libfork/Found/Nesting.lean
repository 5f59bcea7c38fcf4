import Libfork.Found.ParallelFor
import Libfork.Found.Spread

/-!
# How deep a program nests

* `Prog.Nests p n` — at most `n` branches of `p` lie inside one another, whatever it reads.
* `Spread.Nests t n` — the same of a program whose branches are tasks; `Acts.nests`: it stays so.
* **`Spread.Nests.depth_le`** — no task is more than `n` invocations away from the one at the top.
* `Routine.divide_nests`, `Body.sweep_nests` — divide and conquer nests as often as the interval can
  be halved.

Nothing here is about a particular program.
-/

namespace Libfork.Found

variable {A V E R S : Type}

/-- At most `n` branches lie inside one another, whatever is read. -/
def Prog.Nests : {R : Type} → Prog A V R → ℕ → Prop
  | _, .ret _, _ => True
  | _, .fail, _ => True
  | _, .read _ k, n => ∀ v, Nests (k v) n
  | _, .write _ _ k, n => Nests k n
  | _, .par p q k, n => ∃ n', n = n' + 1 ∧ Nests p n' ∧ Nests q n' ∧ ∀ x y, Nests (k x y) n

/-- Programs in sequence nest as deep as either. -/
theorem Prog.nests_bind {p : Prog A V R} {f : R → Prog A V S} {n : ℕ} (hp : p.Nests n)
    (hf : ∀ r, (f r).Nests n) : (p.bind f).Nests n := by
  induction p with
  | ret r => exact hf r
  | fail => trivial
  | read a k ih => exact fun v => ih v (hp v) hf
  | write a v k ih => exact ih hp hf
  | par p q k _ _ ih =>
    obtain ⟨n', rfl, hl, hr, hk⟩ := hp
    exact ⟨n', rfl, hl, hr, fun x y => ih x y (hk x y) hf⟩

namespace Spread

/-- The same, for the branches that are tasks already, and for those that are not. -/
def Nests : {R : Type} → Spread A V R → ℕ → Prop
  | _, here _ p, n => p.Nests n
  | _, half _ l q k, n => ∃ n', n = n' + 1 ∧ l.Nests n' ∧ q.Nests n' ∧ ∀ x y, (k x y).Nests n
  | _, both _ l r k _, n => ∃ n', n = n' + 1 ∧ l.Nests n' ∧ r.Nests n' ∧ ∀ x y, (k x y).Nests n
  | _, finished _ _, _ => True

variable {t t' : Spread A V R} {m m' : A → V} {n g f : ℕ} {μ : Deed}

/-- What follows a join nests as the whole does. -/
theorem nests_next {X Y : Type} {l : Spread A V X} {r : Spread A V Y} {k : X → Y → Prog A V R}
    (hk : ∀ x y, (k x y).Nests n) : (next l r k).Nests n := by
  unfold next
  split
  · exact hk _ _
  · trivial

/-- An action does not make the nesting deeper. -/
theorem Acts.nests [DecidableEq A] (h : Acts f μ t m t' m') (ht : t.Nests n) : t'.Nests n := by
  induction h generalizing n with
  | read => exact ht _
  | write => exact ht
  | left => exact ht
  | right => exact ht
  | join => exact ht
  | collect =>
    obtain ⟨n', rfl, -, -, hk⟩ := ht
    exact nests_next hk
  | ret => trivial
  | inHalf h ih =>
    obtain ⟨n', rfl, hl, hq, hk⟩ := ht
    exact ⟨n', rfl, ih hl, hq, hk⟩
  | inLeft h ih =>
    obtain ⟨n', rfl, hl, hr, hk⟩ := ht
    exact ⟨n', rfl, ih hl, hr, hk⟩
  | inRight h ih =>
    obtain ⟨n', rfl, hl, hr, hk⟩ := ht
    exact ⟨n', rfl, hl, ih hr, hk⟩

/-- **How far down a task is.** -/
theorem Nests.depth_le {depth : ℕ → ℕ} (ht : t.Nests n)
    (hdepth : ∀ g c, t.Invoked g c → depth c ≤ depth g + 1) (hg : t.stage g ≠ none) :
    depth g ≤ depth t.task + n := by
  induction t generalizing n g with
  | here f p =>
    obtain rfl : g = f := by
      by_contra hne
      simp [stage, hne] at hg
    exact Nat.le_add_right ..
  | half f l q k ih =>
    obtain ⟨n', rfl, hl, -⟩ := ht
    by_cases hgf : g = f
    · exact hgf ▸ Nat.le_add_right ..
    · have htop := hdepth f l.task (Or.inl ⟨rfl, rfl⟩)
      have hle := ih hl (fun g c hc => hdepth g c (Or.inr hc)) (by simpa [stage, hgf] using hg)
      simp only [task]
      omega
  | both f l r k joined ihl ihr =>
    obtain ⟨n', rfl, hl, hr, -⟩ := ht
    by_cases hgf : g = f
    · exact hgf ▸ Nat.le_add_right ..
    · simp only [task]
      by_cases hgl : l.stage g = none
      · have htop := hdepth f r.task (Or.inl ⟨rfl, Or.inr rfl⟩)
        have hle := ihr hr (fun g c hc => hdepth g c (Or.inr (Or.inr hc)))
          (by simpa [stage, hgf, hgl] using hg)
        omega
      · have htop := hdepth f l.task (Or.inl ⟨rfl, Or.inl rfl⟩)
        have hle := ihl hl (fun g c hc => hdepth g c (Or.inr (Or.inl hc))) hgl
        omega
  | finished f x => exact absurd rfl hg

end Spread

/-! ## Divide and conquer -/

namespace Routine

variable {t : Routine A V E R} {n : ℕ}

/-- So do routines in sequence. -/
theorem nests_bind {f : R → Routine A V E S} (ht : t.prog.Nests n) (hf : ∀ r, (f r).prog.Nests n) :
    (t >>= f).prog.Nests n := by
  refine Prog.nests_bind ht fun o => ?_
  unfold resume
  cases o.value with
  | none => trivial
  | some r => exact Prog.nests_bind (hf r) fun _ => trivial

/-- An interval of `2 ^ k` leaves is halved `k` times. -/
theorem divide_nests {c lo hi : ℤ} {note : ℤ → ℤ → List E} {leaf : ℤ → ℤ → Routine A V E R}
    {join : R → R → R} (hleaf : ∀ lo hi n, (leaf lo hi).prog.Nests n) (fuel : ℕ)
    (hlen : hi - lo ≤ c * 2 ^ n) : (divide c note leaf join fuel lo hi).prog.Nests n := by
  induction fuel generalizing lo hi n with
  | zero => trivial
  | succ fuel ih =>
    unfold divide
    refine nests_bind trivial fun _ => ?_
    split_ifs with hsmall
    · exact hleaf lo hi n
    · cases n with
      | zero =>
        rw [pow_zero, mul_one] at hlen
        exact absurd hlen hsmall
      | succ n =>
        rw [pow_succ, ← mul_assoc] at hlen
        refine nests_bind ⟨n, rfl, ih ?_, ih ?_, fun _ _ => trivial⟩ fun _ => trivial <;> omega

end Routine

namespace Body

variable {B : Body A V E} {n : ℕ}

/-- The loop nests as deep as what it runs. -/
theorem loop_nests (hcode : ∀ i n, (B.code i).prog.Nests n) (k : ℕ) (i : ℤ) :
    (B.loop k i).prog.Nests n := by
  induction k generalizing i with
  | zero => trivial
  | succ k ih => exact Routine.nests_bind (hcode i n) fun _ => ih (i + 1)

/-- A parallel loop. -/
theorem sweep_nests {c lo hi : ℤ} (hcode : ∀ i n, (B.code i).prog.Nests n) (fuel : ℕ)
    (hlen : hi - lo ≤ c * 2 ^ n) : (B.sweep c fuel lo hi).prog.Nests n :=
  Routine.divide_nests (fun _ _ _ => loop_nests hcode _ _) fuel hlen

end Body

end Libfork.Found
