import Libfork.Found.Period
import Libfork.Found.Pratt
import Libfork.Random.Jumps
import Mathlib.Tactic.NormNum.Prime

/-!
# The period of the generator

From every state but the all-zero one the generator runs through `2 ^ 256 - 1` states, which is
all there are, before it is back.

* `levels` — the factors of `2 ^ 256 - 1 = ∏ (2 ^ 2 ^ i + 1)`, level by level;
  **`separated_step`** — the kernel finds that the step has no smaller order.
* **`period_exact`** — the states of one generator, and those of a generator and its jumps, are as
  far apart as `random.hpp` says, with one exception; **`streams_apart`** — the generators of a pool
  and its workers have no state in common.

Source: `random.hpp`, `xoshiro::jump`, `xoshiro::long_jump`; `busy_pool.hpp`, `lazy_pool.hpp`, the
constructors.
-/

namespace Libfork.Random

open Found

/-! ### Telling polynomials apart -/

/-- Horner's scheme for the polynomial `p` at the state `(0, 0, 1, 0)`, from `(s0, s1, s2, s3)`:
whether the result is zero. -/
def kills (p : ℕ) : ℕ → ℕ → ℕ → ℕ → ℕ → Bool
  | 0, s0, s1, s2, s3 => s0 == 0 && s1 == 0 && s2 == 0 && s3 == 0
  | n + 1, s0, s1, s2, s3 =>
    eager (s3 ^^^ s1) fun a =>
    eager (s0 ^^^ a) fun s0' =>
    eager (s1 ^^^ (s2 ^^^ s0)) fun s1' =>
    eager (s2 ^^^ s0 ^^^ s1 <<< 17 % 2 ^ 64 ^^^ p / 2 ^ n % 2) fun s2' =>
    eager (a <<< 45 % 2 ^ 64 ||| a >>> 19) fun s3' => kills p n s0' s1' s2' s3'

/-- The test is Horner's scheme at the state whose third word is 1. -/
theorem kills_iff (p n : ℕ) (x : Xoshiro) :
    kills p n x.s0.toNat x.s1.toNat x.s2.toNat x.s3.toNat = true ↔
      horner Xoshiro.next p (third 1) n x = 0 := by
  induction n generalizing x with
  | zero =>
    rw [horner, Xoshiro.zero_eq, Xoshiro.ext_iff]
    simp [kills, Xoshiro.allZero, ← BitVec.toNat_inj, and_assoc]
  | succ n ih =>
    have hbit : p / 2 ^ n % 2 = (1#64).toNat * (p.testBit n).toNat := by
      rw [Nat.testBit_eq_decide_div_mod_eq]
      rcases Nat.mod_two_eq_zero_or_one (p / 2 ^ n) with h | h <;> simp [h]
    obtain ⟨h0, h1, h2, h3⟩ := horner_words 1 (p.testBit n) x
    rw [horner, ← ih, h0, h1, h2, h3]
    simp only [kills, eager_eq, hbit]
    rfl

/-- Whether two polynomials have different values at the step, as seen at one state. -/
def differ (a b : ℕ) : Bool :=
  eager (a ^^^ b) fun p => decide (p < 2 ^ 257) && !kills p 257 0 0 0 0

/-- Two polynomials that differ there have different values at the step. -/
theorem ne_of_differ (a b : ℕ) (h : differ a b = true) :
    evalBits Xoshiro.step a ≠ evalBits Xoshiro.step b := by
  rw [differ, eager_eq, Bool.and_eq_true, decide_eq_true_eq, Bool.not_eq_true'] at h
  obtain ⟨hlt, hkills⟩ := h
  intro heq
  have hzero : evalBits Xoshiro.step (a ^^^ b) = 0 := by
    rw [evalBits_xor Xoshiro.end_add_self, heq, Xoshiro.end_add_self]
  have hhorner := horner_eq Xoshiro.step (a ^^^ b) (third 1) 257 0
  rw [map_zero, zero_add, Nat.mod_eq_of_lt hlt, hzero] at hhorner
  have htrue := (kills_iff (a ^^^ b) 257 0).mpr hhorner
  exact Bool.false_ne_true (hkills.symm.trans htrue)

/-! ### The order of the step -/

/-- For each factor `2 ^ s + 1` of `2 ^ 256 - 1`, what is left of it without one of its prime
factors. -/
def levels : List (ℕ × List ℕ) :=
  [(128, [5704689200685129054721, 59649589127497217]), (64, [67280421310721, 274177]),
    (32, [6700417, 641]), (16, [1]), (8, [1]), (4, [1]), (2, [1]), (1, [1])]

/-- The prime factors of `2 ^ 256 - 1`. -/
def factors : List ℕ :=
  [5704689200685129054721, 59649589127497217, 67280421310721, 6700417, 274177, 65537, 641, 257, 17,
    5, 3]

/-- The kernel runs the test at all levels. -/
theorem separates_levels :
    eager (2 ^ 256) (fun top => separates differ minimal top 256 levels 2) = true := by
  decide +kernel

/-- The powers of the step that belong to the factors are separated. -/
theorem separated_step : Separated Xoshiro.step 1 levels := by
  have hlevels := separates_levels
  rw [eager_eq] at hlevels
  refine separated_of_separates Xoshiro.end_add_self evalBits_minimal minimal_lt (by decide)
    ne_of_differ (by decide) ⟨by decide, ?_⟩ hlevels
  rw [evalBits_two, pow_one]

/-- The factors are prime. -/
theorem prime_factors : ∀ q ∈ factors, q.Prime := by
  have h₁ : Nat.Prime 18533742247 := by
    have h : Nat.Prime 1896229 := prime_of_lucas 2 [2, 3, 52673] (by norm_num) (by decide +kernel)
    exact prime_of_lucas 6 [1896229, 2, 3, 181] (List.forall_mem_cons.mpr ⟨h, by norm_num⟩)
      (by decide +kernel)
  have h₂ : Nat.Prime 116503103764643 :=
    prime_of_lucas 2 [18533742247, 2, 7, 449] (List.forall_mem_cons.mpr ⟨h₁, by norm_num⟩)
      (by decide +kernel)
  have h₃ : Nat.Prime 55515497 := by
    have h : Nat.Prime 6939437 :=
      prime_of_lucas 2 [2, 7, 139, 1783] (by norm_num) (by decide +kernel)
    exact prime_of_lucas 3 [6939437, 2] (List.forall_mem_cons.mpr ⟨h, by norm_num⟩)
      (by decide +kernel)
  have h₄ : Nat.Prime 733803839347 :=
    prime_of_lucas 2 [55515497, 2, 3, 2203] (List.forall_mem_cons.mpr ⟨h₃, by norm_num⟩)
      (by decide +kernel)
  have h₅ : Nat.Prime 2998279 := prime_of_lucas 3 [2, 3, 166571] (by norm_num) (by decide +kernel)
  have hfirst : Nat.Prime 5704689200685129054721 :=
    prime_of_lucas 21 [733803839347, 2, 3, 5, 12497] (List.forall_mem_cons.mpr ⟨h₄, by norm_num⟩)
      (by decide +kernel)
  have hsecond : Nat.Prime 59649589127497217 :=
    prime_of_lucas 3 [116503103764643, 2] (List.forall_mem_cons.mpr ⟨h₂, by norm_num⟩)
      (by decide +kernel)
  have hthird : Nat.Prime 67280421310721 :=
    prime_of_lucas 3 [2998279, 2, 5, 47, 373] (List.forall_mem_cons.mpr ⟨h₅, by norm_num⟩)
      (by decide +kernel)
  have hfourth : Nat.Prime 6700417 :=
    prime_of_lucas 5 [2, 3, 17449] (by norm_num) (by decide +kernel)
  have hfifth : Nat.Prime 274177 :=
    prime_of_lucas 5 [2, 3, 7, 17] (by norm_num) (by decide +kernel)
  simp only [factors, List.forall_mem_cons]
  exact ⟨hfirst, hsecond, hthird, hfourth, hfifth, by norm_num⟩

/-- Without a prime factor of the order the power is not the identity. -/
theorem pow_ne_one {M s k q : ℕ} (h : Xoshiro.step ^ (M * k) ≠ Xoshiro.step ^ (M * 2 ^ s * k))
    (hq : (2 ^ 256 - 1) / q = (2 ^ s - 1) * (M * k)) : Xoshiro.step ^ ((2 ^ 256 - 1) / q) ≠ 1 := by
  rw [hq]
  exact pow_ne_one_of_separated h

/-- **The step has the order `2 ^ 256 - 1`.** -/
theorem orderOf_step : orderOf Xoshiro.step = 2 ^ 256 - 1 := by
  obtain ⟨h7, h6, h5, h4, h3, h2, h1, h0, hone⟩ := separated_step
  have hlevels : 1 * (2 ^ 128 + 1) * (2 ^ 64 + 1) * (2 ^ 32 + 1) * (2 ^ 16 + 1) * (2 ^ 8 + 1) *
      (2 ^ 4 + 1) * (2 ^ 2 + 1) * (2 ^ 1 + 1) = 2 ^ 256 - 1 := by decide +kernel
  apply orderOf_eq_of_pow_and_pow_div_prime (by decide +kernel)
  · rw [← hlevels]
    exact hone
  · intro q hq hdvd
    have hprod : 2 ^ 256 - 1 = factors.prod := by decide +kernel
    rw [hprod] at hdvd
    obtain ⟨r, hr, hqr⟩ := (Prime.dvd_prod_iff hq.prime).mp hdvd
    obtain rfl : q = r := (Nat.prime_dvd_prime_iff_eq hq (prime_factors r hr)).mp hqr
    simp only [factors, List.mem_cons, List.not_mem_nil, or_false] at hr
    rcases hr with rfl | rfl | rfl | rfl | rfl | rfl | rfl | rfl | rfl | rfl | rfl
    · exact pow_ne_one (h7 59649589127497217 (by simp)) (by decide +kernel)
    · exact pow_ne_one (h7 5704689200685129054721 (by simp)) (by decide +kernel)
    · exact pow_ne_one (h6 274177 (by simp)) (by decide +kernel)
    · exact pow_ne_one (h5 641 (by simp)) (by decide +kernel)
    · exact pow_ne_one (h6 67280421310721 (by simp)) (by decide +kernel)
    · exact pow_ne_one (h4 1 (by simp)) (by decide +kernel)
    · exact pow_ne_one (h5 6700417 (by simp)) (by decide +kernel)
    · exact pow_ne_one (h3 1 (by simp)) (by decide +kernel)
    · exact pow_ne_one (h2 1 (by simp)) (by decide +kernel)
    · exact pow_ne_one (h1 1 (by simp)) (by decide +kernel)
    · exact pow_ne_one (h0 1 (by simp)) (by decide +kernel)

/-! ### The states of a generator -/

namespace Xoshiro

variable {x : Xoshiro}

/-- A state is back after the multiples of the period, and only then. -/
theorem iterate_eq_self_iff (hx : x ≠ allZero) (n : ℕ) :
    next^[n] x = x ↔ 2 ^ 256 - 1 ∣ n := by
  rw [← step_pow]
  exact pow_apply_eq_iff add_self evalBits_minimal minimal_lt (by decide) (by decide)
    orderOf_step hx n

/-- Two iterates agree exactly if their numbers do modulo the period. -/
theorem iterate_eq_iff (hx : x ≠ allZero) (i j : ℕ) :
    next^[i] x = next^[j] x ↔ i ≡ j [MOD 2 ^ 256 - 1] := by
  have hle : ∀ i j, i ≤ j → (next^[i] x = next^[j] x ↔ i ≡ j [MOD 2 ^ 256 - 1]) := by
    intro i j hij
    have hy : next^[i] x ≠ allZero := fun h => hx ((iterate_eq_zero_iff i x).mp h)
    rw [Nat.modEq_iff_dvd' hij, ← iterate_eq_self_iff hy, ← Function.iterate_add_apply,
      Nat.sub_add_cancel hij]
    exact eq_comm
  rcases Nat.le_total i j with hij | hij
  · exact hle i j hij
  · rw [eq_comm, Nat.ModEq.comm]
    exact hle j i hij

/-- Two states at most `2 ^ 256 - 1` steps apart are the same where there are no steps between
them, or all. -/
theorem iterate_eq_cases (hx : x ≠ allZero) {i j : ℕ} (hi : i < 2 ^ 256) (hj : j < 2 ^ 256) :
    next^[i] x = next^[j] x ↔
      i = j ∨ i = 0 ∧ j = 2 ^ 256 - 1 ∨ i = 2 ^ 256 - 1 ∧ j = 0 := by
  rw [iterate_eq_iff hx]
  unfold Nat.ModEq
  omega

/-- State `m` of the sub-sequence `a` of the starting point `i` is the first of all, and state `n`
of the sub-sequence `b` of `j` is the last. -/
def Ends (i a m j b n : ℕ) : Prop :=
  (i = 0 ∧ a = 0 ∧ m = 0) ∧ j = 2 ^ 64 - 1 ∧ b = 2 ^ 64 - 1 ∧ n = 2 ^ 128 - 1

/-- Jumps and long jumps as calls. -/
theorem iterate_jumps (i a m : ℕ) (x : Xoshiro) :
    next^[m] (jump^[a] (longJump^[i] x)) = next^[m + 2 ^ 128 * a + 2 ^ 192 * i] x := by
  have hjump : jump = next^[2 ^ 128] := funext jump_eq
  have hlong : longJump = next^[2 ^ 192] := funext longJump_eq
  rw [hjump, hlong, ← Function.iterate_mul, ← Function.iterate_mul, ← Function.iterate_add_apply,
    ← Function.iterate_add_apply]

/-- **The generator has full period.** It is back where it was after `2 ^ 256 - 1` calls, and not
before. From `2 ^ 64` starting points, a long jump apart, `2 ^ 64` sub-sequences of `2 ^ 128` states
each begin, a jump apart; they have no state in common, but for the first of all, which is the last
one as well. -/
theorem period_exact (hx : x ≠ allZero) :
    (∀ n, next^[n] x = x ↔ 2 ^ 256 - 1 ∣ n) ∧
      ∀ i a m j b n, i < 2 ^ 64 → a < 2 ^ 64 → m < 2 ^ 128 → j < 2 ^ 64 → b < 2 ^ 64 →
        n < 2 ^ 128 →
        (next^[m] (jump^[a] (longJump^[i] x)) = next^[n] (jump^[b] (longJump^[j] x)) ↔
          (i = j ∧ a = b ∧ m = n) ∨ Ends i a m j b n ∨ Ends j b n i a m) := by
  refine ⟨iterate_eq_self_iff hx, fun i a m j b n hi ha hm hj hb hn => ?_⟩
  rw [iterate_jumps, iterate_jumps, iterate_eq_cases hx (by omega) (by omega)]
  unfold Ends
  omega

/-- The default seed comes back, and its two ends meet. -/
theorem period_exact_default :
    next^[2 ^ 256 - 1] default = default ∧
      next^[2 ^ 128 - 1] (jump^[2 ^ 64 - 1] (longJump^[2 ^ 64 - 1] default)) = default := by
  have hne : default ≠ allZero := by decide
  obtain ⟨hperiod, hsub⟩ := period_exact hne
  refine ⟨(hperiod _).mpr dvd_rfl, ?_⟩
  exact (hsub (2 ^ 64 - 1) (2 ^ 64 - 1) (2 ^ 128 - 1) 0 0 0 (by decide) (by decide) (by decide)
    (by decide) (by decide) (by decide)).mpr (Or.inr (Or.inr ⟨⟨rfl, rfl, rfl⟩, rfl, rfl, rfl⟩))

/-- What the loop over the workers leaves to the pool is what one more worker would get. -/
theorem workerRngs_append (n : ℕ) (rng : Xoshiro) :
    workerRngs n rng ++ [longJump^[n] rng] = workerRngs (n + 1) rng := by
  induction n generalizing rng with
  | zero => rfl
  | succ n ih =>
    rw [workerRngs, List.cons_append, Function.iterate_succ_apply, ih]
    rfl

/-- **The workers of a pool and the pool draw from streams of their own**: none of the first
`2 ^ 192` states of one generator, the initial one included, is among those of another. -/
theorem streams_apart {n : ℕ} {rng : Xoshiro} (hrng : rng ≠ allZero) (hn : n + 1 < 2 ^ 64) :
    (workerRngs n rng ++ [longJump^[n] rng]).Pairwise fun g g' =>
      ∀ i j, i < 2 ^ 192 → j < 2 ^ 192 → next^[i] g ≠ next^[j] g' := by
  rw [workerRngs_append, List.pairwise_iff_getElem]
  intro u v hu hv huv i j hi hj
  have hget : ∀ k (hk : k < (workerRngs (n + 1) rng).length),
      (workerRngs (n + 1) rng)[k] = next^[k * 2 ^ 192] rng := by
    intro k hk
    have hat := getElem?_workerRngs (n + 1) k (by rwa [length_workerRngs] at hk) rng
    rw [List.getElem?_eq_getElem hk] at hat
    exact Option.some.inj hat
  rw [length_workerRngs] at hv
  rw [hget, hget, ← Function.iterate_add_apply, ← Function.iterate_add_apply, Ne,
    iterate_eq_cases hrng (by omega) (by omega)]
  omega

/-- Two workers. -/
theorem streams_apart_two :
    (workerRngs 2 default ++ [longJump^[2] default]).Pairwise fun g g' =>
      ∀ i j, i < 2 ^ 192 → j < 2 ^ 192 → next^[i] g ≠ next^[j] g' :=
  streams_apart (by decide) (by decide)

end Xoshiro

end Libfork.Random
