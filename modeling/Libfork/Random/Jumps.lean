import Libfork.Random.Linear

/-!
# The jumps of the generator

`jump` is `2 ^ 128` calls of `operator()` and `long_jump` is `2 ^ 192`, from every state.

* `minimal` — a polynomial of degree 256 at which the step vanishes (**`evalBits_minimal`**). The
  kernel runs Horner's scheme at the states whose third word has a single bit; the step carries
  these to the whole space.
* `squares_jump`, `squares_longJump` — the kernel squares the variable 128 times, and then 64 times
  more, modulo `minimal`, and finds the two constants.
* **`jumps_exact`** — the two jumps as iterates of `next`; and no sequence of calls, jumps and long
  jumps leads to the all-zero state, from a state that is not all zero or from a generator handed
  to a worker.
-/

namespace Libfork.Random

open Found

/-- The minimal polynomial of the step. -/
def minimal : ℕ := 0x10003c03c3f3ecb1904b4edcf26259f850280002bcefd1a5e9d116f2bb0f0f001

/-! ### Horner's scheme on four natural numbers -/

/-- Horner's scheme for `minimal` at the state `(0, 0, e, 0)`, from `(s0, s1, s2, s3)`: whether the
result is zero. -/
def vanishes (e : ℕ) : ℕ → ℕ → ℕ → ℕ → ℕ → Bool
  | 0, s0, s1, s2, s3 => s0 == 0 && s1 == 0 && s2 == 0 && s3 == 0
  | n + 1, s0, s1, s2, s3 =>
    eager (s3 ^^^ s1) fun a =>
    eager (s0 ^^^ a) fun s0' =>
    eager (s1 ^^^ (s2 ^^^ s0)) fun s1' =>
    eager (s2 ^^^ s0 ^^^ s1 <<< 17 % 2 ^ 64 ^^^ e * (minimal / 2 ^ n % 2)) fun s2' =>
    eager (a <<< 45 % 2 ^ 64 ||| a >>> 19) fun s3' => vanishes e n s0' s1' s2' s3'

/-- The state with `c` as its third word. -/
def third (c : BitVec 64) : Xoshiro := ⟨0, 0, c, 0⟩

/-- The words of one step of Horner's scheme, as numbers. -/
theorem horner_words (e : BitVec 64) (b : Bool) (x : Xoshiro) :
    let y := x.next + if b then third e else 0
    y.s0.toNat = x.s0.toNat ^^^ (x.s3.toNat ^^^ x.s1.toNat) ∧
      y.s1.toNat = x.s1.toNat ^^^ (x.s2.toNat ^^^ x.s0.toNat) ∧
      y.s2.toNat = x.s2.toNat ^^^ x.s0.toNat ^^^ x.s1.toNat <<< 17 % 2 ^ 64 ^^^
        e.toNat * b.toNat ∧
      y.s3.toNat = (x.s3.toNat ^^^ x.s1.toNat) <<< 45 % 2 ^ 64 |||
        (x.s3.toNat ^^^ x.s1.toNat) >>> 19 := by
  cases b
  · simp [Xoshiro.next_eq, rotl]
  · change (_ ^^^ 0#64).toNat = _ ∧ (_ ^^^ 0#64).toNat = _ ∧ (_ ^^^ e).toNat = _ ∧
      (_ ^^^ 0#64).toNat = _
    simp [Xoshiro.next_eq, rotl]

/-- The numbers follow Horner's scheme. -/
theorem vanishes_iff (e : BitVec 64) (n : ℕ) (x : Xoshiro) :
    vanishes e.toNat n x.s0.toNat x.s1.toNat x.s2.toNat x.s3.toNat = true ↔
      horner Xoshiro.next minimal (third e) n x = 0 := by
  induction n generalizing x with
  | zero =>
    simp only [vanishes, horner, Bool.and_eq_true, beq_iff_eq]
    constructor
    · rintro ⟨⟨⟨h0, h1⟩, h2⟩, h3⟩
      apply Xoshiro.ext <;> apply BitVec.eq_of_toNat_eq <;> assumption
    · rintro rfl
      decide
  | succ n ih =>
    have hbit : minimal / 2 ^ n % 2 = (minimal.testBit n).toNat := by
      rw [Nat.testBit_eq_decide_div_mod_eq]
      rcases Nat.mod_two_eq_zero_or_one (minimal / 2 ^ n) with h | h <;> simp [h]
    obtain ⟨h0, h1, h2, h3⟩ := horner_words e (minimal.testBit n) x
    rw [horner, ← ih, h0, h1, h2, h3]
    simp only [vanishes, eager_eq, hbit]

/-- The kernel's runs. -/
theorem vanishes_bits : ∀ k < 64, vanishes (2 ^ k) (256 + 1) 0 0 0 0 = true := by
  decide +kernel

/-- The constants of `jump` are the variable to the power `2 ^ 128`, modulo `minimal`. -/
theorem squares_jump : squares minimal 256 128 2 = Xoshiro.packWords Xoshiro.jumpArray := by
  decide +kernel

/-- Those of `long_jump` are the variable to the power `2 ^ 192`. -/
theorem squares_longJump : squares minimal 256 64 (Xoshiro.packWords Xoshiro.jumpArray) =
    Xoshiro.packWords Xoshiro.longJumpArray := by
  decide +kernel

/-! ### The step is a root of the polynomial -/

/-- `minimal` has 257 bits. -/
theorem minimal_lt : minimal < 2 ^ (256 + 1) := by decide +kernel

/-- Horner's scheme on states is the polynomial at the step. -/
theorem evalBits_horner (x : Xoshiro) :
    evalBits Xoshiro.step minimal x = horner Xoshiro.next minimal x (256 + 1) 0 := by
  have h := horner_eq Xoshiro.step minimal x (256 + 1) 0
  rw [map_zero, zero_add, Nat.mod_eq_of_lt minimal_lt] at h
  exact h.symm

/-- The polynomial vanishes at the states whose third word has a single bit. -/
theorem evalBits_twoPow {k : ℕ} (hk : k < 64) :
    evalBits Xoshiro.step minimal (third (BitVec.twoPow 64 k)) = 0 := by
  rw [evalBits_horner, ← vanishes_iff, BitVec.toNat_twoPow_of_lt hk]
  exact vanishes_bits k hk

/-- A word is the sum of its bits. -/
theorem third_mod_succ (c n : ℕ) :
    third (BitVec.ofNat 64 (c % 2 ^ (n + 1))) = third (BitVec.ofNat 64 (c % 2 ^ n)) +
      if c.testBit n then third (BitVec.twoPow 64 n) else 0 := by
  have hsplit : BitVec.ofNat 64 (c % 2 ^ (n + 1)) = BitVec.ofNat 64 (c % 2 ^ n) ^^^
      if c.testBit n then BitVec.twoPow 64 n else 0#64 := by
    apply BitVec.eq_of_getLsbD_eq
    intro i hi
    rw [BitVec.getLsbD_xor, BitVec.getLsbD_ofNat, BitVec.getLsbD_ofNat, Nat.testBit_mod_two_pow,
      Nat.testBit_mod_two_pow]
    by_cases hb : c.testBit n = true
    · rw [if_pos hb, BitVec.getLsbD_twoPow]
      rcases Nat.lt_trichotomy i n with h | rfl | h
      · simp [hi, h, Nat.lt_succ_of_lt h, h.ne']
      · simp [hi, hb]
      · simp [hi, h.ne, Nat.not_lt.mpr h.le, Nat.not_lt.mpr h]
    · rw [if_neg hb, BitVec.getLsbD_zero]
      rcases Nat.lt_trichotomy i n with h | rfl | h
      · simp [hi, h, Nat.lt_succ_of_lt h]
      · simp [hi, hb]
      · simp [hi, Nat.not_lt.mpr h.le, Nat.not_lt.mpr h]
  rw [hsplit]
  split <;> simp [third, Xoshiro.add_eq, Xoshiro.zero_eq, Xoshiro.xorWords, Xoshiro.allZero]

/-- So it does at the states with any third word, and no other. -/
theorem evalBits_third (c : BitVec 64) : evalBits Xoshiro.step minimal (third c) = 0 := by
  have hlow : ∀ n ≤ 64,
      evalBits Xoshiro.step minimal (third (BitVec.ofNat 64 (c.toNat % 2 ^ n))) = 0 := by
    intro n hn
    induction n with
    | zero =>
      rw [pow_zero, Nat.mod_one]
      exact map_zero _
    | succ n ih =>
      rw [third_mod_succ, map_add, ih (by omega), zero_add]
      split
      · exact evalBits_twoPow (by omega)
      · exact map_zero _
  have h := hlow 64 (le_refl 64)
  rwa [Nat.mod_eq_of_lt c.isLt, BitVec.ofNat_toNat, BitVec.setWidth_eq] at h

/-- A step keeps what the polynomial sends to zero. -/
theorem evalBits_next {x : Xoshiro} (hx : evalBits Xoshiro.step minimal x = 0) :
    evalBits Xoshiro.step minimal x.next = 0 := by
  have hcomm : (evalBits Xoshiro.step minimal * Xoshiro.step) x =
      (Xoshiro.step * evalBits Xoshiro.step minimal) x := by
    rw [(commute_evalBits Xoshiro.step minimal).eq]
  calc evalBits Xoshiro.step minimal x.next
      = Xoshiro.step (evalBits Xoshiro.step minimal x) := hcomm
    _ = 0 := by rw [hx, map_zero]

/-- It vanishes at a sum if it does at both terms. -/
theorem evalBits_sum {x y z : Xoshiro} (hx : evalBits Xoshiro.step minimal x = 0)
    (hy : evalBits Xoshiro.step minimal y = 0) (hz : z = x + y) :
    evalBits Xoshiro.step minimal z = 0 := by
  rw [hz, map_add, hx, hy, add_zero]

/-- **The step is a root of its minimal polynomial.** From the third words, one step reaches the
second, a further one the first together with the fourth, and one more the fourth alone. -/
theorem evalBits_minimal : evalBits Xoshiro.step minimal = 0 := by
  have hsecond : ∀ b, evalBits Xoshiro.step minimal ⟨0, b, 0, 0⟩ = 0 := by
    intro b
    apply evalBits_sum (evalBits_next (evalBits_third b)) (evalBits_third b)
    rw [Xoshiro.next_eq]
    simp [third, Xoshiro.add_eq, Xoshiro.xorWords]
  have hboth : ∀ a, evalBits Xoshiro.step minimal ⟨a, 0, 0, rotl a 45⟩ = 0 := by
    intro a
    have hstep := evalBits_next (hsecond a)
    rw [Xoshiro.next_eq] at hstep
    apply evalBits_sum hstep (evalBits_sum (hsecond a) (evalBits_third (a <<< 17)) rfl)
    simp [third, Xoshiro.add_eq, Xoshiro.xorWords]
  have hfourth' : ∀ a, evalBits Xoshiro.step minimal ⟨0, 0, 0, rotl a 45⟩ = 0 := by
    intro a
    have hstep := evalBits_next (hboth a)
    rw [Xoshiro.next_eq] at hstep
    have hrest := evalBits_sum (hsecond a) (evalBits_third a) rfl
    have htwice := evalBits_sum (evalBits_sum hstep hrest rfl) (hboth (rotl a 45)) rfl
    apply evalBits_sum htwice (hboth a)
    have hcancel : a ^^^ rotl a 45 ^^^ rotl a 45 ^^^ a = 0#64 := by
      rw [BitVec.xor_assoc a, BitVec.xor_self, BitVec.xor_zero, BitVec.xor_self]
    simp only [third, Xoshiro.add_eq, Xoshiro.xorWords, BitVec.ofNat_eq_ofNat, BitVec.xor_zero,
      BitVec.zero_xor, BitVec.zero_shiftLeft, BitVec.xor_self, hcancel]
  have hfourth : ∀ d, evalBits Xoshiro.step minimal ⟨0, 0, 0, d⟩ = 0 := by
    intro d
    have hback := hfourth' (rotl d 19)
    have hturn : rotl (rotl d 19) 45 = d := rotl_rotl (by decide) d
    rwa [hturn] at hback
  have hfirst : ∀ a, evalBits Xoshiro.step minimal ⟨a, 0, 0, 0⟩ = 0 := by
    intro a
    apply evalBits_sum (hboth a) (hfourth (rotl a 45))
    simp [Xoshiro.add_eq, Xoshiro.xorWords]
  ext1 x
  apply evalBits_sum (evalBits_sum (hfirst x.s0) (hsecond x.s1) rfl)
    (evalBits_sum (evalBits_third x.s2) (hfourth x.s3) rfl)
  simp [third, Xoshiro.add_eq, Xoshiro.xorWords]

/-! ### The jumps -/

namespace Xoshiro

/-- The polynomial of `jump` at the step is `2 ^ 128` steps. -/
theorem evalBits_jumpArray : evalBits step (packWords jumpArray) = step ^ 2 ^ 128 := by
  have hpow := evalBits_squares end_add_self step evalBits_minimal minimal_lt
    (d := 256) (by decide) 128 (a := 2) (by decide)
  rwa [squares_jump, evalBits_two] at hpow

/-- That of `long_jump` is `2 ^ 192` steps. -/
theorem evalBits_longJumpArray : evalBits step (packWords longJumpArray) = step ^ 2 ^ 192 := by
  have hpow := evalBits_squares end_add_self step evalBits_minimal minimal_lt
    (d := 256) (by decide) 64 (a := packWords jumpArray) (by decide)
  rw [squares_longJump, evalBits_jumpArray, ← pow_mul, ← pow_add] at hpow
  exact hpow

/-- `jump` is `2 ^ 128` calls. -/
theorem jump_eq (x : Xoshiro) : x.jump = next^[2 ^ 128] x := by
  rw [jump, jumpImpl_eq, evalBits_jumpArray, step_pow]

/-- `long_jump` is `2 ^ 192` calls. -/
theorem longJump_eq (x : Xoshiro) : x.longJump = next^[2 ^ 192] x := by
  rw [longJump, jumpImpl_eq, evalBits_longJumpArray, step_pow]

/-- No number of steps leads to the all-zero state. -/
theorem iterate_eq_zero_iff (n : ℕ) (x : Xoshiro) : next^[n] x = allZero ↔ x = allZero := by
  induction n generalizing x with
  | zero => rfl
  | succ n ih => exact (ih x.next).trans (next_eq_zero_iff x)

/-- No operation leads to the all-zero state, or away from it. -/
theorem apply_eq_zero_iff (op : Op) (x : Xoshiro) : op.apply x = allZero ↔ x = allZero := by
  cases op with
  | call => exact next_eq_zero_iff x
  | jump => rw [Op.apply, jump_eq, iterate_eq_zero_iff]
  | longJump => rw [Op.apply, longJump_eq, iterate_eq_zero_iff]

/-- **No sequence of calls leads to the all-zero state.** -/
theorem run_eq_zero_iff (ops : List Op) (x : Xoshiro) : run ops x = allZero ↔ x = allZero := by
  induction ops generalizing x with
  | nil => rfl
  | cons op ops ih => exact (ih (op.apply x)).trans (apply_eq_zero_iff op x)

/-- The generator of worker `i` is `i * 2 ^ 192` steps from the pool's. -/
theorem getElem?_workerRngs (n i : ℕ) (hi : i < n) (rng : Xoshiro) :
    (workerRngs n rng)[i]? = some (next^[i * 2 ^ 192] rng) := by
  induction n generalizing i rng with
  | zero => omega
  | succ n ih =>
    cases i with
    | zero => simp [workerRngs]
    | succ i =>
      rw [workerRngs, List.getElem?_cons_succ, ih i (by omega), longJump_eq,
        ← Function.iterate_add_apply, Nat.succ_mul]

/-- Every worker gets a generator. -/
theorem length_workerRngs (n : ℕ) (rng : Xoshiro) : (workerRngs n rng).length = n := by
  induction n generalizing rng with
  | zero => rfl
  | succ n ih => rw [workerRngs, List.length_cons, ih]

/-- No worker gets one that is all zero. -/
theorem workerRngs_ne_zero {n : ℕ} {rng g : Xoshiro} (h : rng ≠ allZero)
    (hg : g ∈ workerRngs n rng) : g ≠ allZero := by
  obtain ⟨i, hi, rfl⟩ := List.getElem_of_mem hg
  rw [length_workerRngs] at hi
  have hat := getElem?_workerRngs n i hi rng
  rw [List.getElem?_eq_some_iff] at hat
  obtain ⟨_, hat⟩ := hat
  rw [hat]
  exact fun h0 => h ((iterate_eq_zero_iff _ rng).mp h0)

/-- **The jumps are exact.** From every state `jump` is `2 ^ 128` and `longJump` is
`2 ^ 192` calls; a state that is not all zero never becomes all zero; and the generators handed to
the workers are never stuck. -/
theorem jumps_exact :
    (∀ x : Xoshiro, x.jump = next^[2 ^ 128] x) ∧
      (∀ x : Xoshiro, x.longJump = next^[2 ^ 192] x) ∧
      (∀ (x : Xoshiro) (ops : List Op), x ≠ allZero → run ops x ≠ allZero) ∧
      ∀ (n : ℕ) (rng : Xoshiro), rng ≠ allZero → ∀ g ∈ workerRngs n rng, ∀ ops : List Op,
        run ops g ≠ allZero ∧ (run ops g).next ≠ run ops g := by
  refine ⟨jump_eq, longJump_eq, ?_, ?_⟩
  · intro x ops h h0
    exact h ((run_eq_zero_iff ops x).mp h0)
  · intro n rng h g hg ops
    have hrun : run ops g ≠ allZero :=
      fun h0 => workerRngs_ne_zero h hg ((run_eq_zero_iff ops g).mp h0)
    exact ⟨hrun, fun hself => hrun ((next_eq_self_iff _).mp hself)⟩

/-- From the default seed. -/
theorem jumps_exact_default :
    default.jump = next^[2 ^ 128] default ∧ run [.call, .longJump, .jump] default ≠ allZero :=
  ⟨jumps_exact.1 default, jumps_exact.2.2.1 default _ (by decide)⟩

end Xoshiro

end Libfork.Random
