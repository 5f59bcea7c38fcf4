import Mathlib.Algebra.Group.Hom.End
import Mathlib.Algebra.Group.Nat.Even
import Mathlib.Algebra.Ring.Commute
import Mathlib.Algebra.Ring.Nat
import Mathlib.Data.Nat.Bitwise
import Mathlib.Data.Nat.Cast.Basic
import Mathlib.Tactic.Common

/-!
# Polynomials over two elements, kept as natural numbers

Bit `k` of a natural number is the coefficient of the `k`-th power. `evalBits t p` is the value of
the polynomial `p` at an element `t` of a ring in which `a + a = 0`, such as the endomorphisms of a
space over two elements.

* `timesX`, `mulMod`, `squares` — multiplication by the variable, product and repeated squaring
  modulo a polynomial `m` of degree `d`.
* **`evalBits_squares`** — at a root of `m`, `n` squarings give the power `2 ^ n`.
* **`horner_eq`** — the value of an endomorphism polynomial at one vector, computed from the top
  coefficient down.

The three computations are meant to be run by the kernel: `eager` makes it evaluate a number before
it goes on. Nothing here is about a particular program.
-/

namespace Libfork.Found

/-! ### Forcing an argument -/

/-- `f n`, where reducing to a value evaluates `n` first. -/
def eager {α : Type*} (n : ℕ) (f : ℕ → α) : α := Nat.rec (f 0) (fun m _ => f (m + 1)) n

/-- Evaluation first makes no difference to the value. -/
@[simp] theorem eager_eq {α : Type*} (n : ℕ) (f : ℕ → α) : eager n f = f n := by
  cases n <;> rfl

/-! ### The value of a polynomial -/

section Value

variable {A : Type*} [Semiring A]

/-- The polynomial with the bits of `p` as coefficients, at `t`. -/
def evalBits (t : A) (p : ℕ) : A :=
  if p = 0 then 0 else ((p % 2 : ℕ) : A) + t * evalBits t (p / 2)
  termination_by p
  decreasing_by omega

/-- The polynomial without terms. -/
@[simp] theorem evalBits_zero (t : A) : evalBits t 0 = 0 := by
  rw [evalBits]
  simp

/-- The constant term, and the others. -/
theorem evalBits_eq (t : A) (p : ℕ) :
    evalBits t p = ((p % 2 : ℕ) : A) + t * evalBits t (p / 2) := by
  rcases Nat.eq_zero_or_pos p with rfl | hp
  · simp
  · rw [evalBits, if_neg (by omega)]

/-- The polynomial 1. -/
@[simp] theorem evalBits_one (t : A) : evalBits t 1 = 1 := by
  rw [evalBits_eq]
  simp

/-- Doubling a number multiplies its polynomial by the variable. -/
theorem evalBits_two_mul (t : A) (p : ℕ) : evalBits t (2 * p) = t * evalBits t p := by
  rw [evalBits_eq]
  simp

/-- The variable itself. -/
@[simp] theorem evalBits_two (t : A) : evalBits t 2 = t := by
  have h := evalBits_two_mul t 1
  simpa using h

/-- A polynomial in `t` commutes with `t`. -/
theorem commute_evalBits (t : A) (p : ℕ) : Commute t (evalBits t p) := by
  induction p using Nat.strongRec with
  | ind p ih =>
    rcases Nat.eq_zero_or_pos p with rfl | hp
    · simp
    · rw [evalBits_eq]
      apply Commute.add_right
      · exact Nat.commute_cast t _
      · exact (Commute.refl t).mul_right (ih (p / 2) (by omega))

/-- Cutting a polynomial one coefficient later. -/
theorem evalBits_mod_succ (t : A) (p n : ℕ) :
    evalBits t (p % 2 ^ (n + 1)) =
      evalBits t (p % 2 ^ n) + if p.testBit n then t ^ n else 0 := by
  induction n generalizing p with
  | zero =>
    rw [evalBits_eq]
    rcases Nat.mod_two_eq_zero_or_one p with h | h <;> simp [Nat.mod_one, Nat.testBit_zero, h]
  | succ n ih =>
    have hcut : ∀ k, evalBits t (p % 2 ^ (k + 1)) =
        ((p % 2 : ℕ) : A) + t * evalBits t (p / 2 % 2 ^ k) := by
      intro k
      rw [evalBits_eq, pow_succ', Nat.mod_mul_right_mod, Nat.mod_mul_right_div_self]
    rw [hcut, hcut, ih, mul_add, add_assoc, Nat.testBit_succ]
    split <;> simp [pow_succ']

/-- A polynomial in two parts. -/
theorem evalBits_append (t : A) (p q n : ℕ) :
    evalBits t (p % 2 ^ n + 2 ^ n * q) = evalBits t (p % 2 ^ n) + t ^ n * evalBits t q := by
  induction n generalizing p with
  | zero => simp [Nat.mod_one]
  | succ n ih =>
    have hlow : (p % 2 ^ (n + 1) + 2 ^ (n + 1) * q) % 2 = p % 2 ^ (n + 1) % 2 := by
      rw [pow_succ', mul_assoc, Nat.add_mul_mod_self_left]
    have hhigh : (p % 2 ^ (n + 1) + 2 ^ (n + 1) * q) / 2 = p / 2 % 2 ^ n + 2 ^ n * q := by
      rw [pow_succ', mul_assoc, Nat.add_mul_div_left _ _ (by decide), Nat.mod_mul_right_div_self]
    have hhalf : p % 2 ^ (n + 1) / 2 = p / 2 % 2 ^ n := by
      rw [pow_succ', Nat.mod_mul_right_div_self]
    rw [evalBits_eq, hlow, hhigh, ih, evalBits_eq t (p % 2 ^ (n + 1)), hhalf, mul_add,
      ← mul_assoc, ← pow_succ', add_assoc]

end Value

/-! ### Arithmetic modulo a polynomial -/

/-- `x * a` modulo `m`, a polynomial of degree `d`. -/
def timesX (m d a : ℕ) : ℕ := 2 * a ^^^ m * (2 * a / 2 ^ d % 2)

/-- `acc + a * b` modulo `m`, from the lowest `n` coefficients of `b`. -/
def mulMod (m d : ℕ) : ℕ → ℕ → ℕ → ℕ → ℕ
  | 0, _, _, acc => acc
  | n + 1, a, b, acc =>
    eager (timesX m d a) fun a' =>
      eager (acc ^^^ a * (b % 2)) fun acc' => mulMod m d n a' (b / 2) acc'

/-- `a` squared `n` times modulo `m`. -/
def squares (m d : ℕ) : ℕ → ℕ → ℕ
  | 0, a => a
  | n + 1, a => eager (mulMod m d d a a 0) fun a' => squares m d n a'

section Root

variable {A : Type*} [Semiring A] (hA : ∀ a : A, a + a = 0) (t : A)

include hA

/-- Exclusive or adds the coefficients. -/
theorem evalBits_xor (p q : ℕ) : evalBits t (p ^^^ q) = evalBits t p + evalBits t q := by
  induction p using Nat.strongRec generalizing q with
  | ind p ih =>
    rcases Nat.eq_zero_or_pos p with rfl | hp
    · simp
    · have hone : (1 : A) + 1 = 0 := hA 1
      rw [evalBits_eq, evalBits_eq t p, evalBits_eq t q, Nat.xor_div_two,
        ih (p / 2) (by omega), mul_add, add_add_add_comm]
      congr 1
      rw [Nat.xor_mod_two_eq]
      rcases Nat.mod_two_eq_zero_or_one p with h | h <;>
        rcases Nat.mod_two_eq_zero_or_one q with h' | h' <;>
        simp [Nat.add_mod, h, h', hone]

variable {m d : ℕ}

/-- Multiplying by the variable, at a root of the modulus. -/
theorem evalBits_timesX (hm : evalBits t m = 0) (a : ℕ) :
    evalBits t (timesX m d a) = t * evalBits t a := by
  rw [timesX]
  rcases Nat.mod_two_eq_zero_or_one (2 * a / 2 ^ d) with h | h
  · rw [h]
    simp [evalBits_two_mul]
  · rw [h, mul_one, evalBits_xor hA, hm, add_zero, evalBits_two_mul]

omit hA in
/-- The degree stays below that of the modulus. -/
theorem timesX_lt (hm : m < 2 ^ (d + 1)) (hd : m.testBit d) {a : ℕ} (ha : a < 2 ^ d) :
    timesX m d a < 2 ^ d := by
  have htwo : 2 * a < 2 ^ (d + 1) := by
    rw [pow_succ']
    omega
  have hbit : (2 * a).testBit d = decide (2 * a / 2 ^ d % 2 = 1) := by
    rw [Nat.testBit_eq_decide_div_mod_eq]
  apply Nat.lt_pow_two_of_testBit
  intro i hi
  rw [timesX, Nat.testBit_xor]
  rcases Nat.lt_or_eq_of_le hi with hlt | rfl
  · have hpow : 2 ^ (d + 1) ≤ 2 ^ i := Nat.pow_le_pow_right (by decide) hlt
    rw [Nat.testBit_lt_two_pow (lt_of_lt_of_le htwo hpow)]
    rcases Nat.mod_two_eq_zero_or_one (2 * a / 2 ^ d) with h | h
    · simp [h]
    · simp [h, Nat.testBit_lt_two_pow (lt_of_lt_of_le hm hpow)]
  · rw [hbit]
    rcases Nat.mod_two_eq_zero_or_one (2 * a / 2 ^ d) with h | h <;> simp [h, hd]

/-- The product, at a root of the modulus. -/
theorem evalBits_mulMod (hm : evalBits t m = 0) (n a b acc : ℕ) (hb : b < 2 ^ n) :
    evalBits t (mulMod m d n a b acc) = evalBits t acc + evalBits t a * evalBits t b := by
  induction n generalizing a b acc with
  | zero =>
    obtain rfl : b = 0 := by simpa using hb
    simp [mulMod]
  | succ n ih =>
    have hhalf : b / 2 < 2 ^ n := by
      rw [pow_succ] at hb
      omega
    have hlow : evalBits t (a * (b % 2)) = evalBits t a * ((b % 2 : ℕ) : A) := by
      rcases Nat.mod_two_eq_zero_or_one b with h | h <;> simp [h]
    rw [mulMod, eager_eq, eager_eq, ih _ _ _ hhalf, evalBits_timesX hA t hm, evalBits_xor hA,
      hlow, evalBits_eq t b, mul_add, (commute_evalBits t a).eq, mul_assoc, add_assoc]

omit hA in
/-- Its degree stays below that of the modulus. -/
theorem mulMod_lt (hm : m < 2 ^ (d + 1)) (hd : m.testBit d) (n : ℕ) {a b acc : ℕ}
    (ha : a < 2 ^ d) (hacc : acc < 2 ^ d) : mulMod m d n a b acc < 2 ^ d := by
  induction n generalizing a b acc with
  | zero => exact hacc
  | succ n ih =>
    rw [mulMod, eager_eq, eager_eq]
    apply ih (timesX_lt hm hd ha)
    apply Nat.xor_lt_two_pow hacc
    rcases Nat.mod_two_eq_zero_or_one b with h | h
    · simp [h, Nat.two_pow_pos d]
    · simpa [h] using ha

/-- **Repeated squaring at a root of the modulus.** -/
theorem evalBits_squares (hroot : evalBits t m = 0) (hm : m < 2 ^ (d + 1)) (hd : m.testBit d)
    (n : ℕ) {a : ℕ} (ha : a < 2 ^ d) :
    evalBits t (squares m d n a) = evalBits t a ^ 2 ^ n := by
  induction n generalizing a with
  | zero => simp [squares]
  | succ n ih =>
    have hlt : mulMod m d d a a 0 < 2 ^ d := mulMod_lt hm hd d ha (Nat.two_pow_pos d)
    rw [squares, eager_eq, ih hlt, evalBits_mulMod hA t hroot d a a 0 ha, evalBits_zero, zero_add,
      ← pow_two, ← pow_mul, ← pow_succ']

end Root

/-! ### A polynomial of an endomorphism at one vector -/

section Horner

variable {V : Type*} [AddCommMonoid V]

/-- Horner's scheme over the lowest `n` coefficients of `p`, from the top one down. -/
def horner (T : V → V) (p : ℕ) (e : V) : ℕ → V → V
  | 0, acc => acc
  | n + 1, acc => horner T p e n (T acc + if p.testBit n then e else 0)

/-- **Horner's scheme computes the value of the polynomial.** -/
theorem horner_eq (T : AddMonoid.End V) (p : ℕ) (e : V) (n : ℕ) (acc : V) :
    horner T p e n acc = (T ^ n) acc + evalBits T (p % 2 ^ n) e := by
  induction n generalizing acc with
  | zero => simp [horner, Nat.mod_one]
  | succ n ih =>
    have hnext : (T ^ n) (T acc) = (T ^ (n + 1)) acc := by
      rw [pow_succ]
      rfl
    have happly : ∀ f g : AddMonoid.End V, (f + g) e = f e + g e := fun _ _ => rfl
    rw [horner, ih, map_add, hnext, evalBits_mod_succ, happly, add_assoc,
      add_comm (evalBits T (p % 2 ^ n) e)]
    split <;> simp

end Horner

end Libfork.Found
