import Libfork.Found.BitPoly
import Libfork.Random.Model

/-!
# The generator as a linear map

Exclusive or makes the 256-bit states a space over two elements, on which `next` is linear.
`step` is that endomorphism.

* `packWords` — the jump constants as one polynomial.
* **`jumpImpl_eq`** — the loops of `jump_impl` compute that polynomial of `step`.
* **`next_eq_zero_iff`**, **`next_eq_self_iff`** — only the all-zero state is mapped to zero, and
  only it is left unchanged.
-/

namespace Libfork.Random

open Found

/-! ### Words -/

/-- The bits of a rotation. -/
theorem getLsbD_rotl {bits i : ℕ} (hb : bits ≤ 64) (hi : i < 64) (a : BitVec 64) :
    (rotl a bits).getLsbD i =
      if i < bits then a.getLsbD (64 - bits + i) else a.getLsbD (i - bits) := by
  rw [rotl, BitVec.getLsbD_or, BitVec.getLsbD_shiftLeft, BitVec.getLsbD_ushiftRight]
  split
  · simp [*]
  · rename_i h
    have hout : a.getLsbD (64 - bits + i) = false := BitVec.getLsbD_of_ge _ _ (by omega)
    simp [hi, h, hout]

/-- Rotation distributes over exclusive or. -/
theorem rotl_xor {bits : ℕ} (hb : bits ≤ 64) (a b : BitVec 64) :
    rotl (a ^^^ b) bits = rotl a bits ^^^ rotl b bits := by
  apply BitVec.eq_of_getLsbD_eq
  intro i hi
  rw [BitVec.getLsbD_xor, getLsbD_rotl hb hi, getLsbD_rotl hb hi, getLsbD_rotl hb hi]
  split <;> simp

/-- A rotation of zero is zero. -/
@[simp] theorem rotl_zero (bits : ℕ) : rotl 0#64 bits = 0#64 := by
  simp [rotl]

/-- Rotating back. -/
theorem rotl_rotl {bits : ℕ} (hb : bits ≤ 64) (a : BitVec 64) :
    rotl (rotl a bits) (64 - bits) = a := by
  apply BitVec.eq_of_getLsbD_eq
  intro i hi
  rw [getLsbD_rotl (by omega) hi]
  split
  · rw [getLsbD_rotl hb (by omega), if_neg (by omega)]
    congr 1
    omega
  · rw [getLsbD_rotl hb (by omega), if_pos (by omega)]
    congr 1
    omega

/-- Only zero is rotated to zero. -/
theorem rotl_eq_zero_iff {bits : ℕ} (hb : bits ≤ 64) (a : BitVec 64) :
    rotl a bits = 0#64 ↔ a = 0#64 := by
  constructor
  · intro h
    rw [← rotl_rotl hb a, h, rotl_zero]
  · rintro rfl
    simp

/-- A word equal to its own shift is zero. -/
theorem eq_zero_of_shiftLeft {k : ℕ} (hk : 0 < k) {a : BitVec 64} (h : a = a <<< k) :
    a = 0#64 := by
  apply BitVec.eq_of_getLsbD_eq
  intro i hi
  induction i using Nat.strongRec with
  | ind i ih =>
    rw [h, BitVec.getLsbD_shiftLeft]
    by_cases hik : i < k
    · simp [hik]
    · have hback := ih (i - k) (by omega) (by omega)
      simp [hback]

/-! ### States -/

namespace Xoshiro

instance : Add Xoshiro := ⟨xorWords⟩

instance : Zero Xoshiro := ⟨allZero⟩

instance : AddCommMonoid Xoshiro where
  add_assoc x y z := by
    apply Xoshiro.ext <;> exact BitVec.xor_assoc _ _ _
  zero_add x := by
    apply Xoshiro.ext <;> exact BitVec.zero_xor
  add_zero x := by
    apply Xoshiro.ext <;> exact BitVec.xor_zero
  add_comm x y := by
    apply Xoshiro.ext <;> exact BitVec.xor_comm _ _
  nsmul := nsmulRec

/-- States are added word by word. -/
theorem add_eq (x y : Xoshiro) : x + y = xorWords x y := rfl

/-- The zero of the sum is the all-zero state. -/
theorem zero_eq : (0 : Xoshiro) = allZero := rfl

/-- Every state is its own negative. -/
theorem add_self (x : Xoshiro) : x + x = 0 := by
  apply Xoshiro.ext <;> exact BitVec.xor_self

/-- The four words after a step. -/
theorem next_eq (x : Xoshiro) :
    x.next = ⟨x.s0 ^^^ (x.s3 ^^^ x.s1), x.s1 ^^^ (x.s2 ^^^ x.s0),
      x.s2 ^^^ x.s0 ^^^ x.s1 <<< 17, rotl (x.s3 ^^^ x.s1) 45⟩ := rfl

/-- The step is additive. -/
theorem next_add (x y : Xoshiro) : (x + y).next = x.next + y.next := by
  have hswap : ∀ a b c d : BitVec 64, a ^^^ b ^^^ (c ^^^ d) = a ^^^ c ^^^ (b ^^^ d) := by
    intro a b c d
    ac_rfl
  have hshift : (x.s1 ^^^ y.s1) <<< 17 = x.s1 <<< 17 ^^^ y.s1 <<< 17 :=
    BitVec.shiftLeft_xor_distrib _ _ _
  rw [add_eq, add_eq, next_eq, next_eq, next_eq]
  apply Xoshiro.ext
  · change x.s0 ^^^ y.s0 ^^^ (x.s3 ^^^ y.s3 ^^^ (x.s1 ^^^ y.s1)) = _
    rw [hswap x.s3, hswap x.s0]
    rfl
  · change x.s1 ^^^ y.s1 ^^^ (x.s2 ^^^ y.s2 ^^^ (x.s0 ^^^ y.s0)) = _
    rw [hswap x.s2, hswap x.s1]
    rfl
  · change x.s2 ^^^ y.s2 ^^^ (x.s0 ^^^ y.s0) ^^^ (x.s1 ^^^ y.s1) <<< 17 = _
    rw [hshift, hswap x.s2, hswap (x.s2 ^^^ x.s0)]
    rfl
  · change rotl (x.s3 ^^^ y.s3 ^^^ (x.s1 ^^^ y.s1)) 45 = _
    rw [hswap x.s3, rotl_xor (by decide)]
    rfl

/-- `next` as an endomorphism. -/
def step : AddMonoid.End Xoshiro where
  toFun := next
  map_zero' := by decide
  map_add' := next_add

/-- The step as a linear map. -/
@[simp] theorem step_apply (x : Xoshiro) : step x = x.next := rfl

/-- Its powers are its iterates. -/
theorem step_pow (n : ℕ) (x : Xoshiro) : (step ^ n) x = next^[n] x := by
  rw [AddMonoid.End.coe_pow]
  rfl

/-- Every endomorphism is its own negative. -/
theorem end_add_self (f : AddMonoid.End Xoshiro) : f + f = 0 := by
  ext1 x
  exact add_self (f x)

/-- **Only the all-zero state is mapped to zero.** -/
theorem next_eq_zero_iff (x : Xoshiro) : x.next = 0 ↔ x = 0 := by
  constructor
  · intro h
    have h0 : x.s0 ^^^ (x.s3 ^^^ x.s1) = 0#64 := congrArg s0 h
    have h1 : x.s1 ^^^ (x.s2 ^^^ x.s0) = 0#64 := congrArg s1 h
    have h2 : x.s2 ^^^ x.s0 ^^^ x.s1 <<< 17 = 0#64 := congrArg s2 h
    have h3 : rotl (x.s3 ^^^ x.s1) 45 = 0#64 := congrArg s3 h
    rw [rotl_eq_zero_iff (by decide)] at h3
    have hs0 : x.s0 = 0#64 := by simpa [h3] using h0
    have hs1 : x.s1 = x.s2 := by
      rw [hs0, BitVec.xor_zero, BitVec.xor_eq_zero_iff] at h1
      exact h1
    have hshift : x.s1 = x.s1 <<< 17 := by
      rw [hs0, BitVec.xor_zero, BitVec.xor_eq_zero_iff, ← hs1] at h2
      exact h2
    have hs1' : x.s1 = 0#64 := eq_zero_of_shiftLeft (by decide) hshift
    have hs3 : x.s3 = 0#64 := by simpa [hs1'] using h3
    exact Xoshiro.ext hs0 hs1' (hs1 ▸ hs1') hs3
  · rintro rfl
    exact map_zero step

/-- **Only the all-zero state is left unchanged.** -/
theorem next_eq_self_iff (x : Xoshiro) : x.next = x ↔ x = 0 := by
  constructor
  · intro h
    have h0 : x.s0 ^^^ (x.s3 ^^^ x.s1) = x.s0 := congrArg s0 h
    have h1 : x.s1 ^^^ (x.s2 ^^^ x.s0) = x.s1 := congrArg s1 h
    have h2 : x.s2 ^^^ x.s0 ^^^ x.s1 <<< 17 = x.s2 := congrArg s2 h
    have h3 : rotl (x.s3 ^^^ x.s1) 45 = x.s3 := congrArg s3 h
    have hself : ∀ a b : BitVec 64, a ^^^ b = a → b = 0#64 := by
      intro a b hab
      rwa [← BitVec.xor_right_inj a, BitVec.xor_zero]
    have h31 : x.s3 ^^^ x.s1 = 0#64 := hself _ _ h0
    have h20 : x.s2 ^^^ x.s0 = 0#64 := hself _ _ h1
    have hs3 : x.s3 = 0#64 := by
      rw [← h3, h31, rotl_zero]
    have hs1 : x.s1 = 0#64 := by simpa [hs3] using h31
    have hs2 : x.s2 = 0#64 := by
      rw [← h2, h20, hs1]
      rfl
    have hs0 : x.s0 = 0#64 := by simpa [hs2] using h20
    exact Xoshiro.ext hs0 hs1 hs2 hs3
  · rintro rfl
    exact map_zero step

/-! ### The loops of `jump_impl` -/

/-- The bits of the constants, the first word lowest. -/
def packWords (jumpArray : List (BitVec 64)) : ℕ :=
  jumpArray.foldr (fun jump rest => jump.toNat + 2 ^ 64 * rest) 0

/-- No words are the number zero. -/
@[simp] theorem packWords_nil : packWords [] = 0 := rfl

/-- The first word has the lowest bits. -/
@[simp] theorem packWords_cons (jump : BitVec 64) (jumpArray : List (BitVec 64)) :
    packWords (jump :: jumpArray) = jump.toNat + 2 ^ 64 * packWords jumpArray := rfl

/-- The test of the inner loop reads a bit of the word. -/
theorem testBit_iff (jump : BitVec 64) {bit : ℕ} (hbit : bit < 64) :
    jump &&& (1#64 <<< bit) ≠ 0 ↔ jump.toNat.testBit bit = true := by
  rw [← BitVec.getLsbD, ← BitVec.twoPow_eq]
  rw [BitVec.and_twoPow]
  constructor
  · intro h
    by_contra hb
    simp [hb] at h
  · intro h
    rw [if_pos h]
    intro h0
    have hpow := BitVec.toNat_twoPow_of_lt hbit
    rw [h0] at hpow
    exact absurd hpow.symm (Nat.two_pow_pos bit).ne'

/-- The inner loop, `n` bits in. -/
theorem foldl_jumpBit (jump : BitVec 64) (p : Xoshiro × Xoshiro) {n : ℕ} (hn : n ≤ 64) :
    (List.range n).foldl (jumpBit jump) p =
      (p.1 + evalBits step (jump.toNat % 2 ^ n) p.2, (step ^ n) p.2) := by
  induction n with
  | zero => simp [Nat.mod_one]
  | succ n ih =>
    have happly : ∀ f g : AddMonoid.End Xoshiro, (f + g) p.2 = f p.2 + g p.2 := fun _ _ => rfl
    have hnext : (step ^ (n + 1)) p.2 = ((step ^ n) p.2).next := by
      rw [pow_succ']
      rfl
    rw [List.range_succ, List.foldl_append, ih (by omega), evalBits_mod_succ, happly, hnext]
    change (if _ then _ else _, _) = _
    congr 1
    by_cases hb : jump.toNat.testBit n = true
    · rw [if_pos ((testBit_iff jump (by omega)).mpr hb), if_pos hb, ← add_assoc]
      rfl
    · rw [if_neg (fun h => hb ((testBit_iff jump (by omega)).mp h)), if_neg hb]
      simp

/-- One word of the jump is the polynomial of its bits at the step. -/
theorem jumpWord_eq (jump : BitVec 64) (p : Xoshiro × Xoshiro) :
    jumpWord p jump = (p.1 + evalBits step jump.toNat p.2, (step ^ 64) p.2) := by
  rw [jumpWord, foldl_jumpBit jump p (le_refl 64), Nat.mod_eq_of_lt jump.isLt]

/-- The jump is the polynomial of all its words at the step. -/
theorem foldl_jumpWord (jumpArray : List (BitVec 64)) (p : Xoshiro × Xoshiro) :
    (jumpArray.foldl jumpWord p).1 = p.1 + evalBits step (packWords jumpArray) p.2 := by
  induction jumpArray generalizing p with
  | nil => simp
  | cons jump rest ih =>
    have hsplit : evalBits step (packWords (jump :: rest)) =
        evalBits step jump.toNat + step ^ 64 * evalBits step (packWords rest) := by
      have happend := evalBits_append step jump.toNat (packWords rest) 64
      rwa [Nat.mod_eq_of_lt jump.isLt] at happend
    have hcomm := ((commute_evalBits step (packWords rest)).pow_left 64).eq
    rw [List.foldl_cons, ih, jumpWord_eq, hsplit, hcomm, add_assoc]
    rfl

/-- **`jump_impl` is a polynomial of the step.** -/
theorem jumpImpl_eq (jumpArray : List (BitVec 64)) (x : Xoshiro) :
    jumpImpl jumpArray x = evalBits step (packWords jumpArray) x := by
  rw [jumpImpl, foldl_jumpWord]
  exact zero_add _

end Xoshiro

end Libfork.Random
