import Libfork.Found.BitPoly
import Mathlib.Data.Finset.Card
import Mathlib.GroupTheory.OrderOfElement
import Mathlib.Tactic.Ring

/-!
# Endomorphisms of full period

Let `t` be a root of a polynomial of degree `d` over two elements. If `t` has the order
`2 ^ d - 1`, which is as large as it can be, then its powers are all that polynomials of `t` can
be but zero.

* `product`, `squarings`, `power` — the arithmetic of `BitPoly` for long computations in the kernel.
* `Separated`, `separates` — pairs of powers of `t` that differ, and how the kernel can find that.
* `exists_pow_eq` — every value of a polynomial at `t` is zero or a power of `t`;
  **`pow_apply_eq_iff`** — an endomorphism of order `2 ^ d - 1` moves every vector but zero around
  one cycle.

Nothing here is about a particular program.
-/

namespace Libfork.Found

/-! ### Arithmetic for the kernel -/

/-- `mulMod`, with `top` for `2 ^ d`. The recursor and the functions of numbers are the ones that
the kernel knows. -/
def product (m top n : ℕ) : ℕ → ℕ → ℕ → ℕ :=
  Nat.rec (fun _ _ acc => acc) (fun _ ih a b acc =>
    eager (Nat.xor (Nat.add a a) (Nat.mul m (Nat.mod (Nat.div (Nat.add a a) top) 2))) fun a' =>
    eager (Nat.xor acc (Nat.mul a (Nat.mod b 2))) fun acc' => ih a' (Nat.div b 2) acc') n

/-- `a` squared `n` times modulo `m`. -/
def squarings (m top d n : ℕ) : ℕ → ℕ :=
  Nat.rec (fun a => a) (fun _ ih a => eager (product m top d a a 0) ih) n

/-- `acc * a ^ k` modulo `m`, from the lowest `n` bits of `k`. -/
def power (m top d n : ℕ) : ℕ → ℕ → ℕ → ℕ :=
  Nat.rec (fun _ _ acc => acc) (fun _ ih a k acc =>
    eager (if Nat.mod k 2 = 1 then product m top d a acc 0 else acc) fun acc' =>
    eager (product m top d a a 0) fun a' => ih a' (Nat.div k 2) acc') n

/-- The product that evaluates first is the product. -/
theorem product_eq (m d n a b acc : ℕ) :
    product m (2 ^ d) n a b acc = mulMod m d n a b acc := by
  induction n generalizing a b acc with
  | zero => rfl
  | succ n ih =>
    have hstep : product m (2 ^ d) (n + 1) a b acc =
        eager (a + a ^^^ m * ((a + a) / 2 ^ d % 2)) fun a' =>
        eager (acc ^^^ a * (b % 2)) fun acc' => product m (2 ^ d) n a' (b / 2) acc' := rfl
    rw [hstep, mulMod, eager_eq, eager_eq, eager_eq, eager_eq, ih, timesX, two_mul]

/-- One squaring more. -/
theorem squarings_succ (m top d n a : ℕ) :
    squarings m top d (n + 1) a = squarings m top d n (product m top d a a 0) := eager_eq _ _

/-- One bit more of the exponent. -/
theorem power_succ (m top d n a k acc : ℕ) :
    power m top d (n + 1) a k acc = power m top d n (product m top d a a 0) (k / 2)
      (if k % 2 = 1 then product m top d a acc 0 else acc) := by
  have hstep : power m top d (n + 1) a k acc =
      eager (if k % 2 = 1 then product m top d a acc 0 else acc) fun acc' =>
      eager (product m top d a a 0) fun a' => power m top d n a' (k / 2) acc' := rfl
  rw [hstep, eager_eq, eager_eq]

section Root

variable {A : Type*} [Semiring A] (hA : ∀ a : A, a + a = 0) {t : A} {m d : ℕ}

/-- The number is a polynomial of degree less than `d`, with the value `x` at `t`. -/
def Stands (t : A) (d a : ℕ) (x : A) : Prop := a < 2 ^ d ∧ evalBits t a = x

variable (hroot : evalBits t m = 0) (hm : m < 2 ^ (d + 1)) (hd : m.testBit d) {a b k n : ℕ}
  {x y : A}

/-- The number 1 stands for the identity. -/
theorem Stands.one (t : A) (hd : d ≠ 0) : Stands t d 1 1 :=
  ⟨Nat.one_lt_two_pow hd, evalBits_one t⟩

include hA hroot hm hd

/-- The product of two numbers stands for the product. -/
theorem Stands.product (ha : Stands t d a x) (hb : Stands t d b y) :
    Stands t d (product m (2 ^ d) d a b 0) (x * y) := by
  obtain ⟨halt, rfl⟩ := ha
  obtain ⟨hblt, rfl⟩ := hb
  rw [product_eq]
  refine ⟨mulMod_lt hm hd d halt (Nat.two_pow_pos d), ?_⟩
  rw [evalBits_mulMod hA t hroot d a b 0 hblt, evalBits_zero, zero_add]

/-- Repeated squaring stands for a power of two powers. -/
theorem Stands.squarings (ha : Stands t d a x) (n : ℕ) :
    Stands t d (squarings m (2 ^ d) d n a) (x ^ 2 ^ n) := by
  induction n generalizing a x with
  | zero => rwa [pow_zero, pow_one]
  | succ n ih =>
    rw [squarings_succ, pow_succ', pow_mul, pow_two]
    exact ih (ha.product hA hroot hm hd ha)

/-- Fast exponentiation stands for the power. -/
theorem Stands.power (ha : Stands t d a x) (hb : Stands t d b y) (hk : k < 2 ^ n) :
    Stands t d (power m (2 ^ d) d n a k b) (x ^ k * y) := by
  induction n generalizing a b k x y with
  | zero =>
    obtain rfl : k = 0 := by simpa using hk
    rwa [pow_zero, one_mul]
  | succ n ih =>
    have hhalf : k / 2 < 2 ^ n := by
      rw [pow_succ] at hk
      omega
    have hsq := ha.product hA hroot hm hd ha
    rw [power_succ]
    rcases Nat.mod_two_eq_zero_or_one k with h | h
    · have hpow : x ^ k * y = (x * x) ^ (k / 2) * y := by
        rw [← pow_two, ← pow_mul, show 2 * (k / 2) = k by omega]
      rw [if_neg (by omega), hpow]
      exact ih hsq hb hhalf
    · have hpow : x ^ k * y = (x * x) ^ (k / 2) * (x * y) := by
        rw [← pow_two, ← pow_mul, ← mul_assoc, ← pow_succ, show 2 * (k / 2) + 1 = k by omega]
      rw [if_pos h, hpow]
      exact ih hsq (ha.product hA hroot hm hd hb) hhalf

/-! ### Powers that differ -/

omit hA hroot hm hd

/-- For the levels `(s, ks)` one after the other: the power `k` of `t ^ M` is not left alone by `s`
squarings, for `k` in `ks`; and the next level begins with `t ^ (M * (2 ^ s + 1))`. At the end
there is one. -/
def Separated (t : A) : ℕ → List (ℕ × List ℕ) → Prop
  | M, [] => t ^ M = 1
  | M, (s, ks) :: levels =>
    (∀ k ∈ ks, t ^ (M * k) ≠ t ^ (M * 2 ^ s * k)) ∧ Separated t (M * (2 ^ s + 1)) levels

/-- The test of that for a polynomial `c` of value `t ^ M`, where `sep` tells two polynomials
apart. -/
def separates (sep : ℕ → ℕ → Bool) (m top d : ℕ) : List (ℕ × List ℕ) → ℕ → Bool
  | [], c => c == 1
  | (s, ks) :: levels, c =>
    eager (squarings m top d s c) fun c' =>
      ks.all (fun k => eager (power m top d (k.log2 + 1) c k 1) fun a =>
        eager (power m top d (k.log2 + 1) c' k 1) (sep a)) &&
      eager (product m top d c' c 0) (separates sep m top d levels)

include hA hroot hm hd

/-- The test finds the powers separated. -/
theorem separated_of_separates {sep : ℕ → ℕ → Bool}
    (hsep : ∀ a b, sep a b = true → evalBits t a ≠ evalBits t b) {levels : List (ℕ × List ℕ)}
    {c M : ℕ} (hpos : d ≠ 0) (hc : Stands t d c (t ^ M))
    (h : separates sep m (2 ^ d) d levels c = true) :
    Separated t M levels := by
  induction levels generalizing c M with
  | nil =>
    change t ^ M = 1
    rw [← hc.2, beq_iff_eq.mp h, evalBits_one]
  | cons level levels ih =>
    obtain ⟨s, ks⟩ := level
    simp only [separates, eager_eq, Bool.and_eq_true, List.all_eq_true] at h
    have hc' := hc.squarings hA hroot hm hd s
    rw [← pow_mul] at hc'
    constructor
    · intro k hk
      have hk' : k < 2 ^ (k.log2 + 1) := Nat.lt_log2_self
      have ha := (hc.power hA hroot hm hd (.one t hpos) hk').2
      have hb := (hc'.power hA hroot hm hd (.one t hpos) hk').2
      rw [mul_one, ← pow_mul] at ha hb
      rw [← ha, ← hb]
      exact hsep _ _ (h.1 k hk)
    · have hnext := hc'.product hA hroot hm hd hc
      rw [← pow_add, ← Nat.mul_succ] at hnext
      exact ih hnext h.2

omit hA hroot hm hd in
/-- What squarings do not leave alone is not one to the power of their number less one. -/
theorem pow_ne_one_of_separated {M s k : ℕ} (h : t ^ (M * k) ≠ t ^ (M * 2 ^ s * k)) :
    t ^ ((2 ^ s - 1) * (M * k)) ≠ 1 := by
  intro hone
  apply h
  have hsplit : M * 2 ^ s * k = (2 ^ s - 1) * (M * k) + M * k := by
    obtain ⟨q, hq⟩ : ∃ q, 2 ^ s = q + 1 :=
      ⟨2 ^ s - 1, (Nat.sub_add_cancel (Nat.two_pow_pos s)).symm⟩
    rw [hq, Nat.add_sub_cancel]
    ring
  rw [hsplit, pow_add, hone, one_mul]

/-! ### Full period -/

/-- Every power has a number that stands for it. -/
theorem exists_stands_pow (hpos : d ≠ 0) (n : ℕ) : ∃ a, Stands t d a (t ^ n) := by
  induction n with
  | zero =>
    rw [pow_zero]
    exact ⟨1, .one t hpos⟩
  | succ n ih =>
    obtain ⟨a, ha, heq⟩ := ih
    refine ⟨timesX m d a, timesX_lt hm hd ha, ?_⟩
    rw [evalBits_timesX hA t hroot, heq, pow_succ']

/-- **A polynomial of `t` is zero or a power of `t`.** There are no more polynomials than that. -/
theorem exists_pow_eq (hpos : d ≠ 0) (hone : (1 : A) ≠ 0) (horder : orderOf t = 2 ^ d - 1)
    (ha : a < 2 ^ d) (hne : evalBits t a ≠ 0) : ∃ n, evalBits t a = t ^ n := by
  classical
  have hcard : ((Finset.range (2 ^ d - 1)).image (t ^ ·)).card = 2 ^ d - 1 := by
    rw [Finset.card_image_of_injOn, Finset.card_range]
    intro i hi j hj heq
    rw [Finset.coe_range, ← horder] at hi hj
    exact pow_injOn_Iio_orderOf hi hj heq
  have hzero : (0 : A) ∉ (Finset.range (2 ^ d - 1)).image (t ^ ·) := by
    intro hmem
    obtain ⟨n, hn, hpow⟩ := Finset.mem_image.mp hmem
    rw [Finset.mem_range, ← horder] at hn
    apply hone
    rw [← pow_orderOf_eq_one t, ← Nat.sub_add_cancel hn.le, pow_add, hpow, mul_zero]
  have hsub : insert 0 ((Finset.range (2 ^ d - 1)).image (t ^ ·)) ⊆
      (Finset.range (2 ^ d)).image (evalBits t) := by
    intro x hx
    rw [Finset.mem_image]
    rcases Finset.mem_insert.mp hx with rfl | hx
    · exact ⟨0, Finset.mem_range.mpr (Nat.two_pow_pos d), evalBits_zero t⟩
    · obtain ⟨n, -, rfl⟩ := Finset.mem_image.mp hx
      obtain ⟨b, hb, heq⟩ := exists_stands_pow hA hroot hm hd hpos n
      exact ⟨b, Finset.mem_range.mpr hb, heq⟩
  have hall : insert 0 ((Finset.range (2 ^ d - 1)).image (t ^ ·)) =
      (Finset.range (2 ^ d)).image (evalBits t) := by
    apply Finset.eq_of_subset_of_card_le hsub
    rw [Finset.card_insert_of_notMem hzero, hcard, Nat.sub_add_cancel (Nat.two_pow_pos d)]
    exact Finset.card_image_le.trans_eq (Finset.card_range _)
  have hmem : evalBits t a ∈ (Finset.range (2 ^ d)).image (evalBits t) :=
    Finset.mem_image_of_mem _ (Finset.mem_range.mpr ha)
  rw [← hall] at hmem
  obtain ⟨n, -, hn⟩ := Finset.mem_image.mp ((Finset.mem_insert.mp hmem).resolve_left hne)
  exact ⟨n, hn.symm⟩

end Root

section Cycle

variable {V : Type*} [AddCommMonoid V] (hV : ∀ v : V, v + v = 0) {T : AddMonoid.End V} {m d : ℕ}
  (hroot : evalBits T m = 0) (hm : m < 2 ^ (d + 1)) (hd : m.testBit d) (hpos : d ≠ 0)
  (horder : orderOf T = 2 ^ d - 1) {v : V}

include hV hroot hm hd hpos horder

/-- **All vectors but zero are on cycles of full length.** -/
theorem pow_apply_eq_iff (hv : v ≠ 0) (n : ℕ) : (T ^ n) v = v ↔ 2 ^ d - 1 ∣ n := by
  have hA : ∀ f : AddMonoid.End V, f + f = 0 := by
    intro f
    ext1 x
    exact hV (f x)
  have hone : (1 : AddMonoid.End V) ≠ 0 := fun heq => hv (congrArg (fun f => f v) heq)
  rw [← horder, orderOf_dvd_iff_pow_eq_one]
  constructor
  case mpr =>
    intro hpow
    rw [hpow]
    rfl
  case mp =>
    intro hfix
    by_contra hne
    -- The endomorphism that maps `v` to zero would be a power of `T`.
    obtain ⟨a, ha, heq⟩ := exists_stands_pow hA hroot hm hd hpos n
    have hsum : evalBits T (a ^^^ 1) = T ^ n + 1 := by
      rw [evalBits_xor hA, heq, evalBits_one]
    have hsum_ne : evalBits T (a ^^^ 1) ≠ 0 := by
      intro hzero
      rw [hsum] at hzero
      apply hne
      calc T ^ n = T ^ n + (1 + 1) := by rw [hA 1, add_zero]
        _ = 1 := by rw [← add_assoc, hzero, zero_add]
    obtain ⟨j, hj⟩ := exists_pow_eq hA hroot hm hd hpos hone horder
      (Nat.xor_lt_two_pow ha (Nat.one_lt_two_pow hpos)) hsum_ne
    have hkill : (T ^ j) v = 0 := by
      rw [← hj, hsum]
      change (T ^ n) v + v = 0
      rw [hfix, hV]
    have hle : j ≤ orderOf T * j := by
      have htwo : 1 < 2 ^ d := Nat.one_lt_two_pow hpos
      rw [horder]
      exact Nat.le_mul_of_pos_left j (by omega)
    apply hv
    calc v = (T ^ (orderOf T * j)) v := by rw [pow_mul, pow_orderOf_eq_one, one_pow]; rfl
      _ = (T ^ (orderOf T * j - j) * T ^ j) v := by rw [← pow_add, Nat.sub_add_cancel hle]
      _ = (T ^ (orderOf T * j - j)) ((T ^ j) v) := rfl
      _ = 0 := by rw [hkill, map_zero]

end Cycle

end Libfork.Found
