import Libfork.Found.BitPoly
import Mathlib.NumberTheory.LucasPrimality

/-!
# Lucas's test

A number `p` is prime if some `a` has the order `p - 1` modulo `p`. With the prime factors of
`p - 1` the kernel can test that.

* `powMod` — a power modulo a number, from the lowest bit of the exponent up.
* `lucas` — the test; **`prime_of_lucas`** — what passes it is prime, if the factors are.

Nothing here is about a particular program.
-/

namespace Libfork.Found

/-- `acc * a ^ k` modulo `p`, from the lowest `n` bits of `k`. -/
def powMod (p : ℕ) : ℕ → ℕ → ℕ → ℕ → ℕ
  | 0, _, _, acc => acc
  | n + 1, a, k, acc =>
    eager (a * a % p) fun a' =>
    eager (if k % 2 = 1 then acc * a % p else acc) fun acc' => powMod p n a' (k / 2) acc'

/-- Fast exponentiation is exponentiation. -/
theorem cast_powMod (p n a k acc : ℕ) (hk : k < 2 ^ n) :
    (powMod p n a k acc : ZMod p) = acc * (a : ZMod p) ^ k := by
  induction n generalizing a k acc with
  | zero =>
    obtain rfl : k = 0 := by simpa using hk
    simp [powMod]
  | succ n ih =>
    have hhalf : k / 2 < 2 ^ n := by
      rw [pow_succ] at hk
      omega
    have hsq : ((a * a % p : ℕ) : ZMod p) ^ (k / 2) = (a : ZMod p) ^ (2 * (k / 2)) := by
      rw [ZMod.natCast_mod, Nat.cast_mul, ← pow_two, ← pow_mul]
    rw [powMod, eager_eq, eager_eq, ih _ _ _ hhalf, hsq]
    rcases Nat.mod_two_eq_zero_or_one k with h | h
    · rw [if_neg (by omega), show 2 * (k / 2) = k by omega]
    · rw [if_pos h, ZMod.natCast_mod, Nat.cast_mul, mul_assoc, ← pow_succ',
        show 2 * (k / 2) + 1 = k by omega]

/-- Lucas's test of `p` at `a`, with the prime factors of `p - 1`. -/
def lucas (p a : ℕ) (factors : List ℕ) : Bool :=
  1 < p && factors.prod ^ p.log2 % (p - 1) == 0 &&
    powMod p (p.log2 + 1) a (p - 1) 1 % p == 1 &&
    factors.all fun q => powMod p (p.log2 + 1) a ((p - 1) / q) 1 % p != 1

/-- **What passes the test is prime.** -/
theorem prime_of_lucas {p : ℕ} (a : ℕ) (factors : List ℕ) (hfactors : ∀ q ∈ factors, q.Prime)
    (h : lucas p a factors = true) : p.Prime := by
  simp only [lucas, Bool.and_eq_true, decide_eq_true_eq, beq_iff_eq, List.all_eq_true,
    bne_iff_ne] at h
  obtain ⟨⟨⟨hp, hprod⟩, hfull⟩, hpart⟩ := h
  have hpow : ∀ k ≤ p - 1, (powMod p (p.log2 + 1) a k 1 % p = 1 ↔ (a : ZMod p) ^ k = 1) := by
    intro k hk
    have hlt : k < 2 ^ (p.log2 + 1) := lt_of_le_of_lt (hk.trans (Nat.sub_le p 1)) Nat.lt_log2_self
    have hcast := cast_powMod p _ a k 1 hlt
    rw [Nat.cast_one, one_mul] at hcast
    have hiff := ZMod.natCast_eq_natCast_iff' (powMod p (p.log2 + 1) a k 1) 1 p
    rw [hcast, Nat.cast_one, Nat.one_mod_eq_one.mpr (by omega)] at hiff
    exact hiff.symm
  refine lucas_primality p a ((hpow _ le_rfl).mp hfull) fun q hq hdvd hone => ?_
  have hmem := hq.dvd_of_dvd_pow (hdvd.trans (Nat.dvd_of_mod_eq_zero hprod))
  obtain ⟨r, hr, hqr⟩ := (Prime.dvd_prod_iff hq.prime).mp hmem
  obtain rfl : q = r := (Nat.prime_dvd_prime_iff_eq hq (hfactors r hr)).mp hqr
  exact hpart q hr ((hpow _ (Nat.div_le_self _ _)).mpr hone)

end Libfork.Found
