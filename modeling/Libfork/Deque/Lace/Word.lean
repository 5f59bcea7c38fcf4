import Mathlib.Algebra.Ring.Int.Defs
import Mathlib.Algebra.Ring.Nat
import Mathlib.Tactic.Common

/-!
# The packed word of `lace_deque`, and its masked indices

`lace_deque` keeps `top` and `split`, two 32-bit indices, in one 64-bit atomic (`top` in the low
half: the layout is little endian), and moves the split by adding to and subtracting from the
high half of the word.

* `pack`, `unpack` — `std::bit_cast` between `split_state` and `uint64_t`.
* `onSplit d` — `static_cast<uint64_t>(d) << k_split_shift`, the operand of every `fetch_add` and
  `fetch_sub` on the word; **`pack_sub_onSplit`, `pack_add_onSplit`**: the read-modify-writes
  move the split alone, whatever the operands, and never borrow from or carry out of `top`.
* `midpoint`, `correctedSplit`, `growDiff` — the index computations of `shrink_shared` and
  `grow_shared`, in the source's unsigned arithmetic, with their values where nothing wraps.
* `Capacity` — a capacity that the constructor accepts: a power of two within `uint32_t`.
* `maskIndex` — `mask_index`, the slot of an index; `maskIndex_eq_mod`.

Source: `deque_lace.hpp`, class `lace_deque` and its constructor.
-/

namespace Libfork.Deque.Lace

/-! ## `split_state` -/

/-- The two halves of the packed word. Source: `deque_lace.hpp`, `split_state` -/
structure SplitState where
  /-- The next index to steal. -/
  top : BitVec 32
  /-- One past the last shared index. -/
  split : BitVec 32
deriving DecidableEq, Repr

/-- `static constexpr uint64_t k_split_shift`. Source: `deque_lace.hpp` -/
def kSplitShift : ℕ := 32

/-- `std::bit_cast<uint64_t>(split_state{t, s})` on a little endian machine.
Source: `deque_lace.hpp`, `pack` -/
def pack (t s : BitVec 32) : BitVec 64 := s ++ t

/-- `std::bit_cast<split_state>(v)`. Source: `deque_lace.hpp`, `unpack` -/
def unpack (v : BitVec 64) : SplitState where
  top := v.extractLsb' 0 32
  split := v.extractLsb' 32 32

/-- `static_cast<uint64_t>(d) << k_split_shift`.
Source: `deque_lace.hpp`, `shrink_shared` and `grow_shared` -/
def onSplit (d : BitVec 32) : BitVec 64 := d.setWidth 64 <<< kSplitShift

/-- The two halves of a packed word. -/
@[simp] theorem unpack_pack (t s : BitVec 32) : unpack (pack t s) = ⟨t, s⟩ := by
  unfold unpack pack
  rw [BitVec.extractLsb'_append_eq_right]
  congr 1
  exact BitVec.extractLsb'_append_eq_left

/-- A word is packed from its halves. -/
theorem pack_unpack (v : BitVec 64) : pack (unpack v).top (unpack v).split = v := by
  unfold unpack pack
  have h : v.extractLsb' 32 32 ++ v.extractLsb' 0 32 = v :=
    BitVec.extractLsb'_append_extractLsb'
  exact h

/-- A packed word as a number. -/
theorem toNat_pack (t s : BitVec 32) : (pack t s).toNat = s.toNat * 2 ^ 32 + t.toNat := by
  unfold pack
  rw [BitVec.toNat_append, ← Nat.shiftLeft_add_eq_or_of_lt t.isLt, Nat.shiftLeft_eq]

/-- A difference on the upper half. -/
theorem toNat_onSplit (d : BitVec 32) : (onSplit d).toNat = d.toNat * 2 ^ 32 := by
  have hd := d.isLt
  unfold onSplit kSplitShift
  rw [BitVec.toNat_shiftLeft, BitVec.toNat_setWidth_of_le (by omega), Nat.shiftLeft_eq]
  omega

/-- `fetch_sub` of a shifted operand moves the split down and leaves the top alone. -/
theorem pack_sub_onSplit (t s d : BitVec 32) : pack t s - onSplit d = pack t (s - d) := by
  apply BitVec.eq_of_toNat_eq
  have ht := t.isLt
  have hs := s.isLt
  have hd := d.isLt
  rw [BitVec.toNat_sub, toNat_pack, toNat_pack, toNat_onSplit, BitVec.toNat_sub]
  omega

/-- `fetch_add` of a shifted operand moves the split up and leaves the top alone. -/
theorem pack_add_onSplit (t s d : BitVec 32) : pack t s + onSplit d = pack t (s + d) := by
  apply BitVec.eq_of_toNat_eq
  have ht := t.isLt
  have hs := s.isLt
  have hd := d.isLt
  rw [BitVec.toNat_add, toNat_pack, toNat_pack, toNat_onSplit, BitVec.toNat_add]
  omega

/-- Subtracting from the upper half moves the split. -/
@[simp] theorem unpack_sub_onSplit (v : BitVec 64) (d : BitVec 32) :
    unpack (v - onSplit d) = ⟨(unpack v).top, (unpack v).split - d⟩ := by
  conv_lhs => rw [← pack_unpack v]
  rw [pack_sub_onSplit, unpack_pack]

/-- Adding to it moves it back. -/
@[simp] theorem unpack_add_onSplit (v : BitVec 64) (d : BitVec 32) :
    unpack (v + onSplit d) = ⟨(unpack v).top, (unpack v).split + d⟩ := by
  conv_lhs => rw [← pack_unpack v]
  rw [pack_add_onSplit, unpack_pack]

/-! ## The computations on indices -/

/-- `top + ((split - top) >> 1U)`. Source: `deque_lace.hpp`, `shrink_shared` -/
def midpoint (top split : BitVec 32) : BitVec 32 := top + (split - top) >>> 1

/-- `static_cast<uint32_t>((static_cast<uint64_t>(fresh_t) + static_cast<uint64_t>(split)) >> 1U)`.
Source: `deque_lace.hpp`, `shrink_shared` -/
def correctedSplit (fresh split : BitVec 32) : BitVec 32 :=
  ((fresh.setWidth 64 + split.setWidth 64) >>> 1).setWidth 32

/-- `(bot - split + 1U) >> 1U`. Source: `deque_lace.hpp`, `grow_shared` -/
def growDiff (bot split : BitVec 32) : BitVec 32 := (bot - split + 1) >>> 1

/-- The midpoint, where the word does not wrap. -/
theorem toNat_midpoint {top split : BitVec 32} (h : top.toNat ≤ split.toNat) :
    (midpoint top split).toNat = top.toNat + (split.toNat - top.toNat) / 2 := by
  have ht := top.isLt
  have hs := split.isLt
  unfold midpoint
  rw [BitVec.toNat_add, BitVec.toNat_ushiftRight, BitVec.toNat_sub, Nat.shiftRight_eq_div_pow]
  omega

/-- The corrected split. -/
theorem toNat_correctedSplit (fresh split : BitVec 32) :
    (correctedSplit fresh split).toNat = (fresh.toNat + split.toNat) / 2 := by
  have hf := fresh.isLt
  have hs := split.isLt
  unfold correctedSplit
  rw [BitVec.toNat_setWidth, BitVec.toNat_ushiftRight, BitVec.toNat_add,
    BitVec.toNat_setWidth_of_le (by omega), BitVec.toNat_setWidth_of_le (by omega),
    Nat.shiftRight_eq_div_pow]
  omega

/-- Half of the private items, rounded up. -/
theorem toNat_growDiff {bot split : BitVec 32} (h : split.toNat ≤ bot.toNat)
    (hlt : bot.toNat - split.toNat < 2 ^ 32 - 1) :
    (growDiff bot split).toNat = (bot.toNat - split.toNat + 1) / 2 := by
  have hb := bot.isLt
  have hs := split.isLt
  unfold growDiff
  rw [BitVec.toNat_ushiftRight, BitVec.toNat_add, BitVec.toNat_sub, Nat.shiftRight_eq_div_pow]
  simp only [BitVec.ofNat_eq_ofNat, BitVec.toNat_ofNat]
  omega

/-- The signed comparison of `steal`, on a top at most `2^31` past the split. -/
theorem lt_of_toInt_sub_pos {t s : BitVec 32} (hle : t.toNat ≤ s.toNat + 2 ^ 31)
    (h : 0 < (s - t).toInt) : t.toNat < s.toNat := by
  have ht := t.isLt
  have hs := s.isLt
  rw [BitVec.toInt_eq_toNat_cond, BitVec.toNat_sub] at h
  split at h <;> omega

/-- A small index is its own value. -/
theorem toNat_ofInt_of_lt {i : ℤ} (h₀ : 0 ≤ i) (h : i < 2 ^ 32) :
    (BitVec.ofInt 32 i).toNat = i.toNat := by
  rw [BitVec.toNat_ofInt]
  omega

/-! ## Capacities and slots -/

/-- A capacity that the constructor accepts: a power of two (`(cap & (cap - 1)) == 0`) that fits
in `uint32_t` and for which memory was obtained, so not zero.
Source: `deque_lace.hpp`, `lace_deque::lace_deque` -/
structure Capacity where
  /-- Its binary logarithm. -/
  log2 : ℕ
  /-- It is at most `std::numeric_limits<uint32_t>::max()`. -/
  le_u32 : 2 ^ log2 ≤ 2 ^ 32 - 1

namespace Capacity

/-- The number of slots, `m_capacity`. -/
def val (cap : Capacity) : ℕ := 2 ^ cap.log2

/-- A capacity has an exponent below 32. -/
theorem log2_lt (cap : Capacity) : cap.log2 < 32 := by
  by_contra h
  have h₁ : 2 ^ 32 ≤ 2 ^ cap.log2 := Nat.pow_le_pow_right (by omega) (by omega)
  have h₂ := cap.le_u32
  omega

/-- A capacity is positive. -/
theorem val_pos (cap : Capacity) : 0 < cap.val := Nat.two_pow_pos _

/-- A capacity is `2 ^ 31` at most. -/
theorem val_le (cap : Capacity) : cap.val ≤ 2 ^ 31 :=
  Nat.pow_le_pow_right (by omega) (by have := cap.log2_lt; omega)

/-- A capacity divides `2 ^ 32`. -/
theorem val_dvd (cap : Capacity) : cap.val ∣ 2 ^ 32 :=
  Nat.pow_dvd_pow 2 (Nat.le_of_lt cap.log2_lt)

end Capacity

/-- One slot. -/
def oneSlot : Capacity := ⟨0, by decide⟩

/-- Two slots. -/
def twoSlots : Capacity := ⟨1, by decide⟩

/-- `static_cast<std::size_t>(idx) & static_cast<std::size_t>(m_mask)`.
Source: `deque_lace.hpp`, `mask_index` -/
def maskIndex (cap : Capacity) (idx : ℤ) : ℕ :=
  (BitVec.ofInt 64 idx &&& BitVec.ofInt 64 (cap.val - 1)).toNat

/-- For a power of two the mask is the remainder. -/
theorem maskIndex_eq_mod (cap : Capacity) (i : ℕ) : maskIndex cap i = i % cap.val := by
  have hle := cap.val_le
  have hpos := cap.val_pos
  have hmask : (BitVec.ofInt 64 ((cap.val : ℤ) - 1)).toNat = cap.val - 1 := by
    rw [BitVec.toNat_ofInt]
    omega
  have hidx : (BitVec.ofInt 64 (i : ℤ)).toNat = i % 2 ^ 64 := by
    rw [BitVec.toNat_ofInt]
    omega
  have hdvd : 2 ^ cap.log2 ∣ 2 ^ 64 := Nat.pow_dvd_pow 2 (by have := cap.log2_lt; omega)
  unfold maskIndex
  rw [BitVec.toNat_and, hidx, hmask, Capacity.val, Nat.and_two_pow_sub_one_eq_mod,
    Nat.mod_mod_of_dvd i hdvd]

/-- Indices are masked alike before and after they are cut to 32 bits. -/
theorem maskIndex_ofNat (cap : Capacity) (i : ℕ) :
    maskIndex cap (BitVec.ofNat 32 i).toNat = i % cap.val := by
  rw [maskIndex_eq_mod, BitVec.toNat_ofNat, Nat.mod_mod_of_dvd i cap.val_dvd]

/-- Below the capacity the mask changes nothing. -/
theorem maskIndex_of_lt (cap : Capacity) {i : ℕ} (hi : i < cap.val) : maskIndex cap i = i := by
  rw [maskIndex_eq_mod cap i, Nat.mod_eq_of_lt hi]

end Libfork.Deque.Lace
