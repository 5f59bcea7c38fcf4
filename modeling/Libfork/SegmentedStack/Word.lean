import Libfork.Found.RoundUp

/-!
# The `size_t` computations of the segmented stack

Sizes are 64-bit words, so every sum below is taken modulo `2 ^ 64`.

* `extSize` — a request rounded up to the alignment.
* `roundUpToPageSize`, `request` — what is asked of `malloc` for a stacklet with room for `n`
  bytes.
* **`le_request`** — up to `n = 2 ^ 64 - 96` the header and the room fit; `request_wraps` — above
  that only one page is asked for.

Source: `stack.hpp`, `round_up_to_page_size`, `stacklet::next_stacklet`, `stack::allocate`;
`utility.hpp`, `k_new_align`.
-/

namespace Libfork.SegmentedStack

open Libfork.Found

/-- `std::size_t`. -/
abbrev Size := BitVec 64

/-- The alignment of `operator new`, on a platform with 64-bit pointers.
Source: `utility.hpp`, `k_new_align` -/
def kNewAlign : Size := 16

/-- Five pointers, aligned to `k_new_align`. Source: `stack.hpp`, `class stacklet` -/
def sizeofStacklet : Size := 48

/-- Source: `stack.hpp`, `page_size` -/
def pageSize : Size := 4096

/-- `6 * sizeof(void *)`. Source: `stack.hpp`, `malloc_meta_data_size` -/
def mallocMetaDataSize : Size := 48

/-- Source: `stack.hpp`, `LF_FIBRE_INIT_SIZE` -/
def kFibreInitSize : Size := 1

/-- Source: `stack.hpp`, `round_up_to_page_size` -/
def roundUpToPageSize (size : Size) : Size :=
  let minimum := size + mallocMetaDataSize
  let rounded := (minimum + pageSize - 1) &&& ~~~(pageSize - 1)
  rounded - mallocMetaDataSize

/-- The argument of the `malloc` of a stacklet. Source: `stack.hpp`, `next_stacklet` -/
def request (size : Size) : Size := roundUpToPageSize (size + sizeofStacklet)

/-- A request rounded up to the alignment. Source: `stack.hpp`, `allocate` -/
def extSize (size : Size) : Size := (size + kNewAlign - 1) &&& ~~~(kNewAlign - 1)

/-- The number of bytes a block of `n` bytes takes. -/
def padded (n : ℕ) : ℕ := (n + 15) / 16 * 16

/-- Padding only adds. -/
theorem le_padded (n : ℕ) : n ≤ padded n := by
  unfold padded
  omega

/-- A padded size is a multiple of 16. -/
theorem dvd_padded (n : ℕ) : 16 ∣ padded n := Nat.dvd_mul_left _ _

/-- A block is rounded up to 16 bytes. -/
theorem extSize_eq (size : Size) : extSize size = roundUp 4 size := rfl

/-- A request to `malloc` is rounded up to pages, less what `malloc` keeps for itself. -/
theorem request_eq (size : Size) :
    request size = roundUp 12 (size + sizeofStacklet + mallocMetaDataSize) - mallocMetaDataSize :=
  rfl

/-- The rounding does not wrap for sizes that are not next to `2 ^ 64`. -/
theorem toNat_extSize {size : Size} (hs : size.toNat + 96 ≤ 2 ^ 64) :
    (extSize size).toNat = padded size.toNat := by
  rw [extSize_eq, toNat_roundUp (by decide), Nat.mod_eq_of_lt (by omega)]
  rfl

/-- The padded size is within the same bound. -/
theorem extSize_le {size : Size} (hs : size.toNat + 96 ≤ 2 ^ 64) :
    (extSize size).toNat + 96 ≤ 2 ^ 64 := by
  rw [toNat_extSize hs]
  unfold padded
  omega

/-! ## The size of a stacklet -/

/-- A size with its header and what `malloc` keeps for itself, modulo `2 ^ 64`. -/
theorem toNat_header (size : Size) :
    (size + sizeofStacklet + mallocMetaDataSize).toNat = (size.toNat + 96) % 2 ^ 64 := by
  have hs : sizeofStacklet.toNat = 48 := rfl
  have hm : mallocMetaDataSize.toNat = 48 := rfl
  rw [BitVec.toNat_add, BitVec.toNat_add, hs, hm]
  omega

/-- The request as a number. -/
theorem toNat_request (size : Size) :
    (request size).toNat =
      (((size.toNat + 96) % 2 ^ 64 + 4095) % 2 ^ 64 / 4096 * 4096 + (2 ^ 64 - 48)) % 2 ^ 64 := by
  have hm : mallocMetaDataSize.toNat = 48 := rfl
  rw [request_eq, BitVec.toNat_sub, toNat_roundUp (by decide), toNat_header, hm]
  omega

/-- Every stacklet ends 48 bytes before the end of a page. -/
theorem request_mod (size : Size) : (request size).toNat % 4096 = 4048 := by
  rw [toNat_request]
  omega

/-- **The header and the room fit.** -/
theorem le_request {size : Size} (hs : size.toNat + 96 ≤ 2 ^ 64) :
    size.toNat + 48 ≤ (request size).toNat := by
  rw [toNat_request]
  omega

/-- Above the bound, the sums wrap and one page is asked for. -/
theorem request_wraps {size : Size} (hs : 2 ^ 64 < size.toNat + 96) :
    (request size).toNat = 4048 := by
  have hlt := size.isLt
  rw [toNat_request]
  omega

end Libfork.SegmentedStack
