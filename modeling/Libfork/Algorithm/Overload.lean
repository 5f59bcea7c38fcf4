import Mathlib.Data.Int.Init
import Mathlib.Tactic.Common

/-!
# The overloads of the algorithms

`fold`, `map` and `for_each` each take iterators or a range, with or without a chunk size.
-/

namespace Libfork.Algorithm

/-- A range, by its iterators; an iterator is its position. -/
structure Range where
  first : ℤ
  last : ℤ

/-- The four overloads. -/
inductive Overload
  | iter
  | iterChunk (n : ℤ)
  | range
  | rangeChunk (n : ℤ)

namespace Overload

/-- The chunk size. -/
def chunk : Overload → ℤ
  | .iter | .range => 1
  | .iterChunk n | .rangeChunk n => n

end Overload

end Libfork.Algorithm
