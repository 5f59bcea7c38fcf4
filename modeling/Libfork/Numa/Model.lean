import Libfork.Found.Buckets
import Mathlib.Data.Int.Order.Basic

/-!
# Distributing workers over a topology

`numa_topology::distribute` of `numa.hpp`, in the version with hwloc and in the version without.

* `DistanceMatrix` — `distance_matrix`; what hwloc reports of two processing units is the parameter
  `d`, by their positions.
* `distribute` — with hwloc; `place n k` is handle `k` of the `n` that hwloc gives.
* `distributePlain` — without hwloc, where every handle is the default one.

`none` is an exception, or an access past the end of a vector.
-/

namespace Libfork.Numa

open Found

variable {H α : Type}

/-! ### Distances -/

/-- `distance_matrix`. -/
structure DistanceMatrix where
  m_size : ℕ
  m_matrix : List ℤ

namespace DistanceMatrix

/-- One turn of the inner loop of the constructor. -/
def setEntry (n : ℕ) (d : ℕ → ℕ → ℤ) (i : ℕ) (m_matrix : List ℤ) (j : ℕ) : List ℤ :=
  m_matrix.set (i * n + j) (d i j)

/-- One turn of the outer loop. -/
def setRow (n : ℕ) (d : ℕ → ℕ → ℤ) (m_matrix : List ℤ) (i : ℕ) : List ℤ :=
  (List.range n).foldl (setEntry n d i) m_matrix

/-- The constructor, for `n` handles. -/
def build (n : ℕ) (d : ℕ → ℕ → ℤ) : DistanceMatrix where
  m_size := n
  m_matrix := (List.range n).foldl (setRow n d) (List.replicate (n * n) 0)

/-- `operator()`. -/
def at? (m : DistanceMatrix) (i j : ℕ) : Option ℤ := m.m_matrix[i * m.m_size + j]?

end DistanceMatrix

/-! ### Nodes -/

/-- `numa_node`: a handle and the lists of neighbours. -/
structure NumaNode (H α : Type) where
  handle : H
  neighbors : List (List α)

/-- `neighbors[idx].push_back(x)`. -/
def pushBack (neighbors : List (List α)) (idx : ℕ) (x : α) : Option (List (List α)) :=
  if idx < neighbors.length then some (neighbors.modify idx (· ++ [x])) else none

/-! ### With hwloc -/

/-- `split`, which throws where there is nothing to distribute over. -/
def split (place : ℕ → ℕ → H) (n : ℕ) : Option (List H) :=
  if n < 1 then none else some ((List.range n).map (place n))

/-- One turn of the loop that collects the distances from `i`. -/
def collect (dist : DistanceMatrix) (i : ℕ) (uniques : List ℤ) (j : ℕ) : Option (List ℤ) :=
  if i ≠ j then (dist.at? i j).map fun δ => insertKey δ uniques else some uniques

/-- One turn of the loop that fills the lists of `i`. The position of a distance is counted from
the second list on. -/
def fill (data : List α) (dist : DistanceMatrix) (i : ℕ) (uniques : List ℤ)
    (neighbors : List (List α)) (j : ℕ) : Option (List (List α)) := do
  let x ← data[j]?
  if i = j then pushBack neighbors 0 x
  else
    let δ ← dist.at? i j
    pushBack neighbors (1 + uniques.idxOf δ) x

/-- The lists of neighbours of `i`, among `n` nodes. -/
def neighborsOf (data : List α) (dist : DistanceMatrix) (n i : ℕ) : Option (List (List α)) := do
  let uniques ← (List.range n).foldlM (collect dist i) []
  (List.range n).foldlM (fill data dist i uniques) (List.replicate (1 + uniques.length) [])

/-- `distribute`, with hwloc. -/
def distribute (place : ℕ → ℕ → H) (d : ℕ → ℕ → ℤ) (data : List α) :
    Option (List (NumaNode H α)) := do
  let handles ← split place data.length
  let dist := DistanceMatrix.build handles.length d
  handles.zipIdx.mapM fun p =>
    (neighborsOf data dist handles.length p.2).map fun neighbors => ⟨p.1, neighbors⟩

/-! ### Without hwloc -/

variable [DecidableEq α]

/-- One turn of the loop over the other objects. -/
def fillPlain (own : α) (neighbors : List (List α)) (neigh : α) : Option (List (List α)) :=
  if neigh ≠ own then pushBack neighbors 1 neigh else some neighbors

/-- The lists of neighbours of one object. -/
def neighborsPlain (data : List α) (own : α) : Option (List (List α)) :=
  let neighbors := if data.length > 1 then [[own], []] else [[own]]
  data.foldlM (fillPlain own) neighbors

/-- `distribute`, without hwloc; `null` is the handle of `split`. -/
def distributePlain (null : H) (data : List α) : Option (List (NumaNode H α)) :=
  data.mapM fun own => (neighborsPlain data own).map fun neighbors => ⟨null, neighbors⟩

end Libfork.Numa
