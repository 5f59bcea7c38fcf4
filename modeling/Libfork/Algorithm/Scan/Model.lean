import Libfork.Found.ForkJoin

/-!
# The parallel scan

The three sweeps as fork-join programs on the cells of the output. An iterator is its position; a
call that forks a left and calls a right child runs the two in parallel, and a synchronous fork
that reports `ready` has run the left one to its end.

* `Input` — the range that is scanned: another range than the output, or the output itself.
* `Args` — what all calls share. `ready` is what the synchronous fork at `[beg, fin)` reports; it
  depends on the steals, and is left open.
* `fuel` bounds the depth of the recursion, and the turns of `for (;;)`; out of fuel, a sweep
  fails, as it does where an assertion does not hold.

Exceptions are not modelled: the binary operation and the projection return. Neither are moves:
the operation reads a value that is overwritten with its result.

Source: `scan.hpp`.
-/

namespace Libfork.Algorithm.Scan

open Libfork.Found Prog

/-- Source: `scan.hpp`, enum `interval` -/
inductive Interval
  | all
  | lhs
  | mid
  | rhs
deriving DecidableEq, Repr

/-- Source: `scan.hpp`, `l_child_of` -/
def lChildOf : Interval → Interval
  | .all => .lhs
  | .lhs => .lhs
  | .mid => .mid
  | .rhs => .mid

/-- Source: `scan.hpp`, `r_child_of` -/
def rChildOf : Interval → Interval
  | .all => .rhs
  | .rhs => .rhs
  | .lhs => .mid
  | .mid => .mid

/-- The range that is scanned, with its projection. -/
inductive Input (T V : Type)
  /-- A range that the scan does not write. -/
  | apart (xs : ℤ → T) (proj : T → V)
  /-- The output, `out == beg`. -/
  | inPlace (proj : V → V)

/-- The arguments that every call passes on. -/
structure Args (T V : Type) where
  input : Input T V
  bop : V → V → V
  n : ℤ
  /-- What the synchronous fork of the node `[beg, fin)` reports. -/
  ready : ℤ → ℤ → Bool

variable {T V : Type}

/-- `proj(*beg)`. -/
def Input.fetch (input : Input T V) (beg : ℤ) : Prog ℤ V V :=
  match input with
  | .apart xs proj => pure (proj (xs beg))
  | .inPlace proj => do
      let x ← load beg
      pure (proj x)

namespace Args

variable (A : Args T V)

/-- `for (; beg != end; ++beg) acc = bop(acc, proj(*beg))`, for `k = end - beg`. -/
def foldLoop : ℕ → ℤ → V → Prog ℤ V V
  | 0, _, acc => pure acc
  | k + 1, beg, acc => do
      let x ← A.input.fetch beg
      foldLoop k (beg + 1) (A.bop acc x)

/-- `for (; beg != end; ++beg, ++out) { acc = bop(acc, proj(*beg)); *out = acc; }`, for
`k = end - beg`. -/
def scanLoop : ℕ → ℤ → ℤ → V → Prog ℤ V Unit
  | 0, _, _, _ => pure ()
  | k + 1, beg, out, acc => do
      let x ← A.input.fetch beg
      let acc := A.bop acc x
      store out acc
      scanLoop k (beg + 1) (out + 1) acc

/-- `if constexpr (Ival == interval::lhs || Ival == interval::mid)`: propagate the reduction to
the right sibling. Source: `scan.hpp`, `rise_sweep` -/
def restore (ival : Interval) (size mid out : ℤ) : Prog ℤ V Unit :=
  if ival = .lhs ∨ ival = .mid then do
    let l ← load (out + mid - 1)
    let r ← load (out + size - 1)
    store (out + size - 1) (A.bop l r)
  else pure ()

/-- Source: `scan.hpp`, `rise_sweep::operator()` for `Op == op::fold` -/
def riseFold : ℕ → Interval → ℤ → ℤ → ℤ → Prog ℤ V Unit
  | 0, _, _, _, _ => .fail
  | fuel + 1, ival, beg, fin, out => do
      let size := fin - beg
      assert (1 ≤ size)
      if size ≤ A.n then
        if ival = .mid then do
          let acc ← A.input.fetch beg
          let acc ← A.foldLoop (size - 1).toNat (beg + 1) acc
          store (out + size - 1) acc
        else pure () -- `rhs`, which has no right sibling that consumes the fold
      else do
        let mid := size / 2
        let _ ← fork (riseFold fuel (lChildOf ival) beg (beg + mid) out)
          (riseFold fuel (rChildOf ival) (beg + mid) fin (out + mid))
        A.restore ival size mid out

/-- Returns one past the end of what was scanned. Source: `scan.hpp`, `rise_sweep::operator()` for
`Op == op::scan` -/
def riseScan : ℕ → Interval → ℤ → ℤ → ℤ → Prog ℤ V ℤ
  | 0, _, _, _, _ => .fail
  | fuel + 1, ival, beg, fin, out => do
      let size := fin - beg
      assert (1 ≤ size)
      if size ≤ A.n then
        if ival = .mid ∨ ival = .rhs then do
          let acc ← load (out - 1)
          A.scanLoop size.toNat beg out acc
          pure fin
        else do
          let acc ← A.input.fetch beg
          store out acc
          A.scanLoop (size - 1).toNat (beg + 1) (out + 1) acc
          pure fin
      else
        let mid := size / 2
        if A.ready beg fin then do
          let leftOut ← riseScan fuel (lChildOf ival) beg (beg + mid) out
          if leftOut = beg + mid then
            riseScan fuel (rChildOf ival) (beg + mid) fin (out + mid)
          else do
            A.riseFold fuel (rChildOf ival) (beg + mid) fin (out + mid)
            A.restore ival size mid out
            pure leftOut
        else do
          let (leftOut, _) ← fork (riseScan fuel (lChildOf ival) beg (beg + mid) out)
            (A.riseFold fuel (rChildOf ival) (beg + mid) fin (out + mid))
          A.restore ival size mid out
          pure leftOut

/-- Source: `scan.hpp`, `fall_sweep_impl::operator()` -/
def fallSweepImpl : ℕ → Interval → ℤ → ℤ → ℤ → Prog ℤ V Unit
  | 0, _, _, _, _ => .fail
  | fuel + 1, ival, beg, fin, out => do
      let size := fin - beg
      assert (0 < size)
      if size ≤ A.n then do
        let acc ← load (out - 1)
        let last := if ival = .rhs then fin else beg + size - 1
        A.scanLoop (last - beg).toNat beg out acc
      else do
        let mid := size / 2
        let l ← load (out - 1)
        let r ← load (out + mid - 1)
        store (out + mid - 1) (A.bop l r)
        let _ ← fork (fallSweepImpl fuel (lChildOf ival) beg (beg + mid) out)
          (fallSweepImpl fuel (rChildOf ival) (beg + mid) fin (out + mid))
        pure ()

/-- A turn of the loop on the same type, and a call on another one, differ in nothing else. Source:
`scan.hpp`, `fall_sweep::operator()` -/
def fallSweep : ℕ → Interval → ℤ → ℤ → ℤ → ℤ → Prog ℤ V Unit
  | 0, _, _, _, _, _ => .fail
  | fuel + 1, ival, beg, fin, out, scanEnd => do
      assert (scanEnd < fin)
      let size := fin - beg
      let mid := size / 2
      let split := beg + mid
      if scanEnd < split then do
        -- left part-scanned, right un-scanned
        let _ ← fork (fallSweep fuel (lChildOf ival) beg (beg + mid) out scanEnd)
          (A.fallSweepImpl fuel (rChildOf ival) (beg + mid) fin (out + mid))
        pure ()
      else if scanEnd = split then
        -- left fully scanned, right un-scanned
        A.fallSweepImpl fuel (rChildOf ival) (beg + mid) fin (out + mid)
      else
        -- left fully scanned, right part-scanned
        fallSweep fuel (rChildOf ival) (beg + mid) fin (out + mid) scanEnd

/-- Source: `scan.hpp`, `scan_impl::operator()` -/
def scanImpl (beg fin out : ℤ) : Prog ℤ V Unit :=
  if fin = beg then pure ()
  else do
    let fuel := (fin - beg).toNat
    let scanEnd ← A.riseScan fuel .all beg fin out
    if scanEnd ≠ fin then A.fallSweep fuel .all beg fin out scanEnd
    else pure ()

end Args

end Libfork.Algorithm.Scan
