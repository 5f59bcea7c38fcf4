import Libfork.Algorithm.Scan.Model
import Libfork.Found.Routine

/-!
# The calls of the scan

The sweeps once more, with a record of their activations; `erases_scanCalls` and the theorems
before it: without the record, they are the sweeps.

Source: `scan.hpp`.
-/

namespace Libfork.Algorithm.Scan

open Libfork.Found Prog Routine

/-- The activations of the sweeps, on `[beg, fin)`. -/
inductive Call
  /-- `rise_sweep` as a scan. -/
  | scan (ival : Interval) (beg fin : ℤ)
  /-- `rise_sweep` as a fold. -/
  | fold (ival : Interval) (beg fin : ℤ)
  /-- `fall_sweep`, called or looping. -/
  | fall (ival : Interval) (beg fin scanEnd : ℤ)
  /-- `fall_sweep_impl`. -/
  | fallImpl (ival : Interval) (beg fin : ℤ)
deriving DecidableEq, Repr

namespace Args

variable {T V : Type} (A : Args T V)

/-- Source: `scan.hpp`, `rise_sweep::operator()` for `Op == op::fold` -/
def riseFoldCalls : ℕ → Interval → ℤ → ℤ → ℤ → Routine ℤ V Call Unit
  | 0, _, _, _, _ => ⟨.fail⟩
  | fuel + 1, ival, beg, fin, out => do
      record [.fold ival beg fin]
      let size := fin - beg
      lift (assert (1 ≤ size))
      if size ≤ A.n then
        if ival = .mid then do
          let acc ← lift (A.input.fetch beg)
          let acc ← lift (A.foldLoop (size - 1).toNat (beg + 1) acc)
          lift (store (out + size - 1) acc)
        else pure ()
      else do
        let mid := size / 2
        let _ ← both (riseFoldCalls fuel (lChildOf ival) beg (beg + mid) out)
          (riseFoldCalls fuel (rChildOf ival) (beg + mid) fin (out + mid))
        lift (A.restore ival size mid out)

/-- Source: `scan.hpp`, `rise_sweep::operator()` for `Op == op::scan` -/
def riseScanCalls : ℕ → Interval → ℤ → ℤ → ℤ → Routine ℤ V Call ℤ
  | 0, _, _, _, _ => ⟨.fail⟩
  | fuel + 1, ival, beg, fin, out => do
      record [.scan ival beg fin]
      let size := fin - beg
      lift (assert (1 ≤ size))
      if size ≤ A.n then
        if ival = .mid ∨ ival = .rhs then do
          let acc ← lift (load (out - 1))
          let _ ← lift (A.scanLoop size.toNat beg out acc)
          pure fin
        else do
          let acc ← lift (A.input.fetch beg)
          let _ ← lift (store out acc)
          let _ ← lift (A.scanLoop (size - 1).toNat (beg + 1) (out + 1) acc)
          pure fin
      else
        let mid := size / 2
        if A.ready beg fin then do
          let leftOut ← riseScanCalls fuel (lChildOf ival) beg (beg + mid) out
          if leftOut = beg + mid then
            riseScanCalls fuel (rChildOf ival) (beg + mid) fin (out + mid)
          else do
            let _ ← A.riseFoldCalls fuel (rChildOf ival) (beg + mid) fin (out + mid)
            let _ ← lift (A.restore ival size mid out)
            pure leftOut
        else do
          let both ← both (riseScanCalls fuel (lChildOf ival) beg (beg + mid) out)
            (A.riseFoldCalls fuel (rChildOf ival) (beg + mid) fin (out + mid))
          let _ ← lift (A.restore ival size mid out)
          pure both.1

/-- Source: `scan.hpp`, `fall_sweep_impl::operator()` -/
def fallSweepImplCalls : ℕ → Interval → ℤ → ℤ → ℤ → Routine ℤ V Call Unit
  | 0, _, _, _, _ => ⟨.fail⟩
  | fuel + 1, ival, beg, fin, out => do
      record [.fallImpl ival beg fin]
      let size := fin - beg
      lift (assert (0 < size))
      if size ≤ A.n then do
        let acc ← lift (load (out - 1))
        let last := if ival = .rhs then fin else beg + size - 1
        lift (A.scanLoop (last - beg).toNat beg out acc)
      else do
        let mid := size / 2
        let l ← lift (load (out - 1))
        let r ← lift (load (out + mid - 1))
        let _ ← lift (store (out + mid - 1) (A.bop l r))
        let _ ← both (fallSweepImplCalls fuel (lChildOf ival) beg (beg + mid) out)
          (fallSweepImplCalls fuel (rChildOf ival) (beg + mid) fin (out + mid))
        pure ()

/-- Source: `scan.hpp`, `fall_sweep::operator()` -/
def fallSweepCalls : ℕ → Interval → ℤ → ℤ → ℤ → ℤ → Routine ℤ V Call Unit
  | 0, _, _, _, _, _ => ⟨.fail⟩
  | fuel + 1, ival, beg, fin, out, scanEnd => do
      record [.fall ival beg fin scanEnd]
      lift (assert (scanEnd < fin))
      let size := fin - beg
      let mid := size / 2
      let split := beg + mid
      if scanEnd < split then do
        let _ ← both (fallSweepCalls fuel (lChildOf ival) beg (beg + mid) out scanEnd)
          (A.fallSweepImplCalls fuel (rChildOf ival) (beg + mid) fin (out + mid))
        pure ()
      else if scanEnd = split then
        A.fallSweepImplCalls fuel (rChildOf ival) (beg + mid) fin (out + mid)
      else
        fallSweepCalls fuel (rChildOf ival) (beg + mid) fin (out + mid) scanEnd

end Args

/-! ## Without the record -/

section erases

variable {T V : Type} (A : Args T V) {fuel : ℕ} {ival : Interval} {beg fin out scanEnd : ℤ}

/-- The up-sweep that folds, without its record. -/
theorem erases_riseFoldCalls :
    Erases (A.riseFoldCalls fuel ival beg fin out) (A.riseFold fuel ival beg fin out) := by
  induction fuel generalizing ival beg fin out with
  | zero => exact erases_fail
  | succ fuel ih =>
    apply Erases.record
    refine (erases_lift _).bind fun _ => erases_ite (fun _ => erases_ite (fun _ => ?_) fun _ => ?_)
      fun _ => ?_
    · exact (erases_lift _).bind fun _ => (erases_lift _).bind fun _ => erases_lift _
    · exact erases_pure ()
    · exact (ih.both ih).bind fun _ => erases_lift _

/-- The up-sweep that scans, without its record. -/
theorem erases_riseScanCalls :
    Erases (A.riseScanCalls fuel ival beg fin out) (A.riseScan fuel ival beg fin out) := by
  induction fuel generalizing ival beg fin out with
  | zero => exact erases_fail
  | succ fuel ih =>
    apply Erases.record
    refine (erases_lift _).bind fun _ => erases_ite (fun _ => erases_ite (fun _ => ?_) fun _ => ?_)
      fun _ => erases_ite (fun _ => ?_) fun _ => ?_
    · exact (erases_lift _).bind fun _ => (erases_lift _).bind fun _ => erases_pure _
    · exact (erases_lift _).bind fun _ => (erases_lift _).bind fun _ =>
        (erases_lift _).bind fun _ => erases_pure _
    · refine ih.bind fun leftOut => erases_ite (fun _ => ih) fun _ => ?_
      exact (erases_riseFoldCalls A).bind fun _ => (erases_lift _).bind fun _ => erases_pure _
    · refine (ih.both (erases_riseFoldCalls A)).bind fun x => ?_
      exact (erases_lift _).bind fun _ => erases_pure _

/-- `fall_sweep_impl` without its record. -/
theorem erases_fallSweepImplCalls : Erases (A.fallSweepImplCalls fuel ival beg fin out)
    (A.fallSweepImpl fuel ival beg fin out) := by
  induction fuel generalizing ival beg fin out with
  | zero => exact erases_fail
  | succ fuel ih =>
    apply Erases.record
    refine (erases_lift _).bind fun _ => erases_ite (fun _ => ?_) fun _ => ?_
    · exact (erases_lift _).bind fun _ => erases_lift _
    · exact (erases_lift _).bind fun _ => (erases_lift _).bind fun _ => (erases_lift _).bind
        fun _ => (ih.both ih).bind fun _ => erases_pure ()

/-- `fall_sweep` without its record. -/
theorem erases_fallSweepCalls : Erases (A.fallSweepCalls fuel ival beg fin out scanEnd)
    (A.fallSweep fuel ival beg fin out scanEnd) := by
  induction fuel generalizing ival beg fin out with
  | zero => exact erases_fail
  | succ fuel ih =>
    apply Erases.record
    refine (erases_lift _).bind fun _ => erases_ite (fun _ => ?_) fun _ => erases_ite (fun _ => ?_)
      fun _ => ?_
    · exact (ih.both (erases_fallSweepImplCalls A)).bind fun _ => erases_pure ()
    · exact erases_fallSweepImplCalls A
    · exact ih

end erases

end Libfork.Algorithm.Scan
