import Libfork.Algorithm.Scan.Correct
import Libfork.Found.Races

/-!
# The subtasks of the scan do not interfere

Every sweep that forks its left child and calls its right one runs the two in parallel until the
join. Wherever a scan stands, in whatever way the synchronous forks report and the accesses
interleave, the two children of such a sweep do not get in each other's way.

Source: `scan.hpp`, `rise_sweep`, `fall_sweep_impl`, `fall_sweep`.
-/

namespace Libfork.Algorithm.Scan

open Libfork.Found Prog

variable {T V : Type}

/-- **Subtasks of the scan do not interfere.** When a left and a right child run between a fork
and its join, no cell that one of them may write is accessed by the other; every interleaving of
their accesses can be completed, and leaves the memory as running the left and then the right
one. -/
theorem scan_raceFree (A : Args T V) (hn : 1 ≤ A.n) (beg fin out : ℤ)
    (hout : A.input.Aligned (out - beg)) (hle : beg ≤ fin) (m : ℤ → V) (p : Prog ℤ V Unit)
    (m' : ℤ → V) (hs : Steps (A.scanImpl beg fin out) m p m') {X Y : Type} (l : Prog ℤ V X)
    (r : Prog ℤ V Y) (hf : Forks p l r) :
    RaceFree l r ∧
      ∀ m₀ q m₁, Steps (fork l r) m₀ q m₁ →
        (∃ x m₂, Steps q m₁ (ret x) m₂) ∧
        ∀ x, q = ret x → ∃ mid, run l m₀ = some (x.1, mid) ∧ run r mid = some (x.2, m₁) := by
  have hsafe := safe_scanImpl hn hout hle
  rw [show beg + (out - beg) = out by omega] at hsafe
  obtain ⟨hp, -⟩ := hsafe.steps hs
  refine ⟨hp.raceFree hf, ?_⟩
  intro m₀ q m₁ hsteps
  constructor
  · obtain ⟨x, m₂, -, hrest⟩ := (hp.fork_of_forks hf).complete hsteps
    exact ⟨x, m₂, hrest⟩
  · rintro x rfl
    exact hp.fork_result hf hsteps

/-- Three lists in chunks of one, after the first fork. -/
theorem scan_raceFree_concat :
    RaceFree (concatArgs.riseScan 2 .lhs 0 1 0) (concatArgs.riseFold 2 .rhs 1 3 1) := by
  have hf : Forks (concatArgs.scanImpl 0 3 0) (concatArgs.riseScan 2 .lhs 0 1 0)
      (concatArgs.riseFold 2 .rhs 1 3 1) := Forks.here
  exact (scan_raceFree concatArgs (by decide) 0 3 0 rfl (by decide) (fun i => [i.toNat]) _ _
    .refl _ _ hf).1

end Libfork.Algorithm.Scan
