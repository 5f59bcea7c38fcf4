import Libfork.Runtime.Steals

/-!
# Nothing waits for nothing

* `Inv.exists_worker` — a task that is suspended waits for one that a worker has.
* **`progress_of_run`** — as long as a task is live, and the outside holds none of its subtree, some
  worker can go on.

Source: `promise.hpp`, `final_await_suspend`, `final_awaitable`; `awaitables.hpp`; `resume.hpp`.
-/

namespace Libfork.Runtime

open Libfork.Found Libfork.Join

variable {T : Tree} {s s' : State} {a : Act} {as : List Act} {w f c : ℕ}

/-! ## Who holds a task -/

/-- The worker that has the handle. -/
def Loc.worker : Loc → Option ℕ
  | .run w => some w
  | .stolen w => some w
  | .final w => some w
  | .queued w => some w
  | .submitted w => some w
  | _ => none

/-- Only finitely many tasks were invoked. -/
theorem bounded_of_run (h : (machine T).Run (FewSteals T) .init as s) : Bounded s.loc := by
  refine Machine.Run.invariant (P := fun s => Bounded s.loc) ?_ ⟨0, fun _ _ => rfl⟩ h
  intro s a s' hs _ hstep
  exact bounded_of_moves (moves_of_step hstep) hs

namespace Inv

variable (h : Inv T s)

include h

/-- A task that nobody holds waits for a child. -/
theorem exists_child (hf : s.status f = .alive) (hworker : (s.loc f).worker = none)
    (hout : s.loc f ≠ .outside) :
    ∃ c, T.tag c ≠ .root ∧ T.parent c = f ∧ s.status c = .alive := by
  have haccounts := h.accounts f
  cases hloc : s.loc f with
  | calling c =>
    obtain ⟨ht, hpar, hc⟩ := (haccounts.calling c).mp hloc
    exact ⟨c, by simp [ht], hpar, hc⟩
  | joining =>
    have hph : (s.task f).phase = .joining := by
      rw [Task.phase, show (s.task f).loc = .joining from hloc]
    obtain ⟨c, hc⟩ := Finset.card_pos.mp (haccounts.balance.joining hph)
    obtain ⟨ht, hpar, hst⟩ := (haccounts.owed c).mp hc
    exact ⟨c, by simp [ht], hpar, hst⟩
  | unborn => simp [State.status, hloc, Loc.status] at hf
  | dead => simp [State.status, hloc, Loc.status] at hf
  | outside => exact absurd hloc hout
  | run w => simp [hloc, Loc.worker] at hworker
  | stolen w => simp [hloc, Loc.worker] at hworker
  | final w => simp [hloc, Loc.worker] at hworker
  | queued w => simp [hloc, Loc.worker] at hworker
  | submitted w => simp [hloc, Loc.worker] at hworker

/-- The children of a task are younger, so that one of its subtree waits for none. -/
theorem exists_worker (hbounded : Bounded s.loc) (hf : s.status f = .alive)
    (hout : ∀ g, T.Descends f g → s.loc g ≠ .outside) :
    ∃ g w, T.Descends f g ∧ (s.loc g).worker = some w := by
  obtain ⟨n, hn⟩ := hbounded
  have hlt : ∀ g, s.status g = .alive → g < n := by
    intro g hg
    by_contra hge
    rw [State.status, hn g (by omega)] at hg
    cases hg
  obtain ⟨d, hd⟩ : ∃ d, n ≤ f + d := ⟨n, Nat.le_add_left n f⟩
  induction d generalizing f with
  | zero => exact absurd (hlt f hf) (by omega)
  | succ d ih =>
    cases hworker : (s.loc f).worker with
    | some w => exact ⟨f, w, .self, hworker⟩
    | none =>
      obtain ⟨c, ht, hpar, hc⟩ := h.exists_child hf hworker (hout f .self)
      have hfc := T.parent_lt c ht
      have hsub : ∀ {g}, T.Descends c g → T.Descends f g :=
        fun hg => Tree.Descends.trans (.child ht (hpar ▸ .self)) hg
      obtain ⟨g, w, hg, hw⟩ := ih hc (fun g hg => hout g (hsub hg)) (by omega)
      exact ⟨g, w, hsub hg, hw⟩

end Inv

/-! ## Who can go on -/

/-- The worker `w` can take a step. -/
def CanGoOn (T : Tree) (s : State) (w : ℕ) : Prop :=
  ∃ a : Act, a.mover = some w ∧ ((machine T).step s a).isSome = true

/-- A worker that is in a `resume` goes on. -/
theorem canGoOn_of_busy (hpc : s.pc w ≠ .idle) : CanGoOn T s w := by
  cases hcase : s.pc w with
  | idle => exact absurd hcase hpc
  | run f =>
    -- where the code is free to choose, a join is one of the things it can do
    by_cases haw : (s.task f).awaiting = none
    · refine ⟨.join w, rfl, ?_⟩
      simp [machine, running_eq_some.mpr ⟨hcase, haw⟩]
    · exact ⟨.step w, rfl, by simp [machine, workerStep, hcase, haw]⟩
  | final c =>
    refine ⟨.step w, rfl, ?_⟩
    cases hq : s.deque w <;> simp [machine, workerStep, hcase, hq]
  | joinLoad f =>
    refine ⟨.step w, rfl, ?_⟩
    simp only [machine, workerStep, hcase]
    split_ifs <;> rfl
  | selfSteal =>
    refine ⟨.step w, rfl, ?_⟩
    cases hq : s.deque w <;> simp [machine, workerStep, hcase, hq]
  | stolen f => exact ⟨.step w, rfl, by simp [machine, workerStep, hcase]⟩
  | subJoin c => exact ⟨.step w, rfl, by simp [machine, workerStep, hcase]⟩
  | lost c => exact ⟨.step w, rfl, by simp [machine, workerStep, hcase]⟩
  | joinSub f => exact ⟨.step w, rfl, by simp [machine, workerStep, hcase]⟩
  | switched f n => exact ⟨.step w, rfl, by simp [machine, workerStep, hcase]⟩

/-- So does one with a list to go through, or a submission to look at. -/
theorem canGoOn_of_work (hwork : s.pc w ≠ .idle ∨ s.todo w ≠ [] ∨ s.submit w ≠ []) :
    CanGoOn T s w := by
  by_cases hpc : s.pc w = .idle
  · cases htodo : s.todo w with
    | cons f fs => exact ⟨.resume w, rfl, by simp [machine, hpc, htodo]⟩
    | nil =>
      have hsub : s.submit w ≠ [] := by simpa [hpc, htodo] using hwork
      exact ⟨.popAll w, rfl, by simp [machine, hpc, htodo, hsub]⟩
  · exact canGoOn_of_busy hpc

/-- A worker that has a handle has work. -/
theorem Inv.has_work (h : Inv T s) (hw : (s.loc f).worker = some w) :
    s.pc w ≠ .idle ∨ s.todo w ≠ [] ∨ s.submit w ≠ [] := by
  cases hloc : s.loc f with
  | run v =>
    obtain rfl : v = w := by simpa [hloc, Loc.worker] using hw
    have hcode := (h.placed.run v f).mpr hloc
    refine Or.inl fun hpc => ?_
    rw [hpc] at hcode
    cases hcode
  | stolen v =>
    obtain rfl : v = w := by simpa [hloc, Loc.worker] using hw
    have hpc := (h.placed.stolen v f).mpr hloc
    exact Or.inl (by simp [hpc])
  | final v =>
    obtain rfl : v = w := by simpa [hloc, Loc.worker] using hw
    have hret := (h.placed.final v f).mpr hloc
    refine Or.inl fun hpc => ?_
    rw [hpc] at hret
    cases hret
  | queued v =>
    obtain rfl : v = w := by simpa [hloc, Loc.worker] using hw
    have hmem := (h.placed.queued v f).mpr hloc
    refine Or.inl fun hpc => ?_
    have hline := h.lined v
    rw [hpc] at hline
    rw [show s.deque v = [] from hline] at hmem
    cases hmem
  | submitted v =>
    obtain rfl : v = w := by simpa [hloc, Loc.worker] using hw
    rcases (h.placed.submitted v f).mpr hloc with hmem | hmem
    · exact Or.inr (Or.inl (List.ne_nil_of_mem hmem))
    · exact Or.inr (Or.inr (List.ne_nil_of_mem hmem))
  | outside => simp [hloc, Loc.worker] at hw
  | unborn => simp [hloc, Loc.worker] at hw
  | calling c => simp [hloc, Loc.worker] at hw
  | joining => simp [hloc, Loc.worker] at hw
  | dead => simp [hloc, Loc.worker] at hw

/-- **No task waits for nothing.** As long as a task is live, a worker has a task of its subtree at
hand and can take a step, unless the outside holds the handle to one of them. -/
theorem progress_of_run (h : (machine T).Run (FewSteals T) .init as s)
    (hf : s.status f = .alive) (hout : ∀ g, T.Descends f g → s.loc g ≠ .outside) :
    ∃ g w, T.Descends f g ∧ (s.loc g).worker = some w ∧ CanGoOn T s w := by
  have hI := inv_of_run h
  obtain ⟨g, w, hg, hw⟩ := hI.exists_worker (bounded_of_run h) hf hout
  exact ⟨g, w, hg, hw, canGoOn_of_work (hI.has_work hw)⟩

/-- The root of `pair` has lost its join, and its child runs. -/
theorem progress_of_run_pair : ∃ s, (machine .pair).Run (FewSteals .pair) .init
    [.spawn 0, .schedule 0 0, .popAll 0, .resume 0, .fork 0 1, .steal 1 0, .step 1, .step 1,
      .join 1, .step 1, .step 1] s ∧ s.loc 0 = .joining ∧
    ∃ g w, Tree.pair.Descends 0 g ∧ (s.loc g).worker = some w ∧ CanGoOn .pair s w := by
  have hexec : ((machine .pair).exec Machine.free .init [.spawn 0, .schedule 0 0, .popAll 0,
      .resume 0, .fork 0 1, .steal 1 0, .step 1, .step 1, .join 1, .step 1, .step 1]).map
      (fun s => (s.loc 0, s.loc 1)) = some (.joining, .run 0) := by decide +kernel
  have hother : ∀ f, ((machine .pair).exec Machine.free .init [.spawn 0, .schedule 0 0, .popAll 0,
      .resume 0, .fork 0 1, .steal 1 0, .step 1, .step 1, .join 1, .step 1, .step 1]).map
      (fun s => s.loc (f + 2)) = some .unborn := fun _ => rfl
  obtain ⟨s, hs, heq⟩ := Option.map_eq_some_iff.mp hexec
  obtain ⟨hroot, hchild⟩ := Prod.mk.inj heq
  rw [hs] at hother
  simp only [Option.map_some, Option.some.injEq] at hother
  have hrun := run_fewSteals (n := 0) (Machine.run_iff_exec.mpr hs) (fun _ => Nat.le_refl 0)
    (by simp)
  refine ⟨s, hrun, hroot, progress_of_run hrun (State.status_eq_alive hroot rfl) ?_⟩
  intro g _
  match g with
  | 0 => simp [hroot]
  | 1 => simp [hchild]
  | f + 2 => simp [hother f]

end Libfork.Runtime
