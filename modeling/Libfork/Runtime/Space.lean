import Libfork.Found.Nesting
import Libfork.Runtime.Total
import Mathlib.Algebra.Order.BigOperators.Group.Finset
import Mathlib.Data.Finset.Option

/-!
# How many frames are alive

A worker runs the task that it forked or called last, and whatever waits for that task is above it
in the tree. So a live task is above what some worker is at, or above a task whose handle is on its
way, and there are no more frames than workers and handles times the depth of the tree.

* `State.tip` — what a worker is at.
* `Inv.exists_tip` — every live task is above a tip, or above a handle on its way.
* **`space_of_run`** — the bound on the number of frames; **`Loaded.frames_of_run`**, for a program
  that nests so deep.

A task that has returned has no frame any more, though its parent may not know.

Source: `promise.hpp`, `final_await_suspend`; `awaitables.hpp`; `resume.hpp`.
-/

namespace Libfork.Runtime

open Libfork.Found

/-! ## Above a task -/

namespace Tree

variable (T : Tree)

/-- A task, and the tasks on whose behalf it was invoked. -/
def ancestors (x : ℕ) : Finset ℕ :=
  if T.tag x ≠ .root then insert x (ancestors (T.parent x)) else {x}
termination_by x
decreasing_by exact T.parent_lt x ‹_›

/-- How many there are. -/
def depth (x : ℕ) : ℕ := (T.ancestors x).card

variable {T} {x d : ℕ}

/-- A root has depth 1. -/
theorem depth_of_root (h : T.tag x = .root) : T.depth x = 1 := by
  unfold depth
  rw [ancestors, if_neg (by simp [h]), Finset.card_singleton]

/-- A child is one deeper than its parent at most. -/
theorem depth_le (h : T.tag x ≠ .root) : T.depth x ≤ T.depth (T.parent x) + 1 := by
  unfold depth
  rw [ancestors, if_pos h]
  exact Finset.card_insert_le _ _

/-- Whom a task descends from is an ancestor. -/
theorem Descends.mem_ancestors (h : T.Descends d x) : d ∈ T.ancestors x := by
  induction h with
  | self =>
    rw [ancestors]
    split_ifs <;> simp
  | child hg _ ih =>
    rw [ancestors, if_pos hg]
    exact Finset.mem_insert_of_mem ih

/-- A task descends from what it is part of. -/
theorem descends_base (x : ℕ) : T.Descends (T.base x) x := by
  induction x using Nat.strong_induction_on with
  | h x ih =>
    by_cases hcall : T.tag x = .call
    · have hroot : T.tag x ≠ .root := by simp [hcall]
      rw [base_of_call hcall]
      exact .child hroot (ih _ (T.parent_lt x hroot))
    · rw [base_of_ne_call hcall]
      exact .self

/-- It descends from whoever forked it. -/
theorem Forked.descends (h : T.Forked x d) : T.Descends d x := by
  obtain ⟨ht, rfl⟩ := h
  have hbase : T.Descends (T.parent (T.base x)) (T.base x) := .child (by simp [ht]) .self
  exact hbase.trans (descends_base x)

/-- What is in a deque is above what is nearer to its front. -/
theorem descends_of_isChain {q : List ℕ} (h : List.IsChain T.Forked (x :: q)) (hd : d ∈ q) :
    T.Descends d x := by
  induction q generalizing x with
  | nil => cases hd
  | cons y q ih =>
    obtain ⟨hxy, hq⟩ := List.isChain_cons_cons.mp h
    rcases List.mem_cons.mp hd with rfl | hd
    · exact hxy.descends
    · exact (ih hq hd).trans hxy.descends

end Tree

/-! ## What the workers are at -/

/-- What a worker is at: the task it runs, the one it has stolen, the one that has returned, or the
one it is about to take from its own deque. -/
def State.tip (s : State) (w : ℕ) : Option ℕ :=
  match s.pc w with
  | .idle => none
  | .stolen f => some f
  | .run f => some f
  | .final c => some c
  | .subJoin c => some c
  | .lost _ => none
  | .joinLoad f => some f
  | .joinSub f => some f
  | .switched _ _ => (s.deque w).head?
  | .selfSteal => (s.deque w).head?

/-- The handle is on its way to a worker. -/
def Loc.inTransit : Loc → Bool
  | .outside => true
  | .submitted _ => true
  | _ => false

variable {T : Tree} {s : State} {as : List Act} {w f g : ℕ}

/-- A worker in the code of a task is at its tip. -/
theorem tip_of_code (h : (s.pc w).code = some f) : s.tip w = some f := by
  rcases Pc.code_eq_some.mp h with h | h | h <;> simp [State.tip, h]

/-- So is one that looks for a parent. -/
theorem tip_of_returned (h : (s.pc w).returned = some f) : s.tip w = some f := by
  rcases Pc.returned_eq_some.mp h with h | h <;> simp [State.tip, h]

/-- A handle on its way is alive. -/
theorem alive_of_inTransit (h : (s.loc f).inTransit = true) : s.status f = .alive := by
  unfold State.status
  cases hloc : s.loc f <;> simp [hloc, Loc.inTransit, Loc.status] at h ⊢

namespace Inv

variable (h : Inv T s)

include h

/-- What is in a deque is above what the worker is at. -/
theorem tip_of_queued (hf : f ∈ s.deque w) : ∃ g, T.Descends f g ∧ s.tip w = some g := by
  have hlined := h.lined w
  -- a worker without anything at hand has an empty deque
  have hempty : s.deque w ≠ [] := List.ne_nil_of_mem hf
  have hhead : List.IsChain T.Forked (s.deque w) →
      ∃ g, T.Descends f g ∧ (s.deque w).head? = some g := by
    intro hchain
    cases hq : s.deque w with
    | nil => exact absurd hq hempty
    | cons d q =>
      rw [hq] at hf hchain
      refine ⟨d, ?_, rfl⟩
      rcases List.mem_cons.mp hf with rfl | hf
      · exact .self
      · exact Tree.descends_of_isChain hchain hf
  cases hpc : s.pc w <;> rw [hpc] at hlined
  case idle => exact absurd hlined hempty
  case stolen => exact absurd hlined hempty
  case subJoin => exact absurd hlined hempty
  case lost => exact absurd hlined hempty
  case run x => exact ⟨x, Tree.descends_of_isChain hlined hf, by simp [State.tip, hpc]⟩
  case joinLoad x => exact ⟨x, Tree.descends_of_isChain hlined hf, by simp [State.tip, hpc]⟩
  case joinSub x => exact ⟨x, Tree.descends_of_isChain hlined hf, by simp [State.tip, hpc]⟩
  case final x => exact ⟨x, Tree.descends_of_isChain hlined.2 hf, by simp [State.tip, hpc]⟩
  case switched x n => simpa [State.tip, hpc] using hhead hlined
  case selfSteal => simpa [State.tip, hpc] using hhead hlined

/-- **Every live task is above what a worker is at**, or above a handle on its way. -/
theorem exists_tip (hbounded : Bounded s.loc) (hf : s.status f = .alive) :
    ∃ g, T.Descends f g ∧ ((∃ w, s.tip w = some g) ∨ (s.loc g).inTransit = true) := by
  by_cases hout : ∃ g, T.Descends f g ∧ s.loc g = .outside
  · obtain ⟨g, hg, hloc⟩ := hout
    exact ⟨g, hg, Or.inr (by rw [hloc]; rfl)⟩
  push Not at hout
  obtain ⟨g, w, hg, hw⟩ := h.exists_worker hbounded hf hout
  cases hloc : s.loc g <;> simp only [hloc, Loc.worker, reduceCtorEq] at hw
  case run v => exact ⟨g, hg, Or.inl ⟨v, tip_of_code ((h.placed.run v g).mpr hloc)⟩⟩
  case stolen v =>
    have hpc := (h.placed.stolen v g).mpr hloc
    exact ⟨g, hg, Or.inl ⟨v, by simp [State.tip, hpc]⟩⟩
  case final v => exact ⟨g, hg, Or.inl ⟨v, tip_of_returned ((h.placed.final v g).mpr hloc)⟩⟩
  case queued v =>
    obtain ⟨x, hx, htip⟩ := h.tip_of_queued ((h.placed.queued v g).mpr hloc)
    exact ⟨x, hg.trans hx, Or.inl ⟨v, htip⟩⟩
  case submitted v => exact ⟨g, hg, Or.inr (by rw [hloc]; rfl)⟩

/-- What a worker is at is alive. -/
theorem alive_of_tip (hg : s.tip w = some g) : s.status g = .alive := by
  unfold State.tip at hg
  cases hpc : s.pc w <;> simp only [hpc, reduceCtorEq] at hg
  case stolen x =>
    obtain rfl := Option.some.inj hg
    exact State.status_eq_alive ((h.placed.stolen w x).mp hpc) rfl
  case run => exact h.alive_of_code (by rw [hpc]; exact hg)
  case joinLoad => exact h.alive_of_code (by rw [hpc]; exact hg)
  case joinSub => exact h.alive_of_code (by rw [hpc]; exact hg)
  case final => exact h.alive_of_returned (by rw [hpc]; exact hg)
  case subJoin => exact h.alive_of_returned (by rw [hpc]; exact hg)
  case switched => exact h.alive_of_mem_deque (List.mem_of_head? hg)
  case selfSteal => exact h.alive_of_mem_deque (List.mem_of_head? hg)

/-- The frames above one task. -/
theorem card_frames_le {n : ℕ} (hdepth : ∀ f, (s.loc f).ended = false → T.depth f ≤ n)
    (hg : s.status g = .alive) :
    ((T.ancestors g).filter fun f => (s.loc f).ended = false).card ≤ n := by
  cases hended : (s.loc g).ended with
  | false => exact (Finset.card_filter_le _ _).trans (hdepth g hended)
  | true =>
    -- it has returned, so that those above it are the ones above its parent
    obtain ⟨v, hloc⟩ : ∃ v, s.loc g = .final v := by
      unfold State.status at hg
      cases hloc : s.loc g <;> simp [hloc, Loc.status, Loc.ended] at hg hended ⊢
    have htag : T.tag g ≠ .root := by
      rw [h.fork_of_returned ((h.placed.final v g).mpr hloc)]
      simp
    refine (Finset.card_le_card ?_).trans (hdepth _ (h.ended_parent htag hg))
    rw [Tree.ancestors, if_pos htag]
    intro f hf
    obtain ⟨hmem, hlive⟩ := Finset.mem_filter.mp hf
    rcases Finset.mem_insert.mp hmem with rfl | hmem
    · cases hended.symm.trans hlive
    · exact hmem

/-- The tips and the handles on their way are few, and so are the frames above them. -/
theorem card_le {F W H : Finset ℕ} {n : ℕ} (hbounded : Bounded s.loc)
    (hF : ∀ f ∈ F, (s.loc f).ended = false) (hW : ∀ w, s.pc w ≠ .idle → w ∈ W)
    (hH : ∀ g, (s.loc g).inTransit = true → g ∈ H)
    (hdepth : ∀ f, (s.loc f).ended = false → T.depth f ≤ n) :
    F.card ≤ (W.card + H.card) * n := by
  let tips := W.biUnion fun w => (s.tip w).toFinset
  have htips : tips.card ≤ W.card := by
    refine (Finset.card_biUnion_le_card_mul W _ 1 fun w _ => ?_).trans (Nat.mul_one _).le
    cases s.tip w <;> simp
  let leaves := (tips ∪ H).filter fun g => s.status g = .alive
  have hleaves : leaves.card ≤ W.card + H.card :=
    (Finset.card_filter_le _ _).trans ((Finset.card_union_le tips H).trans (by omega))
  let frames := fun g => (T.ancestors g).filter fun f => (s.loc f).ended = false
  have hsub : F ⊆ leaves.biUnion frames := by
    intro f hf
    have hlive : s.status f = .alive := by
      by_contra hdead
      cases (Loc.ended_of_status hdead).symm.trans (hF f hf)
    obtain ⟨g, hg, hleaf⟩ := h.exists_tip hbounded hlive
    refine Finset.mem_biUnion.mpr ⟨g, ?_, Finset.mem_filter.mpr ⟨hg.mem_ancestors, hF f hf⟩⟩
    rcases hleaf with ⟨w, hw⟩ | htransit
    · have hbusy : s.pc w ≠ .idle := by
        intro hpc
        simp [State.tip, hpc] at hw
      have hmem : g ∈ tips := Finset.mem_biUnion.mpr ⟨w, hW w hbusy, by simp [hw]⟩
      exact Finset.mem_filter.mpr ⟨Finset.mem_union_left H hmem, h.alive_of_tip hw⟩
    · exact Finset.mem_filter.mpr
        ⟨Finset.mem_union_right tips (hH g htransit), alive_of_inTransit htransit⟩
  calc F.card ≤ (leaves.biUnion frames).card := Finset.card_le_card hsub
    _ ≤ leaves.card * n := Finset.card_biUnion_le_card_mul leaves frames n fun g hg =>
      h.card_frames_le hdepth (Finset.mem_filter.mp hg).2
    _ ≤ (W.card + H.card) * n := Nat.mul_le_mul_right n hleaves

end Inv

/-! ## The bound -/

/-- **Few frames are alive.** In every state that a run reaches, each live task is above what some
worker is at, or above a task whose handle is on its way; and if no frame is deeper than `n` in the
tree, then there are no more than `n` frames for each worker in a `resume`, and for each handle on
its way. -/
theorem space_of_run (h : (machine T).Run (FewSteals T) .init as s) :
    (∀ f, s.status f = .alive →
      ∃ g, T.Descends f g ∧ ((∃ w, s.tip w = some g) ∨ (s.loc g).inTransit = true)) ∧
    ∀ (F W H : Finset ℕ) (n : ℕ), (∀ f ∈ F, (s.loc f).ended = false) →
      (∀ w, s.pc w ≠ .idle → w ∈ W) → (∀ g, (s.loc g).inTransit = true → g ∈ H) →
      (∀ f, (s.loc f).ended = false → T.depth f ≤ n) → F.card ≤ (W.card + H.card) * n := by
  have hI := inv_of_run h
  have hbounded := bounded_of_run h
  exact ⟨fun f hf => hI.exists_tip hbounded hf,
    fun F W H n hF hW hH hdepth => hI.card_le hbounded hF hW hH hdepth⟩

/-- The root of `pair` is in the deque, above its child: one worker, and two frames. -/
theorem space_of_run_pair : ∃ s, (machine .pair).Run (FewSteals .pair) .init
    [.spawn 0, .schedule 0 0, .popAll 0, .resume 0, .fork 0 1] s ∧ s.loc 0 = .queued 0 ∧
    (∃ g, Tree.pair.Descends 0 g ∧ ((∃ w, s.tip w = some g) ∨ (s.loc g).inTransit = true)) ∧
    ({0, 1} : Finset ℕ).card ≤ (({0} : Finset ℕ).card + 0) * 2 := by
  let last := (machine .pair).exec Machine.free .init
    [.spawn 0, .schedule 0 0, .popAll 0, .resume 0, .fork 0 1]
  obtain ⟨s, hs⟩ : ∃ s, last = some s := ⟨_, rfl⟩
  have hlocs : last.map (fun s => (s.loc 0, s.loc 1)) = some (.queued 0, .run 0) := rfl
  have hother : ∀ f, last.map (fun s => (s.loc (f + 2), s.pc (f + 1))) = some (.unborn, .idle) :=
    fun _ => rfl
  rw [hs] at hlocs hother
  simp only [Option.map_some, Option.some.injEq, Prod.mk.injEq] at hlocs hother
  obtain ⟨hroot, hchild⟩ := hlocs
  have hrun := run_fewSteals (n := 0) (Machine.run_iff_exec.mpr hs) (fun _ => Nat.le_refl 0)
    (by simp)
  obtain ⟨htips, hframes⟩ := space_of_run hrun
  refine ⟨s, hrun, hroot, htips 0 (State.status_eq_alive hroot rfl),
    hframes {0, 1} {0} ∅ 2 ?_ ?_ ?_ ?_⟩
  · simp [hroot, hchild, Loc.ended]
  · rintro (_ | w) hw
    · simp
    · exact absurd (hother w).2 hw
  · rintro (_ | _ | g) hg
    · simp [hroot, Loc.inTransit] at hg
    · simp [hchild, Loc.inTransit] at hg
    · simp [(hother g).1, Loc.inTransit] at hg
  · have hdepth : Tree.pair.depth 0 = 1 := Tree.depth_of_root rfl
    rintro (_ | _ | f) hf
    · exact hdepth.le.trans (by decide)
    · exact (Tree.depth_le (by decide)).trans (Nat.succ_le_succ hdepth.le)
    · simp [(hother f).1, Loc.ended] at hf

namespace Loaded

variable {A V R : Type} [DecidableEq A] {σ : Loaded A V R} {p : Prog A V R} {m : A → V} {r n : ℕ}
  {acts : List Loaded.Act}

/-- Every run of a program keeps its nesting. -/
theorem nests_of_run (hp : p.Nests n)
    (h : (Loaded.machine T).Run Machine.free (init r p m) acts σ) : σ.code.Nests n := by
  refine Machine.Run.invariant (P := fun σ => σ.code.Nests n) ?_ hp h
  intro σ a σ' hσ _ hstep
  cases goes_of_step hstep with
  | sched => exact hσ
  | code hdeed hrun hacts h => exact hacts.nests hσ
  | access hrun hacts => exact hacts.nests hσ
  | collect hrun hacts => exact hacts.nests hσ

/-- No task is deeper in the tree than the program nests. -/
theorem depth_of_run {f : ℕ} (hr : T.tag r = .root) (hp : p.Nests n)
    (h : (Loaded.machine T).Run Machine.free (init r p m) acts σ)
    (hf : (σ.workers.loc f).ended = false) : T.depth f ≤ n + 1 := by
  have hσ := follows_of_run hr h
  have hlive : σ.code.stage f ≠ none := by
    rw [Ne, ← hσ.live f, hf]
    simp
  have hdepth : ∀ g c, σ.code.Invoked g c → T.depth c ≤ T.depth g + 1 := by
    intro g c hgc
    obtain ⟨htag, rfl⟩ := hσ.invoked g c hgc
    exact Tree.depth_le htag
  have hle := (nests_of_run hp h).depth_le hdepth hlive
  rw [task_of_run h, Tree.depth_of_root hr] at hle
  omega

/-- **A program needs as many frames for each worker as in sequence**, whatever is stolen. -/
theorem frames_of_run (hr : T.tag r = .root) (hp : p.Nests n)
    (h : (Loaded.machine T).Run Machine.free (init r p m) acts σ) {F W H : Finset ℕ}
    (hF : ∀ f ∈ F, (σ.workers.loc f).ended = false) (hW : ∀ w, σ.workers.pc w ≠ .idle → w ∈ W)
    (hH : ∀ g, (σ.workers.loc g).inTransit = true → g ∈ H) :
    F.card ≤ (W.card + H.card) * (n + 1) :=
  (follows_of_run hr h).inv.card_le (bounded_of_run h) hF hW hH fun _ => depth_of_run hr hp h

/-- One worker, with the two frames of the root and its left branch. -/
theorem frames_of_run_add : ∃ σ : Loaded ℕ ℕ ℕ, (Loaded.machine .pair).Run Machine.free
    (init 0 addCells id) [.act (.schedule 0 0), .act (.popAll 0), .act (.resume 0),
      .act (.fork 0 1)] σ ∧ ({0, 1} : Finset ℕ).card ≤ (({0} : Finset ℕ).card + 0) * 2 := by
  let acts : List Loaded.Act :=
    [.act (.schedule 0 0), .act (.popAll 0), .act (.resume 0), .act (.fork 0 1)]
  have hexec : ((Loaded.machine .pair).exec Machine.free (init 0 addCells id) acts).map
      (fun σ => (σ.workers.loc 0, σ.workers.loc 1)) = some (.queued 0, .run 0) := by decide +kernel
  have hother : ∀ f, ((Loaded.machine .pair).exec Machine.free (init 0 addCells id) acts).map
      (fun σ => (σ.workers.loc (f + 2), σ.workers.pc (f + 1))) = some (.unborn, .idle) :=
    fun _ => rfl
  obtain ⟨σ, hσ, heq⟩ := Option.map_eq_some_iff.mp hexec
  obtain ⟨hroot, hchild⟩ := Prod.mk.inj heq
  rw [hσ] at hother
  simp only [Option.map_some, Option.some.injEq, Prod.mk.injEq] at hother
  have hrun := Machine.run_iff_exec.mpr hσ
  have hnests : addCells.Nests 1 :=
    ⟨0, rfl, fun _ => trivial, fun _ => trivial, fun _ _ => trivial⟩
  refine ⟨σ, hrun, frames_of_run (H := ∅) rfl hnests hrun ?_ ?_ ?_⟩
  · simp [hroot, hchild, Loc.ended]
  · intro w hw
    cases w with
    | zero => simp
    | succ w => exact absurd (hother w).2 hw
  · intro g hg
    rcases g with _ | _ | g
    · simp [hroot, Loc.inTransit] at hg
    · simp [hchild, Loc.inTransit] at hg
    · simp [(hother g).1, Loc.inTransit] at hg

end Loaded

end Libfork.Runtime
