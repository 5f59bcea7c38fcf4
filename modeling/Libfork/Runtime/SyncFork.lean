import Libfork.Runtime.Steps

/-!
# A synchronous fork is reported truthfully

`sync_fork_awaitable::await_resume` compares the steal counter with what it was before the fork.

* `Tree.Descends` — the subtree of a task.
* `Inv.dead_subtree` — of a task that is over, nothing runs on.
* **`await_resume_truthful`** — equal counters mean that the child popped its parent, different
  ones that the continuation was taken, and that the child is among those that the next join
  waits for.

Source: `awaitables.hpp`, `sync_fork_awaitable`; `promise.hpp`, `final_await_suspend`.
-/

namespace Libfork.Runtime

open Libfork.Found Libfork.Join

variable {T : Tree} {s s' : State} {a : Act} {as : List Act} {w f c g n : ℕ} {k : Fork}

/-- `steals_post == steals_pre`. Source: `awaitables.hpp`, `sync_fork_awaitable::await_resume` -/
def Task.awaitResume (t : Task) (k : Fork) : Bool := t.frame.loadSteals == k.stealsPre

/-! ## The subtree of a task -/

/-- `g` is `c`, or was invoked on its behalf. -/
inductive Tree.Descends (T : Tree) (c : ℕ) : ℕ → Prop
  | self : T.Descends c c
  | child {g : ℕ} (hg : T.tag g ≠ .root) (h : T.Descends c (T.parent g)) : T.Descends c g

/-- Descending is transitive. -/
theorem Tree.Descends.trans {c d e : ℕ} (h : T.Descends c d) (h' : T.Descends d e) :
    T.Descends c e := by
  induction h' with
  | self => exact h
  | child hg _ ih => exact .child hg ih

/-- What is not alive is over. -/
theorem Loc.ended_of_status {l : Loc} (h : l.status ≠ .alive) : l.ended = true := by
  cases l <;> simp_all [Loc.status, Loc.ended]

namespace Inv

variable (h : Inv T s)

include h

/-- The parent of a live task is alive. -/
theorem alive_parent (ht : T.tag c ≠ .root) (hc : s.status c = .alive) :
    s.status (T.parent c) = .alive := by
  cases htag : T.tag c with
  | root => exact absurd htag ht
  | call => exact State.status_eq_alive (h.calling htag hc) rfl
  | fork =>
      have hmem := ((h.accounts (T.parent c)).owed c).mpr ⟨htag, rfl, hc⟩
      by_contra hp
      rw [(h.accounts (T.parent c)).owed_eq_empty (Loc.ended_of_status hp)] at hmem
      exact absurd hmem (Finset.notMem_empty c)

/-- Of a task that is over, nothing runs on. -/
theorem dead_subtree (hc : s.status c ≠ .alive) (hg : T.Descends c g) : s.status g ≠ .alive := by
  induction hg with
  | self => exact hc
  | child ht _ ih => exact fun halive => ih (h.alive_parent ht halive)

/-- The steal counter of a frame that runs says how many children the next join waits for, and
the join counter how many of them have finished. -/
theorem counters_of_run (hf : (s.pc w).code = some f) :
    (s.task f).frame.loadSteals.toNat = (s.task f).owed.card + (s.task f).paid.card ∧
    (kU16Max - (s.task f).frame.loadJoins).toNat = (s.task f).paid.card := by
  have hbalance := (h.accounts f).balance
  rw [phase_run (h.run_loc hf)] at hbalance
  have hchildren := hbalance.children
  have hsteals := hbalance.steals
  have hjoins := hbalance.joins
  have hfew := hbalance.few
  simp only [Phase.flying, Phase.lag, reduceCtorEq, if_false] at hchildren hsteals hjoins
  have hmax : kU16Max.toNat = 65535 := rfl
  constructor
  · rw [hchildren]
    exact hsteals
  · rw [BitVec.toNat_sub, hmax, Frame.loadJoins, hjoins]
    omega

/-- Equal counters mean that nobody took the continuation. -/
theorem awaitResume_eq (hpc : s.pc w = .run f) (hk : (s.task f).awaiting = some k) :
    (s.task f).awaitResume k = !k.taken := by
  have hl := h.run_loc (w := w) (f := f) (by rw [hpc]; rfl)
  have hfork := (h.accounts f).fork k hk
  have hbalance := (h.accounts f).balance
  rw [phase_run hl] at hbalance
  have hsteals := hbalance.steals
  have hpre := hfork.pre
  simp only [Phase.lag] at hsteals
  unfold Task.awaitResume Frame.loadSteals
  cases htaken : k.taken with
  | false =>
      rw [htaken] at hpre
      rw [Bool.not_false, beq_iff_eq]
      apply BitVec.eq_of_toNat_eq
      rw [Bool.toNat_false] at hpre
      omega
  | true =>
      rw [htaken] at hpre
      rw [Bool.not_true, beq_eq_false_iff_ne]
      intro heq
      rw [Bool.toNat_true] at hpre
      have := congrArg BitVec.toNat heq
      omega

end Inv

/-! ## The report -/

/-- **A fork that is reported as synchronous was, and one that is not was not.** Where
`await_resume` returns `true` the child has finished, and nothing of its subtree runs; where it
returns `false` the continuation was taken from under the child, which is among the children that
the next join waits for: the steal counter counts it, the join counter does once it finishes. -/
theorem await_resume_truthful (h : (machine T).Run (FewSteals T) .init as s)
    (hpc : s.pc w = .run f) (hk : (s.task f).awaiting = some k) :
    ((s.task f).awaitResume k = true → k.taken = false ∧ s.loc k.child = .dead ∧
      ∀ g, T.Descends k.child g → s.status g ≠ .alive) ∧
    ((s.task f).awaitResume k = false → k.taken = true ∧
      k.child ∈ (s.task f).owed ∪ (s.task f).paid ∧
      (s.task f).frame.loadSteals.toNat = ((s.task f).owed ∪ (s.task f).paid).card ∧
      (kU16Max - (s.task f).frame.loadJoins).toNat = (s.task f).paid.card) := by
  have hI := inv_of_run h
  have hfork := (hI.accounts f).fork k hk
  have hl := hI.run_loc (w := w) (f := f) (by rw [hpc]; rfl)
  have hph : (s.task f).phase ≠ .waits := by simp [phase_run hl]
  rw [hI.awaitResume_eq hpc hk]
  constructor
  · intro htaken
    have htaken : k.taken = false := by simpa using htaken
    have hdead := hfork.finished htaken hph
    refine ⟨htaken, ?_, fun g hg => hI.dead_subtree (by simp [hdead]) hg⟩
    unfold State.status Loc.status at hdead
    split at hdead
    · cases hdead
    · assumption
    · cases hdead
  · intro htaken
    have htaken : k.taken = true := by simpa using htaken
    refine ⟨htaken, Finset.mem_union.mpr (hfork.waited (Or.inl htaken)), ?_⟩
    have hdisjoint : Disjoint (s.task f).owed (s.task f).paid :=
      Finset.disjoint_left.mpr fun c hc => (hI.accounts f).notMem_paid hc
    rw [Finset.card_union_of_disjoint hdisjoint]
    exact hI.counters_of_run (w := w) (by rw [hpc]; rfl)

/-- The child of `pair` returns on the worker that forked it; or the root is stolen from under
it. -/
theorem await_resume_truthful_pair :
    (∃ s, (machine .pair).Run (FewSteals .pair) .init
      [.spawn 0, .schedule 0 0, .popAll 0, .resume 0, .fork 0 1, .ret 0, .step 0] s ∧
      s.loc 1 = .dead) ∧
    ∃ s, (machine .pair).Run (FewSteals .pair) .init
      [.spawn 0, .schedule 0 0, .popAll 0, .resume 0, .fork 0 1, .steal 1 0, .step 1] s ∧
      1 ∈ (s.task 0).owed ∪ (s.task 0).paid := by
  constructor
  · have hexec : ((machine .pair).exec Machine.free .init
        [.spawn 0, .schedule 0 0, .popAll 0, .resume 0, .fork 0 1, .ret 0, .step 0]).map
        (fun s => (s.pc 0, (s.task 0).awaiting, (s.task 0).frame.loadSteals)) =
        some (.run 0, some ⟨1, 0, false⟩, 0) := by decide +kernel
    obtain ⟨s, hs, heq⟩ := Option.map_eq_some_iff.mp hexec
    obtain ⟨hpc, hrest⟩ := Prod.mk.inj heq
    obtain ⟨hk, hsteals⟩ := Prod.mk.inj hrest
    have hrun := run_fewSteals (n := 0) (Machine.run_iff_exec.mpr hs) (fun _ => Nat.le_refl 0)
      (by simp)
    refine ⟨s, hrun, ((await_resume_truthful hrun hpc hk).1 ?_).2.1⟩
    simp [Task.awaitResume, hsteals]
  · have hexec : ((machine .pair).exec Machine.free .init
        [.spawn 0, .schedule 0 0, .popAll 0, .resume 0, .fork 0 1, .steal 1 0, .step 1]).map
        (fun s => (s.pc 1, (s.task 0).awaiting, (s.task 0).frame.loadSteals)) =
        some (.run 0, some ⟨1, 0, true⟩, 1) := by decide +kernel
    obtain ⟨s, hs, heq⟩ := Option.map_eq_some_iff.mp hexec
    obtain ⟨hpc, hrest⟩ := Prod.mk.inj heq
    obtain ⟨hk, hsteals⟩ := Prod.mk.inj hrest
    have hrun := run_fewSteals (n := 0) (Machine.run_iff_exec.mpr hs) (fun _ => Nat.le_refl 0)
      (by simp)
    refine ⟨s, hrun, ((await_resume_truthful hrun hpc hk).2 ?_).2.1⟩
    simp [Task.awaitResume, hsteals]

end Libfork.Runtime
