import Libfork.Stacks.Owned

/-!
# No assertion on stacks fails

The source asserts, at each point where a stack changes hands, that the stack of the worker is
empty, that the stacklet it takes over is the top of its chain, or that the frame of the task it
goes on with remembers the top of its stack.

* **`asserts_of_run`** — in no run does any of these fail.

Source: `promise.hpp`, `final_await_suspend`, `final_awaitable`; `awaitables.hpp`; `resume.hpp`;
`stack.hpp`, `stack::stack(stacklet *)`.
-/

namespace Libfork.Stacks

open Libfork.Found Libfork.Join Libfork.Runtime

variable {T : Tree} {s s' : State} {a : Act} {as : List Act} {b : Runtime.Act}
  {rt : Runtime.State} {grow : Bool} {root w f c : ℕ}

namespace Owned

variable (hs : Owned T s)

include hs

/-- An idle worker has an empty stack, and so has any that has nothing on its chain. -/
theorem empty (hw : s.hold T w = .bare) : s.st.empty w = true :=
  hs.inOrder.pointed.empty_of_bare hs.inOrder.kept hw

/-- What a worker runs is what its stack points to. -/
theorem top_eq (hw : s.hold T w = .top f) : s.st.mStacklet f = s.st.top w :=
  hs.inOrder.pointed.top_eq hs.inOrder.kept hw

/-- A task that the worker does not have on its chain is on another. -/
theorem top_ne (hw : s.hold T w = .bare) (hf : (s.rt.loc f).ended = false) :
    s.st.mStacklet f ≠ s.st.top w := fun heq =>
  hs.inOrder.kept.home_ne_of_bare hw (s.size_pos_iff.mpr hf) (congrArg Stacklet.root heq)

/-- A task whose children have all returned is on top of its chain. -/
theorem isTop (hf : (s.rt.loc f).ended = false)
    (hleaf : ∀ c, T.tag c ≠ .root → T.parent c = f → (s.rt.loc c).ended = true) :
    ∃ b bs, s.st.chain (s.home f) = some (b :: bs) ∧ b.task = f ∧
      s.st.isTop (s.st.mStacklet f) = true := by
  obtain ⟨xs, hxs⟩ := hs.inOrder.kept.exists_top (s.size_pos_iff.mpr hf) fun c hc => by
    obtain ⟨ht, hpar⟩ := beneath_eq_some hc
    exact s.size_eq_zero (hleaf c ht hpar)
  obtain ⟨bs, hbs, hmap⟩ := s.st.branch_eq_some.mp hxs
  obtain ⟨b, bs, rfl, rfl, -⟩ := List.map_eq_cons_iff.mp hmap
  exact ⟨b, bs, hbs, rfl, hs.inOrder.pointed.isTop_mStacklet hbs⟩

end Owned

/-! ## Each step -/

section steps

variable (hs : Owned T s) (hs' : Owned T s')

include hs

/-- A worker goes on with what was submitted to it. -/
theorem asserts_resume {f : ℕ} {fs : List ℕ} (hpc : s.rt.pc w = .idle)
    (htodo : s.rt.todo w = f :: fs) :
    s.st.empty w = true ∧
      ((s.rt.task f).frame.loadSteals = 0 → s.st.isTop (s.st.mStacklet f) = true) := by
  refine ⟨hs.empty (hold_eq_bare (.inl hpc)), fun hz => ?_⟩
  have hsuspended := (Continues.submitted (T := T) hpc htodo hz).suspended hs.inv
  obtain ⟨-, -, -, -, htop⟩ := hs.isTop hsuspended.live hsuspended.leaf
  exact htop

include hs'

/-- A task that awaits a join takes its chain over. -/
theorem takeAsserts (hpc : s.rt.pc w = .joinLoad f ∨ s.rt.pc w = .joinSub f) (hj : s.Joined f)
    (hpc' : s'.rt.pc w = .run f) (hz : s'.rt.steals f = 0) : s.TakeAsserts s' w f := by
  have hsuspended := suspended_of_joined hs.inv hpc hj
  obtain ⟨-, -, -, -, htop⟩ := hs.isTop hsuspended.live hsuspended.leaf
  refine ⟨hs.linked.joins w f hpc, ?_, htop, hs'.top_eq (hold_run hpc' hz)⟩
  exact hs.empty (hold_eq_bare (hpc.elim (fun h => .inr (.inr (.inl ⟨f, h⟩)))
    fun h => .inr (.inr (.inr (.inl ⟨f, h⟩)))))

/-- A worker that goes on by itself. -/
theorem stepAsserts (h : (Runtime.machine T).step s.rt (.step w) = some s'.rt) :
    s.StepAsserts T s' w := by
  have hstep : workerStep T s.rt w = some s'.rt := h
  unfold workerStep at hstep
  unfold State.StepAsserts
  split
  · next f hpc => exact hs.empty (hold_eq_bare (.inr (.inl ⟨f, hpc⟩)))
  · next c hpc =>
    intro hold
    simp only [hpc, Runtime.State.subJoin, if_pos hold, Option.some.injEq] at hstep
    have hpc' : s'.rt.pc w = .run (T.parent c) := by
      rw [← hstep]
      simp
    have hz : s'.rt.steals (T.parent c) = 0 := by
      rw [← hstep]
      simp
    refine ⟨fun hne => ?_, hs'.top_eq (hold_run hpc' hz)⟩
    have hsuspended := (Continues.last (T := T) hpc hold).suspended hs.inv
    obtain ⟨-, -, -, -, htop⟩ := hs.isTop hsuspended.live hsuspended.leaf
    have hw := hold_returned (T := T) (s := s) (v := w) (c := c) (by rw [hpc]; rfl)
    unfold State.under at hw
    rw [if_neg fun heq => hne ((looked_iff hs hpc).mpr heq)] at hw
    rw [(hs.linked.looked w c hpc).1]
    exact ⟨hs.empty hw, htop⟩
  · next c hpc =>
    simp only [hpc, Option.some.injEq] at hstep
    refine hs'.empty (hold_eq_bare (.inl ?_))
    rw [← hstep]
    simp
  · next f hpc =>
    intro hj
    unfold State.Joined at hj
    simp only [hpc, if_pos hj, Option.some.injEq] at hstep
    refine takeAsserts hs hs' (.inl hpc) hj ?_ ?_
    · rw [← hstep]
      simp
    · rw [← hstep]
      simp
  · next f hpc =>
    intro hj
    unfold State.Joined at hj
    simp only [hpc, Runtime.State.joinSub, if_pos hj, Option.some.injEq] at hstep
    refine takeAsserts hs hs' (.inr hpc) hj ?_ ?_
    · rw [← hstep]
      simp
    · rw [← hstep]
      simp
  · next f n hpc =>
    simp only [hpc, Option.some.injEq] at hstep
    refine hs'.empty (hold_eq_bare (.inr (.inr (.inr (.inr ?_)))))
    rw [← hstep]
    simp
  · next hpc =>
    intro hpc'
    exact hs'.empty (hold_eq_bare (.inl hpc'))
  · trivial

/-- **The step lemma.** -/
theorem asserts_of_step (h : (machine T).step s a = some s') : s.Asserts T s' a := by
  rcases step_cases h with ⟨b, grow, root, rt, rfl, hroot, hstrict, hrt, rfl⟩ |
    ⟨w, f, grow, rfl, hf, rfl⟩ | ⟨w, f, rfl, hf, hpos, rfl⟩
  · have hmoves := moves_of_step hrt
    cases b with
    | resume w =>
      cases hmoves with
      | @resume _ g fs hpc htodo =>
        intro f hf
        obtain rfl : g = f := by simpa [htodo] using hf
        exact asserts_resume hs hpc htodo
    | ret w =>
      intro f hf
      obtain ⟨hpc, haw⟩ := running_eq_some.mp hf
      have hsame : ∀ {g}, s.rt.pc w = .run g → f = g := by
        intro g hg
        simpa [hpc] using hg
      cases hmoves with
      | @retRoot _ g hpc' haw' hscope ht =>
        obtain rfl := hsame hpc'
        refine ⟨(hs.top_eq (hold_of_ret hs hstrict hpc haw hscope).1).symm, fun _ => ?_⟩
        exact hs'.empty (hold_eq_bare (.inl (by simp)))
      | @retCall _ g hpc' haw' hscope ht =>
        obtain rfl := hsame hpc'
        refine ⟨(hs.top_eq (hold_of_ret hs hstrict hpc haw hscope).1).symm, fun hroot' => ?_⟩
        cases ht.symm.trans hroot'
      | @retFork _ g hpc' haw' hscope ht =>
        obtain rfl := hsame hpc'
        refine ⟨(hs.top_eq (hold_of_ret hs hstrict hpc haw hscope).1).symm, fun hroot' => ?_⟩
        cases ht.symm.trans hroot'
    | join w =>
      intro f hf hz
      exact hs.top_eq (hold_run (running_eq_some.mp hf).1 hz)
    | switch w =>
      intro f hf
      obtain ⟨hpc, -⟩ := running_eq_some.mp hf
      have hrun : s.rt.loc f = .run w := hs.inv.run_loc (by rw [hpc]; rfl)
      constructor
      · intro hz
        exact hs.top_eq (hold_run hpc hz)
      · intro heq
        by_contra hz
        exact hs.top_ne (hold_run_of_ne hpc hz) (by rw [hrun]; rfl) heq
    | step w => exact stepAsserts hs hs' hrt
    | spawn r => trivial
    | schedule f w => trivial
    | popAll w => trivial
    | steal w v => trivial
    | fork w c => trivial
    | call w c => trivial
  · intro g hg
    obtain ⟨hpc, hw, -⟩ := hold_of_outside hs hf
    obtain rfl : f = g := by simpa [hpc] using (running_eq_some.mp hg).1
    exact (hs.top_eq hw).symm
  · intro g hg
    obtain ⟨hpc, hw, -⟩ := hold_of_outside hs hf
    obtain rfl : f = g := by simpa [hpc] using (running_eq_some.mp hg).1
    exact hs.top_eq hw

end steps

/-! ## Every run -/

/-- A run of fewer than 65535 steps has few steals. -/
theorem run_fewSteals {n : ℕ} (h : (machine T).Run Machine.free s as s') (hs : TakenLe n s.rt)
    (hlen : n + as.length < 65535) : (machine T).Run (FewSteals T) s as s' := by
  induction as generalizing s n with
  | nil => exact h
  | cons a as ih =>
    obtain ⟨-, m, hstep, h⟩ := h
    rw [List.length_cons, ← Nat.add_assoc, Nat.add_right_comm] at hlen
    have hm : TakenLe (n + 1) m.rt := by
      rcases step_cases hstep with ⟨b, grow, root, rt, rfl, hroot, hstrict, hrt, rfl⟩ |
        ⟨w, f, grow, rfl, hf, rfl⟩ | ⟨w, f, rfl, hf, hpos, rfl⟩
      · exact takenLe_of_moves (moves_of_step hrt) hs
      · exact hs.succ
      · exact hs.succ
    refine ⟨?_, m, hstep, ih h hm hlen⟩
    intro m' hstep' f
    obtain rfl : m = m' := Option.some.inj (hstep.symm.trans hstep')
    exact (hm f).trans_lt (Nat.lt_of_le_of_lt (Nat.le_add_right _ _) hlen)

/-- **No assertion on stacks fails**, in any step of any run. -/
theorem asserts_of_run (h : (machine T).Run (FewSteals T) .init as s) (hfew : FewSteals T s a)
    (hstep : (machine T).step s a = some s') : s.Asserts T s' a := by
  have hs := owned_of_run h
  exact asserts_of_step hs (owned_of_step hstep hs (hfew s' hstep)) hstep

/-- The root of `pair` is stolen from under its child, which returns before the root joins. -/
def handover : List Act :=
  [.code (.spawn 0) false 1, .code (.schedule 0 0) false 3, .code (.popAll 0) false 3,
    .code (.resume 0) false 3, .code (.fork 0 1) true 3, .code (.steal 1 0) false 3,
    .code (.step 1) false 3, .code (.step 1) false 3, .code (.ret 0) false 3,
    .code (.step 0) false 3, .code (.step 0) false 3, .code (.join 1) false 3]

/-- The thief is about to take the stack of the root over from its first worker. -/
theorem run_handover : ∃ s s', (machine .pair).Run (FewSteals .pair) .init handover s ∧
    FewSteals .pair s (.code (.step 1) false 3) ∧
    (machine .pair).step s (.code (.step 1) false 3) = some s' ∧
    s.rt.pc 0 = .lost 1 ∧ s.rt.pc 1 = .joinLoad 0 ∧ s.Joined 0 ∧
    s.st.chain 1 = some [⟨0, 0⟩] := by
  have hexec : ((machine .pair).exec Machine.free .init
      (handover ++ [.code (.step 1) false 3])).isSome = true := by decide +kernel
  obtain ⟨s', hs'⟩ := Option.isSome_iff_exists.mp hexec
  have hrun := run_fewSteals (n := 0) (Machine.run_iff_exec.mpr hs') (fun _ => Nat.le_refl 0)
    (by simp [handover])
  obtain ⟨s, hs, hfew, s'', hstep, -⟩ := Machine.run_append.mp hrun
  have hfree : (machine .pair).Run Machine.free .init handover s :=
    hs.mono fun _ _ _ => trivial
  have hat : ((machine .pair).exec Machine.free .init handover).map
      (fun s => ((s.rt.pc 0, s.rt.pc 1), decide (s.Joined 0), s.st.chain 1)) =
      some ((.lost 1, .joinLoad 0), true, some [⟨0, 0⟩]) := by decide +kernel
  rw [Machine.run_iff_exec.mp hfree, Option.map_some, Option.some.injEq] at hat
  simp only [Prod.mk.injEq, decide_eq_true_eq, and_assoc] at hat
  exact ⟨s, s'', hs, hfew, hstep, hat⟩

/-- The thief of `pair` takes the stack over with every assertion met. -/
theorem asserts_of_run_handover :
    ∃ s s' : State, s.rt.pc 1 = .joinLoad 0 ∧ s.TakeAsserts s' 1 0 := by
  obtain ⟨s, s', hrun, hfew, hstep, -, hpc, hj, -⟩ := run_handover
  have hasserts : s.StepAsserts .pair s' 1 := asserts_of_run hrun hfew hstep
  unfold State.StepAsserts at hasserts
  rw [hpc] at hasserts
  exact ⟨s, s', hpc, hasserts hj⟩

end Libfork.Stacks
