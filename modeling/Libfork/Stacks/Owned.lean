import Libfork.Stacks.Steps

/-!
# The stacks stay in order

* The step lemmas: a step keeps what links the tasks to the stacks.
* **`owned_of_run`** — in every run the workers, their stacks and the links stay in order.

Source: as in the model.
-/

namespace Libfork.Stacks

open Libfork.Found Libfork.Join Libfork.Runtime

variable {T : Tree} {s s' : State} {a : Act} {as : List Act} {b : Runtime.Act}
  {rt : Runtime.State} {grow : Bool} {root w f c : ℕ}

/-! ## Steps of the workers -/

/-- What a new frame is on. -/
theorem home_invoke (hs : Owned T s) (hpc : s.rt.pc w = .run f) (hc : s.rt.loc c = .unborn)
    (hst : s'.st = s.st.newFrame w c grow) :
    s'.home c = s'.home f ↔ s.rt.steals f = 0 := by
  have hrun : s.rt.loc f = .run w := hs.inv.run_loc (by rw [hpc]; rfl)
  have hne : f ≠ c := by
    rintro rfl
    cases hrun.symm.trans hc
  have hnew : s'.home c = (s.st.mFib w).root := by
    unfold State.home
    rw [hst, newFrame_self, s.st.next_root]
  have hold : s'.home f = s.home f := by
    unfold State.home
    rw [hst, newFrame_mStacklet _ hne]
  rw [hnew, hold]
  by_cases hz : s.rt.steals f = 0
  · exact iff_of_true (hs.inOrder.kept.home_of_top (hold_run hpc hz)).1.symm hz
  · refine iff_of_false (fun heq => ?_) hz
    have hf : 0 < s.size f := s.size_pos_iff.mpr (by rw [hrun]; rfl)
    exact hs.inOrder.kept.home_ne_of_bare (hold_run_of_ne hpc hz) hf heq.symm

/-- The step lemma for the links, for a step of the workers. -/
theorem linked_of_code (h : Moves T s.rt b rt) (hs : Owned T s) (hstrict : s.Strict b) :
    Linked T (s.after T b rt grow root) := by
  have hI := hs.inv
  refine ⟨?_, ?_, ?_, ?_, ?_⟩
  · intro p c hp
    rcases calling_cases h hp with hp | ⟨w, rfl, hpc, hc⟩
    · have halive := ((hI.accounts p).calling c).mp hp
      rw [home_after h (ne_unborn halive.2.2), home_after h (by simp [hp])]
      exact (hs.linked.called p c hp).trans (by rw [State.after_rt, steals_calling h hI hp])
    · have hsteals : rt.steals p = s.rt.steals p := by
        cases h
        simp [State.call]
      rw [State.after_rt, hsteals]
      exact home_invoke hs hpc hc rfl
  · intro v p k hp hk htaken
    rcases queued_cases h hp hk htaken with ⟨hp, hk⟩ | ⟨rfl, hpc, hc, hpre⟩
    · have hfork := (hI.accounts p).fork k hk
      have hph : (s.rt.task p).phase = .waits := by
        rw [Task.phase, show (s.rt.task p).loc = .queued v from hp, Task.counted,
          show (s.rt.task p).awaiting = some k from hk]
        simp [htaken]
      have hchild : s.rt.loc k.child ≠ .unborn := by
        rcases hfork.waited (Or.inr hph) with howed | hpaid
        · exact ne_unborn (((hI.accounts p).owed _).mp howed).2.2
        · intro hl
          cases ((hI.accounts p).paid _ hpaid).2.2.symm.trans (congrArg Loc.status hl)
      rw [home_after h hchild, home_after h (by simp [hp])]
      exact hs.linked.forked v p k hp hk htaken
    · rw [hpre]
      exact home_invoke hs hpc hc rfl
  · intro v c hpc
    by_cases hv : b.mover = some v
    · obtain ⟨rfl, hfinal, hq⟩ := subJoin_cases h hv hpc
      unfold State.after State.look State.effect State.stepEffect
      simp [hfinal, hq, Chains.top]
    · have hvw : ∀ w, b.mover = some w → v ≠ w := by
        rintro w hw rfl
        exact hv hw
      have hpc' : s.rt.pc v = .subJoin c := (pc_other h hvw).symm.trans hpc
      have hret : (s.rt.pc v).returned = some c := by rw [hpc']; rfl
      have hparent := hI.alive_parent (by simp [hI.fork_of_returned hret])
        (hI.alive_of_returned hret)
      obtain ⟨hp, hc⟩ := s.after_look T rt grow root hvw
      obtain ⟨hlookp, hlookc⟩ := hs.linked.looked v c hpc'
      rw [hp, hc, State.after_st, mStacklet_effect h (ne_unborn hparent), Chains.top,
        mFib_effect s hvw]
      exact ⟨hlookp, hlookc⟩
  · intro v f hpc
    by_cases hv : b.mover = some v
    · obtain ⟨hsteals, hcases⟩ := joins_cases h hv hpc
      rw [State.after_rt, hsteals]
      rcases hcases with ⟨-, hz⟩ | hload
      · exact hz
      · exact hs.linked.joins v f (Or.inl hload)
    · have hvw : ∀ w, b.mover = some w → v ≠ w := by
        rintro w hw rfl
        exact hv hw
      rw [State.after_rt, pc_other h hvw] at hpc
      have hrun : s.rt.loc f = .run v := by
        apply hI.run_loc
        rcases hpc with hpc | hpc <;> rw [hpc] <;> rfl
      have hsteals : rt.steals f = s.rt.steals f := by
        apply steals_still h hI <;> simp only [hrun, ne_eq, reduceCtorEq, not_false_eq_true,
          implies_true]
        intro w hw heq
        exact hvw w hw (Loc.run.inj heq)
      rw [State.after_rt, hsteals]
      exact hs.linked.joins v f hpc
  · intro f hf
    rw [State.after_allocs]
    rcases ended_cases h hI hf with hf | ⟨w, rfl, hrunning⟩
    · exact hs.linked.spare f hf
    · exact hstrict f hrunning

/-! ## Blocks of a task's own -/

/-- The task `f` is left with `n` blocks of its own. -/
def State.blocks (s : State) (st : Chains) (f n : ℕ) : State :=
  { s with st := st, allocs := Function.update s.allocs f n }

/-- A task that may use `co_new` has its chain. -/
theorem hold_of_outside (hs : Owned T s) (hf : s.outside w = some f) :
    s.rt.pc w = .run f ∧ s.hold T w = .top f ∧ (s.rt.task f).scope = false := by
  obtain ⟨hrunning, hscope⟩ := Option.filter_eq_some_iff.mp hf
  obtain ⟨hpc, -⟩ := running_eq_some.mp hrunning
  have hscope : (s.rt.task f).scope = false := by simpa using hscope
  have hrun : s.rt.loc f = .run w := hs.inv.run_loc (by rw [hpc]; rfl)
  exact ⟨hpc, hold_run hpc (hs.inv.steals_eq_zero hscope (phase_run hrun)), hscope⟩

section blocks

variable (hs : Owned T s) (hf : s.outside w = some f) {st : Chains} {n : ℕ}

include hs hf

/-- The frame of a task remembers another stacklet of the same chain. -/
theorem hold_blocks (hst : ∀ g, g ≠ f → st.mStacklet g = s.st.mStacklet g)
    (hself : (st.mStacklet f).root = (s.st.mFib w).root) :
    (∀ g, (s.blocks st f n).home g = s.home g) ∧ (s.blocks st f n).hold T = s.hold T := by
  have hhome : ∀ g, (s.blocks st f n).home g = s.home g := by
    intro g
    by_cases hg : g = f
    · subst hg
      exact hself.trans (hs.inOrder.kept.home_of_top (hold_of_outside hs hf).2.1).1.symm
    · exact congrArg Stacklet.root (hst g hg)
  refine ⟨hhome, funext fun v => ?_⟩
  exact State.hold_congr T s rfl (fun _ _ => rfl) (fun c _ => ⟨hhome c, hhome (T.parent c)⟩) rfl rfl

/-- A task has as many blocks as it is given. -/
theorem size_blocks : (s.blocks st f n).size = Function.update s.size f (n + 1) := by
  have hrun : s.rt.loc f = .run w := hs.inv.run_loc (by rw [(hold_of_outside hs hf).1]; rfl)
  funext g
  unfold State.size State.blocks
  dsimp only
  by_cases hg : g = f
  · rw [hg, Function.update_self, Function.update_self, hrun]
    rfl
  · rw [Function.update_of_ne hg, Function.update_of_ne hg]

/-- The step lemma for the links, for a block of a task. -/
theorem linked_blocks (hst : ∀ g, g ≠ f → st.mStacklet g = s.st.mStacklet g)
    (hself : (st.mStacklet f).root = (s.st.mFib w).root)
    (hfib : ∀ v, v ≠ w → st.mFib v = s.st.mFib v) :
    Linked T (s.blocks st f n) := by
  obtain ⟨hpc, -, hscope⟩ := hold_of_outside hs hf
  obtain ⟨hhome, -⟩ := hold_blocks hs hf (n := n) hst hself
  refine ⟨?_, ?_, ?_, hs.linked.joins, ?_⟩
  · intro p c hp
    rw [hhome, hhome]
    exact hs.linked.called p c hp
  · intro v p k hp hk htaken
    rw [hhome, hhome]
    exact hs.linked.forked v p k hp hk htaken
  · intro v c hv
    have hvw : v ≠ w := by
      rintro rfl
      cases hpc.symm.trans hv
    have hne : T.parent c ≠ f := by
      rintro rfl
      have hret : (s.rt.pc v).returned = some c := by
        rw [show s.rt.pc v = .subJoin c from hv]
        rfl
      have howed := hs.inv.owed_of_returned hret (hs.inv.fork_of_returned hret)
      rw [((hs.inv.accounts _).scope hscope).1] at howed
      exact Finset.notMem_empty c howed
    obtain ⟨hp, hc⟩ := hs.linked.looked v c hv
    exact ⟨hp.trans (hst _ hne).symm, hc.trans (hfib v hvw).symm⟩
  · intro g hg
    have hne : g ≠ f := by
      rintro rfl
      have hrun : s.rt.loc g = .run w := hs.inv.run_loc (by rw [hpc]; rfl)
      change (s.rt.loc g).ended = true at hg
      rw [hrun] at hg
      cases hg
    exact (Function.update_of_ne hne ..).trans (hs.linked.spare g hg)

end blocks

/-- `co_new` changes the stacklet of one frame. -/
theorem coNew_of_ne (g : ℕ) (hg : g ≠ f) : (s.st.coNew w f grow).mStacklet g = s.st.mStacklet g :=
  Function.update_of_ne hg ..

/-- That frame stays on the chain of the worker. -/
theorem coNew_root (grow : Bool) : ((s.st.coNew w f grow).mStacklet f).root = (s.st.mFib w).root :=
  (congrArg Stacklet.root (newFrame_self s.st)).trans (s.st.next_root w grow)

/-- The destruction of a `co_new` block changes the stacklet of one frame. -/
theorem coDelete_of_ne (g : ℕ) (hg : g ≠ f) : (s.st.coDelete w f).mStacklet g = s.st.mStacklet g :=
  (Function.update_of_ne hg ..).trans (congrFun (deallocate_mStacklet s.st) g)

/-- That frame stays on the chain of the worker. -/
theorem coDelete_root (st : Chains) : ((st.coDelete w f).mStacklet f).root = (st.mFib w).root := by
  unfold Chains.coDelete Chains.record Chains.top
  dsimp only
  rw [Function.update_self]
  unfold Chains.deallocate
  split_ifs
  · dsimp only
    rw [Function.update_self]
  · rfl

/-! ## Every step -/

/-- What a step can do. -/
theorem step_cases (h : (machine T).step s a = some s') :
    (∃ b grow root rt, a = .code b grow root ∧ s.st.chain root = none ∧ s.Strict b ∧
      (Runtime.machine T).step s.rt b = some rt ∧ s' = s.after T b rt grow root) ∨
    (∃ w f grow, a = .coNew w grow ∧ s.outside w = some f ∧
      s' = s.blocks (s.st.coNew w f grow) f (s.allocs f + 1)) ∨
    ∃ w f, a = .coDelete w ∧ s.outside w = some f ∧ 0 < s.allocs f ∧
      s' = s.blocks (s.st.coDelete w f) f (s.allocs f - 1) := by
  cases a with
  | code b grow root =>
    simp only [machine] at h
    split_ifs at h with hc
    obtain ⟨rt, hrt, rfl⟩ := Option.map_eq_some_iff.mp h
    exact Or.inl ⟨b, grow, root, rt, rfl, hc.1, hc.2, hrt, rfl⟩
  | coNew w grow =>
    obtain ⟨f, hf, rfl⟩ := Option.map_eq_some_iff.mp h
    exact Or.inr (Or.inl ⟨w, f, grow, rfl, hf, rfl⟩)
  | coDelete w =>
    obtain ⟨f, hf, rfl⟩ := Option.map_eq_some_iff.mp h
    obtain ⟨hf, hpos⟩ := Option.filter_eq_some_iff.mp hf
    exact Or.inr (Or.inr ⟨w, f, rfl, hf, by simpa using hpos, rfl⟩)

/-- **The effect of a step.** -/
theorem effect_of_step (h : (machine T).step s a = some s') (hs : Owned T s) :
    Effect T s s' a := by
  rcases step_cases h with ⟨b, grow, root, rt, rfl, hroot, hstrict, hrt, rfl⟩ |
    ⟨w, f, grow, rfl, hf, rfl⟩ | ⟨w, f, rfl, hf, hpos, rfl⟩
  · exact effect_of_code hrt hs hroot hstrict
  · obtain ⟨hpc, hw, -⟩ := hold_of_outside hs hf
    have hrun : s.rt.loc f = .run w := hs.inv.run_loc (by rw [hpc]; rfl)
    have hhold := (hold_blocks hs hf (n := s.allocs f + 1) coNew_of_ne (coNew_root grow)).2
    refine .more hw rfl hhold ((size_blocks hs hf).trans ?_)
    unfold State.size
    rw [hrun]
    rfl
  · obtain ⟨hpc, hw, -⟩ := hold_of_outside hs hf
    have hrun : s.rt.loc f = .run w := hs.inv.run_loc (by rw [hpc]; rfl)
    have hsize : s.size f = s.allocs f + 1 := by
      unfold State.size
      rw [hrun]
      rfl
    have hhold := (hold_blocks hs hf (n := s.allocs f - 1) coDelete_of_ne
      (coDelete_root s.st)).2
    refine .fewer hw (by omega) rfl hhold ((size_blocks hs hf).trans ?_)
    rw [hsize]
    congr 1
    omega

/-- The step lemma for the links. -/
theorem linked_of_step (h : (machine T).step s a = some s') (hs : Owned T s) : Linked T s' := by
  rcases step_cases h with ⟨b, grow, root, rt, rfl, hroot, hstrict, hrt, rfl⟩ |
    ⟨w, f, grow, rfl, hf, rfl⟩ | ⟨w, f, rfl, hf, hpos, rfl⟩
  · exact linked_of_code (moves_of_step hrt) hs hstrict
  · exact linked_blocks hs hf coNew_of_ne (coNew_root grow) fun v hv => Function.update_of_ne hv ..
  · exact linked_blocks hs hf coDelete_of_ne (coDelete_root s.st) fun v hv => deallocate_mFib hv

/-- **The step lemma.** -/
theorem owned_of_step (h : (machine T).step s a = some s') (hs : Owned T s)
    (hfew : ∀ f, (s'.rt.task f).taken < 65535) : Owned T s' := by
  refine ⟨?_, inOrder_of_effect (effect_of_step h hs) hs.inOrder, linked_of_step h hs⟩
  rcases step_cases h with ⟨b, grow, root, rt, rfl, hroot, hstrict, hrt, rfl⟩ |
    ⟨w, f, grow, rfl, hf, rfl⟩ | ⟨w, f, rfl, hf, hpos, rfl⟩
  · exact inv_of_moves (moves_of_step hrt) hs.inv hfew
  · exact hs.inv
  · exact hs.inv

/-- Every worker has an empty stack, and there is nothing on it. -/
theorem owned_init : Owned T .init := by
  have hchain : ∀ k bs, State.init.st.chain k = some bs → k % 2 = 0 ∧ bs = [] := by
    intro k bs hk
    change (if k % 2 = 0 then some [] else none) = some bs at hk
    split_ifs at hk with heven
    exact ⟨heven, (Option.some.inj hk).symm⟩
  have hbranch : ∀ k xs, State.init.st.cactus.branch k = some xs → k % 2 = 0 ∧ xs = [] := by
    intro k xs hk
    obtain ⟨bs, hbs, rfl⟩ := State.init.st.branch_eq_some.mp hk
    obtain ⟨heven, rfl⟩ := hchain k bs hbs
    exact ⟨heven, rfl⟩
  have hsize : ∀ x, State.init.size x = 0 := fun _ => rfl
  have hkept : Kept (beneath T) State.init.size (State.init.hold T) State.init.st.cactus := by
    refine ⟨?_, ?_, ?_, ?_, ?_, ?_⟩
    · intro k xs hk
      obtain ⟨-, rfl⟩ := hbranch k xs hk
      exact .nil
    · intro k xs x hk
      obtain ⟨-, rfl⟩ := hbranch k xs hk
      rw [hsize, ite_self]
      rfl
    · intro x hx
      exact absurd hx (Nat.lt_irrefl 0)
    · intro w
      change ((if 2 * w % 2 = 0 then some [] else none : Option (List Block)).map _) = some []
      rw [Nat.mul_mod_right]
      rfl
    · intro v w _ _ heq
      have heq : 2 * v = 2 * w := heq
      omega
    · intro k hk
      obtain ⟨heven, -⟩ := hbranch k [] hk
      refine ⟨k / 2, rfl, ?_⟩
      change 2 * (k / 2) = k
      omega
  refine ⟨inv_init, ⟨hkept, ⟨?_, ?_, ?_⟩⟩, ⟨?_, ?_, ?_, ?_, ?_⟩⟩
  · intro k bs hk
    obtain ⟨-, rfl⟩ := hchain k bs hk
    exact .nil
  · intro w bs _ hbs
    obtain ⟨-, rfl⟩ := hchain _ bs hbs
    rfl
  · intro f bs hbs hf
    obtain ⟨-, rfl⟩ := hchain _ bs hbs
    cases hf
  · intro p c hp
    cases hp
  · intro v p k hp
    cases hp
  · intro v c hpc
    cases hpc
  · rintro v f (hpc | hpc) <;> cases hpc
  · intro f _
    rfl

/-- **The run lemma.** -/
theorem owned_of_run (h : (machine T).Run (FewSteals T) .init as s) : Owned T s := by
  refine Machine.Run.invariant ?_ owned_init h
  intro s a s' hs hok hstep
  exact owned_of_step hstep hs (hok s' hstep)

end Libfork.Stacks
