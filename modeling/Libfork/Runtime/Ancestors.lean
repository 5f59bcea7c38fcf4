import Libfork.Runtime.Moves
import Mathlib.Data.List.Chain

/-!
# A deque holds fork ancestors of the task that runs

A forked child that finishes asks the deque of its worker for its parent, and takes what it gets
for granted. What it gets is right, because of a shape that each worker's deque has whatever the
other workers do: over the code it runs, a worker holds the task that forked it, over that the
task that forked that one, and so on, where called tasks count as part of their caller. Thieves
only ever shorten the far end.

* `Tree.base` — what a task is part of, when calls are not counted.
* `Lined` — the shape, at each point where a worker may stand.
* **`deque_of_run`** — a finishing child pops its own parent, and `resume` starts and returns
  with an empty deque.

No counter plays a part in this, so it holds however often a task is stolen.

Source: `promise.hpp`, `final_await_suspend`; `awaitables.hpp`, `try_self_stealing`;
`resume.hpp`.
-/

namespace Libfork.Runtime

open Libfork.Found

/-! ## Ancestors -/

namespace Tree

variable (T : Tree)

/-- The first task on the way up from `x` that was not called. -/
def base (x : ℕ) : ℕ :=
  if T.tag x = .call then base (T.parent x) else x
termination_by x
decreasing_by exact T.parent_lt x (by simp_all)

variable {T} {x d : ℕ}

/-- What a called task is part of is what its caller is part of. -/
theorem base_of_call (h : T.tag x = .call) : T.base x = T.base (T.parent x) := by
  rw [base, if_pos h]

/-- A task that was not called is part of itself. -/
theorem base_of_ne_call (h : T.tag x ≠ .call) : T.base x = x := by
  rw [base, if_neg h]

variable (T)

/-- `d` forked what `x` is part of. -/
def Forked (x d : ℕ) : Prop := T.tag (T.base x) = .fork ∧ T.parent (T.base x) = d

variable {T}

/-- A fork of a called task is one of its caller. -/
theorem Forked.of_call (h : T.tag x = .call) (hd : T.Forked x d) : T.Forked (T.parent x) d := by
  unfold Forked at hd ⊢
  rwa [base_of_call h] at hd

/-- The caller's fork is one of the called task. -/
theorem Forked.to_call (h : T.tag x = .call) (hd : T.Forked (T.parent x) d) : T.Forked x d := by
  unfold Forked at hd ⊢
  rwa [base_of_call h]

/-- A forked child was forked by its parent, and by no other. -/
theorem forked_iff_of_fork (h : T.tag x = .fork) : T.Forked x d ↔ T.parent x = d := by
  unfold Forked
  rw [base_of_ne_call (by simp [h])]
  simp [h]

/-- Nobody forked a root. -/
theorem not_forked_of_root (h : T.tag x = .root) : ¬ T.Forked x d := by
  unfold Forked
  rw [base_of_ne_call (by simp [h])]
  simp [h]

end Tree

/-! ## The shape of a deque -/

variable {T : Tree} {s s' : State} {a : Act} {as : List Act}

/-- What the deque of a worker that stands at a point looks like. -/
def Lined (T : Tree) : Pc → List ℕ → Prop
  | .run f, q => List.IsChain T.Forked (f :: q)
  | .joinLoad f, q => List.IsChain T.Forked (f :: q)
  | .joinSub f, q => List.IsChain T.Forked (f :: q)
  | .final c, q => T.tag c = .fork ∧ List.IsChain T.Forked (c :: q)
  | .switched _ _, q => List.IsChain T.Forked q
  | .selfSteal, q => List.IsChain T.Forked q
  | .idle, q => q = []
  | .stolen _, q => q = []
  | .subJoin _, q => q = []
  | .lost _, q => q = []

/-- A chain stays one when its far end is cut off. -/
theorem isChain_prefix {R : ℕ → ℕ → Prop} {x : ℕ} {q r : List ℕ}
    (h : List.IsChain R (x :: (q ++ r))) : List.IsChain R (x :: q) := by
  rw [← List.cons_append] at h
  exact h.left_of_append

/-- A thief shortens the far end. -/
theorem Lined.of_append {pc : Pc} {q r : List ℕ} (h : Lined T pc (q ++ r)) : Lined T pc q := by
  cases pc with
  | run f => exact isChain_prefix h
  | joinLoad f => exact isChain_prefix h
  | joinSub f => exact isChain_prefix h
  | final c => exact ⟨h.1, isChain_prefix h.2⟩
  | switched f steals => exact List.IsChain.left_of_append h
  | selfSteal => exact List.IsChain.left_of_append h
  | idle => exact (List.append_eq_nil_iff.mp h).1
  | stolen f => exact (List.append_eq_nil_iff.mp h).1
  | subJoin c => exact (List.append_eq_nil_iff.mp h).1
  | lost c => exact (List.append_eq_nil_iff.mp h).1

/-- A task that gives way to its caller. -/
theorem lined_of_call {f : ℕ} {q : List ℕ} (ht : T.tag f = .call)
    (h : List.IsChain T.Forked (f :: q)) : List.IsChain T.Forked (T.parent f :: q) := by
  cases q with
  | nil => exact .singleton _
  | cons d q =>
      obtain ⟨hd, hq⟩ := List.isChain_cons_cons.mp h
      exact List.isChain_cons_cons.mpr ⟨hd.of_call ht, hq⟩

/-- A task that gives way to one it calls. -/
theorem lined_to_call {c : ℕ} {q : List ℕ} (ht : T.tag c = .call)
    (h : List.IsChain T.Forked (T.parent c :: q)) : List.IsChain T.Forked (c :: q) := by
  cases q with
  | nil => exact .singleton _
  | cons d q =>
      obtain ⟨hd, hq⟩ := List.isChain_cons_cons.mp h
      exact List.isChain_cons_cons.mpr ⟨hd.to_call ht, hq⟩

/-- What a forked child finds is its parent. -/
theorem lined_pop {c d : ℕ} {q : List ℕ} (ht : T.tag c = .fork)
    (h : List.IsChain T.Forked (c :: d :: q)) :
    d = T.parent c ∧ List.IsChain T.Forked (T.parent c :: q) := by
  obtain ⟨hd, hq⟩ := List.isChain_cons_cons.mp h
  rw [Tree.forked_iff_of_fork ht] at hd
  subst hd
  exact ⟨rfl, hq⟩

/-- A root has nothing under it. -/
theorem lined_root {r : ℕ} {q : List ℕ} (ht : T.tag r = .root)
    (h : List.IsChain T.Forked (r :: q)) : q = [] := by
  cases q with
  | nil => rfl
  | cons d q => exact absurd (List.isChain_cons_cons.mp h).1 (Tree.not_forked_of_root ht)

/-! ## Every step keeps it -/

/-- The shape at every worker. -/
def AllLined (T : Tree) (s : State) : Prop := ∀ w, Lined T (s.pc w) (s.deque w)

/-- One worker moves on, with its own deque. -/
theorem AllLined.update {w : ℕ} {pc : Pc} {q : List ℕ} (hs : AllLined T s)
    (hpc : s'.pc = Function.update s.pc w pc) (hq : s'.deque = Function.update s.deque w q)
    (h : Lined T pc q) : AllLined T s' := by
  intro v
  rw [hpc, hq]
  by_cases hv : v = w
  · subst hv
    rwa [Function.update_self, Function.update_self]
  · rw [Function.update_of_ne hv, Function.update_of_ne hv]
    exact hs v

/-- One worker moves on, and no deque changes. -/
theorem AllLined.goto {w : ℕ} {pc : Pc} (hs : AllLined T s)
    (hpc : s'.pc = Function.update s.pc w pc) (hq : s'.deque = s.deque)
    (h : Lined T pc (s.deque w)) : AllLined T s' :=
  hs.update hpc (by rw [hq, Function.update_eq_self]) h

/-- No worker moves on. -/
theorem AllLined.stay (hs : AllLined T s) (hpc : s'.pc = s.pc) (hq : s'.deque = s.deque) :
    AllLined T s' := by
  intro w
  rw [hpc, hq]
  exact hs w

/-- **The step lemma.** -/
theorem lined_of_moves (h : Moves T s a s') (hs : AllLined T s) : AllLined T s' := by
  cases h with
  | spawn hl ht => exact hs.stay rfl rfl
  | schedule hl => exact hs.stay rfl rfl
  | popAll hpc htodo hq => exact hs.stay rfl rfl
  | @resume w f fs hpc htodo =>
      have hw := hs w
      rw [hpc] at hw
      refine hs.goto rfl rfl ?_
      rw [show s.deque w = [] from hw]
      exact List.IsChain.singleton f
  | @steal w v f q hpc htodo hq =>
      have hv := hs v
      rw [hq] at hv
      have hs₁ : AllLined T (s.setDeque v q) :=
        hs.update (Function.update_eq_self v s.pc).symm rfl hv.of_append
      have hw := hs₁ w
      rw [State.setDeque_pc, hpc] at hw
      exact hs₁.goto rfl rfl hw
  | @fork w f c hpc haw hl ht hp =>
      have hw := hs w
      rw [hpc] at hw
      exact hs.update rfl rfl
        (List.isChain_cons_cons.mpr ⟨(Tree.forked_iff_of_fork ht).mpr hp, hw⟩)
  | @call w f c hpc haw hl ht hp =>
      have hw := hs w
      rw [hpc, ← hp] at hw
      exact hs.goto rfl rfl (lined_to_call ht hw)
  | @retRoot w f hpc haw hscope ht =>
      have hw := hs w
      rw [hpc] at hw
      exact hs.goto rfl rfl (lined_root ht hw)
  | @retCall w f hpc haw hscope ht =>
      have hw := hs w
      rw [hpc] at hw
      exact hs.goto rfl rfl (lined_of_call ht hw)
  | @retFork w f hpc haw hscope ht =>
      have hw := hs w
      rw [hpc] at hw
      exact hs.goto rfl rfl ⟨ht, hw⟩
  | shortcut hpc haw hz => exact hs.stay rfl rfl
  | @joinCall w f hpc haw hz =>
      have hw := hs w
      rw [hpc] at hw
      exact hs.goto rfl rfl hw
  | @switch w f hpc haw =>
      have hw := hs w
      rw [hpc] at hw
      have hq : Lined T (.switched f (s.task f).frame.loadSteals) (s.deque w) := hw.tail
      refine hs.goto ?_ ?_ hq
      · simp [State.switch]
      · simp [State.switch]
  | @addSteal w f hpc =>
      have hw := hs w
      rw [hpc] at hw
      refine hs.goto rfl rfl ?_
      rw [show s.deque w = [] from hw]
      exact List.IsChain.singleton f
  | awaitResume hpc haw => exact hs.stay rfl rfl
  | @pop w c d q hpc hq =>
      have hw := hs w
      rw [hpc, hq] at hw
      exact hs.update rfl rfl (lined_pop hw.1 hw.2).2
  | @popNone w c hpc hq => exact hs.goto rfl rfl hq
  | @decLast w c hpc hold =>
      have hw := hs w
      rw [hpc] at hw
      refine hs.goto rfl rfl ?_
      rw [show s.deque w = [] from hw]
      exact List.IsChain.singleton _
  | @dec w c hpc hold =>
      have hw := hs w
      rw [hpc] at hw
      exact hs.goto rfl rfl hw
  | @yield w c hpc =>
      have hw := hs w
      rw [hpc] at hw
      exact hs.goto rfl rfl hw
  | @ready w f hpc heq =>
      have hw := hs w
      rw [hpc] at hw
      exact hs.goto rfl rfl hw
  | @notReady w f hpc =>
      have hw := hs w
      rw [hpc] at hw
      exact hs.goto rfl rfl hw
  | @win w f hpc heq =>
      have hw := hs w
      rw [hpc] at hw
      exact hs.goto rfl rfl hw
  | @lose w f hpc hne =>
      have hw := hs w
      rw [hpc] at hw
      have hq : Lined T .selfSteal (s.deque w) := hw.tail
      refine hs.goto ?_ ?_ hq
      · simp
      · simp
  | @release w f steals hpc =>
      have hw := hs w
      rw [hpc] at hw
      exact hs.goto rfl rfl hw
  | @selfPop w d q hpc hq =>
      have hw := hs w
      rw [hpc, hq] at hw
      exact hs.update rfl rfl hw
  | selfNone hpc hq => exact hs.goto rfl rfl hq

/-- The run lemma. -/
theorem lined_of_run (h : (machine T).Run Machine.free .init as s) : AllLined T s := by
  have hinit : AllLined T .init := fun w => Eq.refl (State.init.deque w)
  refine Machine.Run.invariant ?_ hinit h
  intro s a s' hs _ hstep
  exact lined_of_moves (moves_of_step hstep) hs

/-- **A finishing child pops its own parent; `resume` starts and returns with an empty deque.**
Outside `resume` a worker is idle; it starts a stolen task once it has counted the steal, and a
submitted one by going to the next of its list. -/
theorem deque_of_run (h : (machine T).Run Machine.free .init as s) (w : ℕ) :
    (∀ c d q, s.pc w = .final c → s.deque w = d :: q → T.tag c = .fork ∧ d = T.parent c) ∧
    (s.pc w = .idle → s.deque w = []) ∧
    (∀ f, s.pc w = .stolen f → s.deque w = []) ∧
    ∀ s', (machine T).step s (.resume w) = some s' → s'.deque w = [] := by
  have hw := lined_of_run h w
  refine ⟨?_, ?_, ?_, ?_⟩
  · intro c d q hpc hq
    rw [hpc, hq] at hw
    exact ⟨hw.1, (lined_pop hw.1 hw.2).1⟩
  · intro hpc
    rwa [hpc] at hw
  · intro f hpc
    rwa [hpc] at hw
  · intro s' hstep
    cases moves_of_step hstep with
    | resume hpc htodo => rwa [hpc] at hw

/-- A root, `0`, that forks `1`. -/
def Tree.pair : Tree where
  tag c := if c = 1 then .fork else .root
  parent _ := 0
  parent_lt := by
    intro c hc
    split_ifs at hc with h
    · simp [h]
    · exact absurd rfl hc

/-- The child of `pair` returns on the worker that forked it, and is about to pop the root. -/
theorem deque_of_run_pair : ∃ s, (machine .pair).Run Machine.free .init
    [.spawn 0, .schedule 0 0, .popAll 0, .resume 0, .fork 0 1, .ret 0] s ∧
    s.pc 0 = .final 1 ∧ s.deque 0 = [0] ∧ 0 = Tree.pair.parent 1 := by
  have hexec : ((machine .pair).exec Machine.free .init
      [.spawn 0, .schedule 0 0, .popAll 0, .resume 0, .fork 0 1, .ret 0]).map
      (fun s => (s.pc 0, s.deque 0)) = some (.final 1, [0]) := by decide +kernel
  obtain ⟨s, hs, heq⟩ := Option.map_eq_some_iff.mp hexec
  obtain ⟨hpc, hq⟩ := Prod.mk.inj heq
  have hrun := Machine.run_iff_exec.mpr hs
  exact ⟨s, hrun, hpc, hq, ((deque_of_run hrun 0).1 1 0 [] hpc hq).2⟩

end Libfork.Runtime
