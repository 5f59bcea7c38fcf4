import Libfork.Found.Cost
import Libfork.Runtime.Loaded
import Libfork.Runtime.Progress
import Mathlib.Algebra.BigOperators.Group.Finset.Basic
import Mathlib.Algebra.Order.BigOperators.Group.Finset
import Mathlib.Data.Nat.Prime.Basic

/-!
# Programs end

* `State.load` — what the workers have on hand, counted so that every step of theirs that is not
  the code's lowers it, and a step of the code raises it by four at most.
* `Loaded.goes_on` — as long as the root has not returned, a worker can take a step, unless the
  outside holds a handle.
* **`ends_of_run`** — a safe program ends: the workers take a number of steps that is linear in
  that of the sequential run, whatever they do, and when they have no step left the root has
  returned what the sequential run returns.

A `try_steal` that finds nothing is no step here.

Source: as in the model.
-/

namespace Libfork.Runtime

open Libfork.Found

/-! ## What the workers have on hand -/

/-- How many steps a worker is away from its next task, or from none. -/
def State.rank (s : State) (w : ℕ) : ℕ :=
  match s.pc w with
  | .idle => 0
  | .stolen _ => 2
  | .run f => if (s.task f).awaiting = none then 0 else 1
  | .final _ => 3
  | .subJoin _ => 2
  | .lost _ => 1
  | .joinLoad _ => 4
  | .joinSub _ => 3
  | .switched _ _ => 2
  | .selfSteal => 1

/-- The elements of the lists of some workers. -/
def total (W : Finset ℕ) (q : ℕ → List ℕ) : ℕ := ∑ w ∈ W, (q w).length

/-- What the workers `W` have on hand. -/
def State.load (s : State) (W : Finset ℕ) : ℕ :=
  ∑ w ∈ W, s.rank w + 3 * total W s.deque + 2 * total W s.todo + 3 * total W s.submit

/-- Whose lists an action changes, and who takes it. -/
def Act.workers : Act → List ℕ
  | .spawn _ => []
  | .schedule _ w => [w]
  | .popAll w => [w]
  | .resume w => [w]
  | .steal w v => [w, v]
  | .fork w _ => [w]
  | .call w _ => [w]
  | .ret w => [w]
  | .join w => [w]
  | .switch w => [w]
  | .step w => [w]

/-- The outside schedules a handle, or gets one. -/
def Act.external : Act → Bool
  | .schedule _ _ => true
  | .switch _ => true
  | _ => false

section load

variable {T : Tree} {s s' : State} {a : Act} {W : Finset ℕ} {w v f : ℕ}

/-- One list is replaced by another. -/
theorem total_update {q : ℕ → List ℕ} {l : List ℕ} (hw : w ∈ W) :
    total W (Function.update q w l) + (q w).length = total W q + l.length := by
  unfold total
  rw [← Finset.add_sum_erase W _ hw, ← Finset.add_sum_erase W (fun w => (q w).length) hw,
    Function.update_self]
  have hrest : ∑ v ∈ W.erase w, (Function.update q w l v).length =
      ∑ v ∈ W.erase w, (q v).length := by
    refine Finset.sum_congr rfl fun v hv => ?_
    rw [Function.update_of_ne (Finset.ne_of_mem_erase hv)]
  omega

/-- A task that waits for nothing still does so when it is touched. -/
theorem Touched.awaiting {t t' : Task} (h : Touched t t') (ht : t.awaiting = none) :
    t'.awaiting = none := by
  induction h with
  | take =>
    unfold Task.take
    rw [ht]
    exact ht
  | resumed => rfl
  | trans _ _ ih ih' => exact ih' (ih ht)
  | _ => exact ht

/-- A worker that stands where it stood is as far as it was, or nearer. -/
theorem rank_le (hpc : s'.pc w = s.pc w)
    (haw : ∀ f, s.pc w = .run f → (s.task f).awaiting = none → (s'.task f).awaiting = none) :
    s'.rank w ≤ s.rank w := by
  unfold State.rank
  rw [hpc]
  split
  case h_3 f hf =>
    by_cases hnone : (s.task f).awaiting = none
    · rw [if_pos (haw f hf hnone)]
      exact Nat.zero_le _
    · rw [if_neg hnone]
      split_ifs <;> omega
  all_goals exact Nat.le_refl _

/-- The other workers are where they were. -/
theorem rank_other (h : Moves T s a s') (hI : Inv T s) (hv : ∀ w, a.mover = some w → v ≠ w) :
    s'.rank v ≤ s.rank v := by
  refine rank_le (pc_other h hv) fun f hf hnone => ?_
  rcases touched_of_moves h with htouched | ⟨w, g, c, rfl, hrun, htouched⟩
  · exact (htouched f).awaiting hnone
  · have hfg : f ≠ g := by
      rintro rfl
      have hw := (hI.placed.run w f).mp (by rw [(running_eq_some.mp hrun).1]; rfl)
      have hv' := (hI.placed.run v f).mp (by rw [hf]; rfl)
      exact hv w rfl (Loc.run.inj (hv'.symm.trans hw))
    refine (htouched f).awaiting ?_
    rwa [State.modify_of_ne _ _ _ _ hfg]

/-- A worker that runs a task ranks 1 at most. -/
theorem rank_run (hpc : s.pc w = .run f) : s.rank w ≤ 1 := by
  unfold State.rank
  rw [hpc]
  dsimp only
  split_ifs <;> omega

/-- One worker moves. -/
theorem sum_rank_le (h : Moves T s a s') (hI : Inv T s) (ha : a.mover = some w) (hw : w ∈ W) :
    ∑ v ∈ W, s'.rank v + s.rank w ≤ ∑ v ∈ W, s.rank v + s'.rank w := by
  rw [← Finset.add_sum_erase W _ hw, ← Finset.add_sum_erase W (fun v => s.rank v) hw]
  have hrest : ∑ v ∈ W.erase w, s'.rank v ≤ ∑ v ∈ W.erase w, s.rank v := by
    refine Finset.sum_le_sum fun v hv => rank_other h hI fun u hu => ?_
    cases ha.symm.trans hu
    exact Finset.ne_of_mem_erase hv
  omega

/-- One worker moves, and no list changes. -/
theorem load_of_rank {n r : ℕ} (h : Moves T s a s') (hI : Inv T s) (ha : a.mover = some w)
    (hw : w ∈ W) (hq : s'.deque = s.deque) (htodo : s'.todo = s.todo)
    (hsub : s'.submit = s.submit) (hr : s'.rank w ≤ r) (hlt : r + 1 ≤ s.rank w + n) :
    s'.load W + 1 ≤ s.load W + n := by
  have hsum := sum_rank_le h hI ha hw
  unfold State.load
  rw [hq, htodo, hsub]
  omega

/-- One worker moves, and one deque changes. -/
theorem load_of_deque {n r : ℕ} {q : List ℕ} (h : Moves T s a s') (hI : Inv T s)
    (ha : a.mover = some w) (hw : w ∈ W) (hv : v ∈ W) (hq : s'.deque = Function.update s.deque v q)
    (htodo : s'.todo = s.todo) (hsub : s'.submit = s.submit) (hr : s'.rank w ≤ r)
    (hlt : r + 3 * q.length + 1 ≤ s.rank w + 3 * (s.deque v).length + n) :
    s'.load W + 1 ≤ s.load W + n := by
  have hsum := sum_rank_le h hI ha hw
  have htotal := total_update (q := s.deque) (l := q) hv
  unfold State.load
  rw [hq, htodo, hsub]
  omega

/-- What an action may add to what the workers have on hand, and itself. -/
def Act.price : Act → ℕ
  | .spawn _ => 1
  | .schedule _ _ => 4
  | .switch _ => 4
  | .fork _ _ => 5
  | .call _ _ => 5
  | .ret _ => 5
  | .join _ => 5
  | _ => 0

/-- An idle worker ranks 0. -/
theorem rank_idle (hpc : s.pc w = .idle) : s.rank w = 0 := by simp [State.rank, hpc]

/-- One that looks into its own deque ranks 1. -/
theorem rank_selfSteal (hpc : s.pc w = .selfSteal) : s.rank w = 1 := by simp [State.rank, hpc]

/-- **What a step does to what the workers have on hand.** -/
theorem load_of_moves (h : Moves T s a s') (hI : Inv T s) (hW : ∀ w ∈ a.workers, w ∈ W) :
    s'.load W + 1 ≤ s.load W + a.price := by
  have hmoves := h
  cases h with
  | @spawn r hl ht =>
    have hsum : ∑ w ∈ W, (s.place r .outside).rank w ≤ ∑ w ∈ W, s.rank w :=
      Finset.sum_le_sum fun w _ => rank_other hmoves hI (by simp [Act.mover])
    simp only [State.load, State.place_deque, State.place_todo, State.place_submit, Act.price]
    omega
  | @schedule f v hl =>
    have hv := hW v List.mem_cons_self
    have hsum : ∑ w ∈ W, (s.schedule f v).rank w ≤ ∑ w ∈ W, s.rank w :=
      Finset.sum_le_sum fun w _ => rank_other hmoves hI (by simp [Act.mover])
    have htotal := total_update (q := s.submit) (l := s.submit v ++ [f]) hv
    rw [List.length_append, List.length_singleton] at htotal
    simp only [State.load, State.schedule_deque, State.schedule_todo, State.schedule_submit,
      Act.price]
    omega
  | @popAll w hpc htodo hq =>
    have hw := hW w List.mem_cons_self
    have hsum := sum_rank_le hmoves hI rfl hw
    have hrank : (s.popAll w).rank w = s.rank w := rfl
    have htotal := total_update (q := s.todo) (l := s.submit w) hw
    have hsub := total_update (q := s.submit) (l := []) hw
    have hpos := List.length_pos_iff.mpr hq
    rw [htodo, List.length_nil] at htotal
    rw [List.length_nil] at hsub
    simp only [State.load, State.popAll_deque, State.popAll_todo, State.popAll_submit, Act.price]
    omega
  | @resume w f fs hpc htodo =>
    have hw := hW w List.mem_cons_self
    have hsum := sum_rank_le hmoves hI rfl hw
    have hrank : (s.resume w f fs).rank w ≤ 1 := rank_run (f := f) (by simp)
    have htotal := total_update (q := s.todo) (l := fs) hw
    rw [htodo, List.length_cons] at htotal
    simp only [State.load, State.resume_deque, State.resume_todo, State.resume_submit, Act.price]
    omega
  | @steal w v f q hpc htodo hq =>
    have hv : v ∈ W := hW v (by simp [Act.workers])
    refine load_of_deque (r := 2) (q := q) hmoves hI rfl (hW w List.mem_cons_self) hv ?_ rfl rfl
      ?_ ?_
    · simp [State.steal]
    · simp [State.rank, State.steal]
    · rw [rank_idle hpc, hq, List.length_append, List.length_singleton]
      omega
  | @fork w f c hpc haw hl ht hp =>
    have hw := hW w List.mem_cons_self
    refine load_of_deque (q := f :: s.deque w) hmoves hI rfl hw hw rfl rfl rfl
      (rank_run (f := c) (by simp [State.fork])) ?_
    simp only [List.length_cons, Act.price]
    omega
  | @call w f c hpc haw hl ht hp =>
    refine load_of_rank hmoves hI rfl (hW w List.mem_cons_self) rfl rfl rfl
      (rank_run (f := c) (by simp [State.call])) ?_
    simp [Act.price]
  | @retRoot w f hpc haw hscope ht =>
    refine load_of_rank (r := 0) hmoves hI rfl (hW w List.mem_cons_self) rfl rfl rfl ?_ ?_
    · simp [State.rank]
    · simp [Act.price]
  | @retCall w f hpc haw hscope ht =>
    refine load_of_rank hmoves hI rfl (hW w List.mem_cons_self) rfl rfl rfl
      (rank_run (f := T.parent f) (by simp)) ?_
    simp [Act.price]
  | @retFork w f hpc haw hscope ht =>
    refine load_of_rank (r := 3) hmoves hI rfl (hW w List.mem_cons_self) rfl rfl rfl ?_ ?_
    · simp [State.rank]
    · simp [Act.price]
  | @shortcut w f hpc haw hz =>
    refine load_of_rank hmoves hI rfl (hW w List.mem_cons_self) rfl rfl rfl
      (rank_run (f := f) hpc) ?_
    simp [Act.price]
  | @joinCall w f hpc haw hz =>
    refine load_of_rank (r := 4) hmoves hI rfl (hW w List.mem_cons_self) rfl rfl rfl ?_ ?_
    · simp [State.rank]
    · simp [Act.price]
  | @switch w f hpc haw =>
    refine load_of_rank (r := 2) hmoves hI rfl (hW w List.mem_cons_self) ?_ ?_ ?_ ?_ ?_
    all_goals simp [State.switch, State.rank, Act.price]
  | @addSteal w f hpc =>
    refine load_of_rank hmoves hI rfl (hW w List.mem_cons_self) rfl rfl rfl
      (rank_run (f := f) (by simp)) ?_
    simp [State.rank, hpc]
  | @awaitResume w f hpc haw =>
    refine load_of_rank (r := 0) hmoves hI rfl (hW w List.mem_cons_self) rfl rfl rfl ?_ ?_
    · simp [State.rank, hpc]
    · simp [State.rank, hpc, haw]
  | @pop w c d q hpc hq =>
    have hw := hW w List.mem_cons_self
    refine load_of_deque (q := q) hmoves hI rfl hw hw rfl rfl rfl
      (rank_run (f := T.parent c) (by simp)) ?_
    rw [hq, List.length_cons]
    omega
  | @popNone w c hpc hq =>
    refine load_of_rank (r := 2) hmoves hI rfl (hW w List.mem_cons_self) rfl rfl rfl ?_ ?_
    · simp [State.rank]
    · simp [State.rank, hpc]
  | @decLast w c hpc hold =>
    refine load_of_rank hmoves hI rfl (hW w List.mem_cons_self) rfl rfl rfl
      (rank_run (f := T.parent c) (by simp)) ?_
    simp [State.rank, hpc]
  | @dec w c hpc hold =>
    refine load_of_rank (r := 1) hmoves hI rfl (hW w List.mem_cons_self) rfl rfl rfl ?_ ?_
    · simp [State.rank]
    · simp [State.rank, hpc]
  | @yield w c hpc =>
    refine load_of_rank (r := 0) hmoves hI rfl (hW w List.mem_cons_self) rfl rfl rfl ?_ ?_
    · simp [State.rank]
    · simp [State.rank, hpc]
  | @ready w f hpc heq =>
    refine load_of_rank hmoves hI rfl (hW w List.mem_cons_self) rfl rfl rfl
      (rank_run (f := f) (by simp)) ?_
    simp [State.rank, hpc, Act.price]
  | @notReady w f hpc =>
    refine load_of_rank (r := 3) hmoves hI rfl (hW w List.mem_cons_self) rfl rfl rfl ?_ ?_
    · simp [State.rank]
    · simp [State.rank, hpc]
  | @win w f hpc heq =>
    refine load_of_rank hmoves hI rfl (hW w List.mem_cons_self) rfl rfl rfl
      (rank_run (f := f) (by simp)) ?_
    simp [State.rank, hpc, Act.price]
  | @lose w f hpc hne =>
    refine load_of_rank hmoves hI rfl (hW w List.mem_cons_self) (by simp) (by simp) (by simp)
      (rank_selfSteal (by simp)).le ?_
    simp [State.rank, hpc, Act.price]
  | @release w f steals hpc =>
    refine load_of_rank hmoves hI rfl (hW w List.mem_cons_self) rfl rfl rfl
      (rank_selfSteal (by simp)).le ?_
    simp [State.rank, hpc]
  | @selfPop w d q hpc hq =>
    have hw := hW w List.mem_cons_self
    refine load_of_deque (q := q) hmoves hI rfl hw hw rfl rfl rfl
      (rank_run (f := d) (by simp)) ?_
    rw [hq, List.length_cons, rank_selfSteal hpc]
    omega
  | @selfNone w hpc hq =>
    refine load_of_rank (r := 0) hmoves hI rfl (hW w List.mem_cons_self) rfl rfl rfl ?_ ?_
    · simp [State.rank]
    · simp [State.rank, hpc]

end load

/-! ## Programs end -/

/-- Every task may still invoke another, by `fork` or by `call`. -/
def Tree.Ample (T : Tree) : Prop := ∀ f n, ∃ c, n ≤ c ∧ T.tag c ≠ .root ∧ T.parent c = f

namespace Loaded

variable {A V R : Type} [DecidableEq A] {T : Tree} {σ σ' : Loaded A V R} {a : Act} {w f r : ℕ}
  {rd wr : Set A} {Q : R → Prop} {p : Prog A V R} {m : A → V} {as : List Act}

/-- The outside schedules a handle, or gets one. -/
def Act.external : Act → Bool
  | .act a => a.external
  | .access _ => false
  | .collect _ => false

def Act.workers : Act → List ℕ
  | .act a => a.workers
  | .access w => [w]
  | .collect w => [w]

/-- What is left to do: for the code, and for the workers. -/
def left (σ : Loaded A V R) (W : Finset ℕ) : ℕ := 5 * σ.code.rest σ.mem + σ.workers.load W

/-- What the code does has a price of five. -/
theorem price_of_deed {a : Runtime.Act} {x : ℕ × Deed} (h : a.deed = some x) :
    a.price = 5 ∧ a.external = false := by
  cases a <;> simp_all [Runtime.Act.deed, Runtime.Act.price, Runtime.Act.external]

/-- The rest is free, but for what is external. -/
theorem price_of_sched {a : Runtime.Act} (hspawn : a.spawns = false) (h : a.deed = none) :
    a.price = if a.external then 4 else 0 := by
  cases a <;> simp_all [Runtime.Act.deed, Runtime.Act.price, Runtime.Act.external,
    Runtime.Act.spawns]

/-- **Every step leaves less to do**, but where the outside comes in. -/
theorem left_of_goes {W : Finset ℕ} (h : Goes T σ a σ') (hσ : Follows T σ)
    (hsafe : σ.code.erase.Safe rd wr Q) (hW : ∀ w ∈ a.workers, w ∈ W) :
    σ'.left W + 1 ≤ σ.left W + if a.external then 4 else 0 := by
  unfold left
  cases h with
  | @sched a s hspawn hdeed h =>
    have hload := load_of_moves h hσ.inv hW
    rw [price_of_sched hspawn hdeed] at hload
    calc 5 * σ.code.rest σ.mem + s.load W + 1
        = 5 * σ.code.rest σ.mem + (s.load W + 1) := Nat.add_assoc ..
      _ ≤ 5 * σ.code.rest σ.mem + (σ.workers.load W + if a.external then 4 else 0) :=
        Nat.add_le_add_left hload _
      _ = _ := (Nat.add_assoc ..).symm
  | @code a s w f μ t m hdeed hrun hacts h =>
    have hload := load_of_moves h hσ.inv hW
    obtain ⟨hprice, hexternal⟩ := price_of_deed hdeed
    have ho := hσ.orderly_of_deed hdeed hrun h
    have hrest := hacts.rest ho hsafe
    simp only [Act.external, hexternal]
    omega
  | access hrun hacts =>
    have hrest := hacts.rest ⟨by simp, by simp⟩ hsafe
    simp only [Act.external]
    omega
  | collect hrun hacts =>
    have hrest := hacts.rest (hσ.orderly hrun hacts) hsafe
    simp only [Act.external]
    omega

/-- At first all of the sequential run is left. -/
theorem left_init (W : Finset ℕ) : (init r p m).left W = 30 * p.cost m := by
  have hload : (State.init.place r .outside).load W = 0 := by
    simp [State.load, State.rank, total, State.init]
  change 5 * (6 * p.cost m - 0) + (State.init.place r .outside).load W = 30 * p.cost m
  rw [hload]
  omega

/-- Along a run. -/
theorem left_of_run {W : Finset ℕ} (hσ : Follows T σ) (hsafe : σ.code.erase.Safe rd wr Q)
    (hW : ∀ a ∈ as, ∀ w ∈ a.workers, w ∈ W) (h : (machine T).Run Machine.free σ as σ') :
    as.length + σ'.left W ≤ σ.left W + 4 * as.countP Act.external := by
  induction as generalizing σ with
  | nil =>
    cases h
    simp
  | cons a as ih =>
    obtain ⟨-, σ₁, hstep, h⟩ := h
    have hgoes := goes_of_step hstep
    have hsafe₁ := (hsafe.steps (steps_of_goes hgoes hσ)).1
    have hle := left_of_goes hgoes hσ hsafe (hW a List.mem_cons_self)
    have hrest := ih (follows_of_goes hgoes hσ) hsafe₁
      (fun b hb => hW b (List.mem_cons_of_mem a hb)) h
    rw [List.countP_cons, List.length_cons]
    split_ifs at hle ⊢ <;> omega

/-! ### Somebody goes on -/

/-- The names in use stay bounded. -/
theorem bounded_of_goes (h : Goes T σ a σ') (hσ : Bounded σ.workers.loc) :
    Bounded σ'.workers.loc := by
  cases h with
  | sched hspawn hdeed h => exact bounded_of_moves h hσ
  | code hdeed hrun hacts h => exact bounded_of_moves h hσ
  | access => exact hσ
  | collect => exact hσ

/-- Only finitely many tasks were invoked. -/
theorem bounded_of_run (h : (machine T).Run Machine.free (init r p m) as σ) :
    Bounded σ.workers.loc := by
  refine Machine.Run.invariant (P := fun σ => Bounded σ.workers.loc) ?_ ?_ h
  · intro σ a σ' hσ _ hstep
    exact bounded_of_goes (goes_of_step hstep) hσ
  · change Bounded (State.init.place r .outside).loc
    rw [State.loc_place]
    exact Bounded.update ⟨0, fun _ _ => rfl⟩ r _

/-- The root stays the root. -/
theorem task_of_run (h : (machine T).Run Machine.free (init r p m) as σ) : σ.code.task = r := by
  refine Machine.Run.invariant (P := fun σ => σ.code.task = r) ?_ rfl h
  intro σ a σ' hσ _ hstep
  cases goes_of_step hstep with
  | sched => exact hσ
  | code hdeed hrun hacts h => exact hacts.task_eq.trans hσ
  | access hrun hacts => exact hacts.task_eq.trans hσ
  | collect hrun hacts => exact hacts.task_eq.trans hσ

/-- A step of the workers alone. -/
theorem step_sched {a : Runtime.Act} (hspawn : a.spawns = false) (hdeed : a.deed = none) :
    (machine T).step σ (.act a) =
      ((Runtime.machine T).step σ.workers a).map fun s => { σ with workers := s } := by
  simp [machine, hspawn, hdeed]

/-- A step of a task's code. -/
theorem step_code {a : Runtime.Act} {μ : Deed} {x : Spread A V R × (A → V)} {s : State}
    (hdeed : a.deed = some (w, μ)) (hrun : σ.workers.running w = some f)
    (hx : σ.code.act f μ σ.mem = some x) (hs : (Runtime.machine T).step σ.workers a = some s) :
    (machine T).step σ (.act a) = some ⟨s, x.1, x.2⟩ := by
  have hspawn : a.spawns = false := by cases a <;> simp_all [Runtime.Act.deed, Runtime.Act.spawns]
  simp [machine, hspawn, hdeed, does, hrun, hx, hs]

/-- Code that runs goes on. -/
theorem code_goes_on (hT : T.Ample) (hσ : Follows T σ) (hbounded : Bounded σ.workers.loc)
    (hsafe : σ.code.erase.Safe rd wr Q) (hrun : σ.workers.running w = some f) :
    ∃ a : Act, a.external = false ∧ ((machine T).step σ a).isSome = true := by
  obtain ⟨hpc, haw⟩ := running_eq_some.mp hrun
  have hloc : σ.workers.loc f = .run w := (hσ.inv.placed.run w f).mp (by rw [hpc]; rfl)
  have hlive : σ.code.stage f ≠ none := by
    rw [Ne, ← hσ.live f, hloc]
    simp [Loc.ended]
  obtain ⟨n, hn⟩ := hbounded
  obtain ⟨c, hc, htag, hparent⟩ := hT f n
  have hunborn : (σ.workers.task c).loc = .unborn := hn c hc
  obtain ⟨μ, x, hμ, hx⟩ := Spread.exists_act hsafe hlive c σ.mem
  cases μ with
  | access => exact ⟨.access w, rfl, by simp [machine, does, hrun, hx]⟩
  | collect => exact ⟨.collect w, rfl, by simp [machine, does, hrun, hx]⟩
  | join =>
    refine ⟨.act (.join w), rfl, ?_⟩
    have hs : (Runtime.machine T).step σ.workers (.join w) =
        some (Runtime.join σ.workers w f) := by
      simp [Runtime.machine, hrun]
    rw [step_code rfl hrun hx hs]
    rfl
  | ret =>
    refine ⟨.act (.ret w), rfl, ?_⟩
    have hscope : (σ.workers.task f).scope = false := by
      obtain ⟨hturns, -⟩ := (Spread.acts_of_act hx).turns hσ.distinct ⟨by simp, by simp⟩
      generalize x.1.stage = st at hturns
      cases hturns with
      | ret hf => exact hσ.scope f hf
    have hs : (Runtime.machine T).step σ.workers (.ret w) =
        some (Runtime.ret T σ.workers w f) := by
      simp [Runtime.machine, hrun, hscope]
    rw [step_code rfl hrun hx hs]
    rfl
  | invoke d =>
    obtain rfl := hμ d rfl
    cases ht : T.tag d with
    | root => exact absurd ht htag
    | fork =>
      refine ⟨.act (.fork w d), rfl, ?_⟩
      have hs : (Runtime.machine T).step σ.workers (.fork w d) =
          some (σ.workers.fork w f d) := by
        simp [Runtime.machine, invoke, hrun, hunborn, ht, hparent]
      rw [step_code rfl hrun hx hs]
      rfl
    | call =>
      refine ⟨.act (.call w d), rfl, ?_⟩
      have hs : (Runtime.machine T).step σ.workers (.call w d) =
          some (σ.workers.call w f d) := by
        simp [Runtime.machine, invoke, hrun, hunborn, ht, hparent]
      rw [step_code rfl hrun hx hs]
      rfl

/-- A worker in the library's code goes on by itself. -/
theorem worker_goes_on {s : State} (hpc : s.pc w ≠ .idle) (hrun : s.running w = none) :
    ((Runtime.machine T).step s (.step w)).isSome = true := by
  change (workerStep T s w).isSome = true
  unfold workerStep
  cases hcase : s.pc w with
  | idle => exact absurd hcase hpc
  | run f =>
    have haw : (s.task f).awaiting ≠ none := by
      intro haw
      rw [running_eq_some.mpr ⟨hcase, haw⟩] at hrun
      cases hrun
    simp [haw]
  | final c => cases hq : s.deque w <;> simp
  | joinLoad f =>
    dsimp only
    split_ifs <;> rfl
  | selfSteal => cases hq : s.deque w <;> simp
  | stolen f => rfl
  | subJoin c => rfl
  | lost c => rfl
  | joinSub f => rfl
  | switched f n => rfl

/-- **Somebody goes on**, as long as the root has not returned and the outside holds no handle. -/
theorem goes_on (hT : T.Ample) (hσ : Follows T σ) (hbounded : Bounded σ.workers.loc)
    (hsafe : σ.code.erase.Safe rd wr Q) (hlive : σ.code.stage r ≠ none)
    (hout : ∀ g, σ.workers.loc g ≠ .outside) :
    ∃ a : Act, a.external = false ∧ ((machine T).step σ a).isSome = true := by
  have halive : σ.workers.status r = .alive := by
    rw [Ne, ← hσ.live r] at hlive
    unfold State.status
    cases hloc : σ.workers.loc r <;> simp [hloc, Loc.ended, Loc.status] at hlive ⊢
  obtain ⟨g, w, -, hw⟩ := hσ.inv.exists_worker hbounded halive fun g _ => hout g
  cases hrun : σ.workers.running w with
  | some f => exact code_goes_on hT hσ hbounded hsafe hrun
  | none =>
    by_cases hpc : σ.workers.pc w = .idle
    · cases htodo : σ.workers.todo w with
      | cons f fs =>
        refine ⟨.act (.resume w), rfl, ?_⟩
        rw [step_sched rfl rfl]
        simp [Runtime.machine, hpc, htodo]
      | nil =>
        have hsub : σ.workers.submit w ≠ [] := by
          simpa [hpc, htodo] using hσ.inv.has_work hw
        refine ⟨.act (.popAll w), rfl, ?_⟩
        rw [step_sched rfl rfl]
        simp [Runtime.machine, hpc, htodo, hsub]
    · refine ⟨.act (.step w), rfl, ?_⟩
      rw [step_sched rfl rfl, Option.isSome_map]
      exact worker_goes_on hpc hrun

/-! ### The end -/

/-- How long a run is. -/
theorem length_of_run (hr : T.tag r = .root) (hp : p.Safe rd wr Q)
    (h : (machine T).Run Machine.free (init r p m) as σ) :
    as.length ≤ 30 * p.cost m + 4 * as.countP Act.external := by
  have hle := left_of_run (W := (as.flatMap Act.workers).toFinset) (follows_init hr p m) hp
    (fun a ha w hw => by simpa using ⟨a, ha, hw⟩) h
  rw [left_init] at hle
  omega

/-- Where no worker has a step left, the root has returned. -/
theorem returned_of_run (hT : T.Ample) (hr : T.tag r = .root) (hp : p.Safe rd wr Q)
    (h : (machine T).Run Machine.free (init r p m) as σ)
    (hstuck : ∀ a : Act, a.external = false → (machine T).step σ a = none)
    (hout : ∀ g, σ.workers.loc g ≠ .outside) : ∃ x, σ.code.returned = some x := by
  have hσ := follows_of_run hr h
  obtain ⟨hsafe, -⟩ := hp.steps (steps_of_run hr h)
  have hend : σ.code.stage σ.code.task = none := by
    rw [task_of_run h]
    by_contra hlive
    obtain ⟨a, ha, hsome⟩ := goes_on hT hσ (bounded_of_run h) hsafe hlive hout
    rw [hstuck a ha] at hsome
    cases hsome
  obtain ⟨f, x, hx⟩ := Spread.exists_finished hend
  exact ⟨x, by rw [hx]; rfl⟩

/-- **A safe program ends.** In a run of any number of workers the number of steps is at most
thirty times that of the sequential run, and four for each time a handle comes from or goes to the
outside; and where no worker has a step left, and the outside holds no handle, the root has
returned what the sequential run returns, and has left the memory that the sequential run leaves. -/
theorem ends_of_run (hT : T.Ample) (hr : T.tag r = .root) (hp : p.Safe rd wr Q)
    (h : (machine T).Run Machine.free (init r p m) as σ) :
    as.length ≤ 30 * p.cost m + 4 * as.countP Act.external ∧
      ((∀ a : Act, a.external = false → (machine T).step σ a = none) →
        (∀ g, σ.workers.loc g ≠ .outside) →
        ∃ x m', p.run m = some (x, m') ∧ σ.code.returned = some x ∧ σ.mem = m') := by
  refine ⟨length_of_run hr hp h, fun hstuck hout => ?_⟩
  obtain ⟨x, hx⟩ := returned_of_run hT hr hp h hstuck hout
  exact ⟨x, σ.mem, hp.result (steps_of_returned hr h hx), hx, rfl⟩

end Loaded

/-- The ruler has enough of every kind. -/
theorem Tree.ruler_ample : Tree.ruler.Ample := by
  intro f n
  let c := 2 ^ f * (2 * n + 1)
  have hf : f ≤ c := (Nat.lt_two_pow_self).le.trans (Nat.le_mul_of_pos_right _ (by omega))
  have hc : c ≠ 0 := Nat.mul_ne_zero (Nat.two_pow_pos f).ne' (by omega)
  have hgcd : c.gcd (2 ^ c) = 2 ^ f := by
    have hcoprime : (2 * n + 1).Coprime (2 ^ (c - f)) :=
      Nat.Coprime.pow_right _ (Nat.coprime_two_right.mpr ⟨n, rfl⟩)
    calc c.gcd (2 ^ c) = (2 ^ f * (2 * n + 1)).gcd (2 ^ f * 2 ^ (c - f)) := by
          rw [← Nat.pow_add, Nat.add_sub_cancel' hf]
      _ = 2 ^ f * (2 * n + 1).gcd (2 ^ (c - f)) := Nat.gcd_mul_left ..
      _ = 2 ^ f := by rw [hcoprime, Nat.mul_one]
  refine ⟨c, ?_, ?_, ?_⟩
  · calc n ≤ 1 * (2 * n + 1) := by omega
      _ ≤ c := Nat.mul_le_mul_right _ (Nat.two_pow_pos f)
  · change (if c = 0 then Tag.root else if c / c.gcd (2 ^ c) % 4 = 1 then .fork else .call) ≠ .root
    rw [if_neg hc]
    split_ifs <;> simp
  · change Nat.log2 (c.gcd (2 ^ c)) = f
    rw [hgcd, Nat.log2_two_pow]

namespace Loaded

/-- Every worker waits, and none has a handle. -/
structure Quiet (s : State) : Prop where
  pc : ∀ w, s.pc w = .idle
  deque : ∀ w, s.deque w = []
  submit : ∀ w, s.submit w = []
  todo : ∀ w, s.todo w = []

/-- Then no worker has a step left. -/
theorem Quiet.step_eq_none {A V R : Type} [DecidableEq A] {T : Tree} {σ : Loaded A V R}
    (h : Quiet σ.workers) {a : Act} (ha : a.external = false) : (machine T).step σ a = none := by
  have hrun : ∀ w, σ.workers.running w = none := by
    intro w
    simp [State.running, h.pc]
  have hdoes : ∀ w μ, σ.does w μ = none := by
    intro w μ
    simp [does, hrun]
  cases a with
  | access w => exact hdoes w _
  | collect w => exact hdoes w _
  | act a =>
    cases a with
    | schedule | switch => cases ha
    | spawn => rfl
    | popAll w => simp [machine, Runtime.machine, Act.spawns, Act.deed, h.submit]
    | resume w => simp [machine, Runtime.machine, Act.spawns, Act.deed, h.pc, h.todo]
    | steal w v => simp [machine, Runtime.machine, Act.spawns, Act.deed, h.pc, h.todo, h.deque]
    | step w => simp [machine, Runtime.machine, Act.spawns, Act.deed, workerStep, h.pc]
    | _ => simp [machine, Act.spawns, Act.deed, hdoes]

/-- The two branches of before, run to the end. -/
theorem ends_of_run_add : ∃ σ : Loaded ℕ ℕ ℕ, (machine .ruler).Run Machine.free
    (init 0 addCells fun i => i + 1) addRun σ ∧
      addRun.length ≤ 30 * addCells.cost (fun i => i + 1) + 4 * addRun.countP Act.external ∧
      ∃ x m', addCells.run (fun i => i + 1) = some (x, m') ∧ σ.code.returned = some x ∧
        σ.mem = m' := by
  let last := (machine .ruler).exec Machine.free (init 0 addCells fun i => i + 1) addRun
  obtain ⟨σ, hσ⟩ : ∃ σ, last = some σ := ⟨_, rfl⟩
  have hworker : ∀ w, last.map (fun σ => (σ.workers.pc w, σ.workers.deque w, σ.workers.submit w,
      σ.workers.todo w)) = some (.idle, [], [], []) := by
    rintro (_ | _ | w) <;> rfl
  have hloc : ∀ g, (last.map fun σ => (σ.workers.loc g).ended) = some true := by
    rintro (_ | _ | _ | _ | g) <;> rfl
  rw [hσ] at hworker hloc
  simp only [Option.map_some, Option.some.injEq, Prod.mk.injEq] at hworker hloc
  have hquiet : Quiet σ.workers :=
    ⟨fun w => (hworker w).1, fun w => (hworker w).2.1, fun w => (hworker w).2.2.1,
      fun w => (hworker w).2.2.2⟩
  have hout : ∀ g, σ.workers.loc g ≠ .outside := by
    intro g hg
    have hended := hloc g
    rw [hg] at hended
    cases hended
  have hrun := Machine.run_iff_exec.mpr hσ
  obtain ⟨hlength, hend⟩ := ends_of_run Tree.ruler_ample rfl safe_addCells hrun
  exact ⟨σ, hrun, hlength, hend (fun a => hquiet.step_eq_none) hout⟩

end Loaded

end Libfork.Runtime
