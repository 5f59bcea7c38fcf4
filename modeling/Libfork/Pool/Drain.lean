import Libfork.Pool.Model

/-!
# A pool drains on destruction

* `Loops` — what the event loops keep: outside `resume` a worker runs nothing, one that is past
  its loops has no handle left, and one that destroys its context has seen all others arrive.
* `dead_or_outside` — where every worker is idle, and no handle waits to be resumed, every task
  is over but those that wait for a handle that the outside kept.
* **`pool_drains`**

Source: `busy_pool.hpp`, `unit_pool.hpp`; `resume.hpp`.
-/

namespace Libfork.Pool

open Libfork.Found Libfork.Runtime

variable {K : Kind} {T : Tree} {s s' : State} {a : Act} {as : List Act}

/-! ## What a worker changes of the runtime -/

section runtime

variable {r r' : Runtime.State} {b : Runtime.Act} {w : ℕ}

/-- A worker in `resume` schedules nothing. -/
theorem submit_of_worker (h : Moves T r b r') (hb : worker b = some w) : r'.submit = r.submit := by
  cases h with
  | switch hpc haw => simp [State.switch]
  | lose hpc hne => simp
  | schedule | popAll => cases hb
  | _ => rfl

/-- A worker in `resume` moves no other worker on. -/
theorem pc_of_worker (h : Moves T r b r') (hb : worker b = some w) {v : ℕ} (hv : v ≠ w) :
    r'.pc v = r.pc v := by
  cases h <;> cases hb <;> simp [State.switch, State.fork, State.call, State.resume, hv]

/-- A worker in `resume` takes the next handle off its list, or leaves the list alone. -/
theorem todo_of_worker (h : Moves T r b r') (hb : worker b = some w) :
    (b = .resume w ∧ ∃ f, r.todo w = f :: r'.todo w ∧ ∀ v, v ≠ w → r'.todo v = r.todo v) ∨
    ((∀ v, b ≠ .resume v) ∧ r'.todo = r.todo) := by
  cases h with
  | @resume w f fs hpc htodo =>
      obtain rfl := Option.some.inj hb
      refine Or.inl ⟨rfl, f, ?_, fun v hv => ?_⟩
      · simpa using htodo
      · simp [hv]
  | switch hpc haw => exact Or.inr ⟨by simp, by simp [State.switch]⟩
  | lose hpc hne => exact Or.inr ⟨by simp, by simp⟩
  | spawn | schedule | popAll | steal => cases hb
  | _ => exact Or.inr ⟨by simp, rfl⟩

end runtime

/-! ## The cases of a step -/

/-- What a step from `s` can do. -/
inductive PoolMoves (K : Kind) (T : Tree) (s : State) : Act → State → Prop
  | spawn {r : ℕ} {rt : Runtime.State} (h : Moves T s.rt (.spawn r) rt) :
      PoolMoves K T s (.spawn r) { s with rt := rt }
  | schedule {f w : ℕ} {rt : Runtime.State} (hw : w < K.numThreads)
      (h : Moves T s.rt (.schedule f w) rt) :
      PoolMoves K T s (.schedule f w) { s with
        rt := rt, scheduled := Function.update s.scheduled w (s.scheduled w ++ [f]) }
  | code {b : Runtime.Act} {w : ℕ} {rt : Runtime.State} (hb : worker b = some w)
      (hw : w < K.numThreads) (hin : (s.loop w).inResume = true) (h : Moves T s.rt b rt) :
      PoolMoves K T s (.code b) { s.logResume b with rt := rt }
  | test {w : ℕ} (hw : w < K.numThreads) (hpc : s.loop w = .test) :
      PoolMoves K T s (.loop w) (s.goto w (if s.stop then .drain else .popAll))
  | popNone {w : ℕ} (hw : w < K.numThreads) (hpc : s.loop w = .popAll)
      (hq : s.rt.submit w = []) :
      PoolMoves K T s (.loop w) (s.goto w (if K.steals then .trySteal else .test))
  | pop {w : ℕ} {rt : Runtime.State} (hw : w < K.numThreads) (hpc : s.loop w = .popAll)
      (h : Moves T s.rt (.popAll w) rt) :
      PoolMoves K T s (.loop w) ({ s with rt := rt }.goto w .resuming)
  | stealNone {w : ℕ} (hw : w < K.numThreads) (hpc : s.loop w = .trySteal) :
      PoolMoves K T s (.loop w) (s.goto w .test)
  | back {w : ℕ} (hw : w < K.numThreads) (hpc : s.loop w = .resuming)
      (hidle : s.rt.pc w = .idle) (htodo : s.rt.todo w = []) :
      PoolMoves K T s (.loop w) (s.goto w .test)
  | drainNone {w : ℕ} (hw : w < K.numThreads) (hpc : s.loop w = .drain)
      (hq : s.rt.submit w = []) :
      PoolMoves K T s (.loop w) (s.goto w (if K.steals then .setStop else .finalize))
  | drain {w : ℕ} {rt : Runtime.State} (hw : w < K.numThreads) (hpc : s.loop w = .drain)
      (h : Moves T s.rt (.popAll w) rt) :
      PoolMoves K T s (.loop w) ({ s with rt := rt }.goto w .draining)
  | drainBack {w : ℕ} (hw : w < K.numThreads) (hpc : s.loop w = .draining)
      (hidle : s.rt.pc w = .idle) (htodo : s.rt.todo w = []) :
      PoolMoves K T s (.loop w) (s.goto w .drain)
  | setStop {w : ℕ} (hw : w < K.numThreads) (hpc : s.loop w = .setStop) :
      PoolMoves K T s (.loop w) ({ s with stop := true }.goto w .arrive)
  | arrive {w : ℕ} (hw : w < K.numThreads) (hpc : s.loop w = .arrive) :
      PoolMoves K T s (.loop w) ({ s with latch := s.latch + 1 }.goto w .wait)
  | wait {w : ℕ} (hw : w < K.numThreads) (hpc : s.loop w = .wait)
      (hall : s.latch = K.numThreads) : PoolMoves K T s (.loop w) (s.goto w .finalize)
  | finalize {w : ℕ} (hw : w < K.numThreads) (hpc : s.loop w = .finalize) :
      PoolMoves K T s (.loop w) (s.goto w .exited)
  | steal {w v : ℕ} {rt : Runtime.State} (hw : w < K.numThreads) (hv : v < K.numThreads)
      (hne : v ≠ w) (hpc : s.loop w = .trySteal) (h : Moves T s.rt (.steal w v) rt) :
      PoolMoves K T s (.steal w v) ({ s with rt := rt }.goto w .resuming)
  | destroy (hd : s.destroyer = .running) :
      PoolMoves K T s .destroy { s with stop := true, destroyer := .joining }
  | joined (hd : s.destroyer = .joining) (hall : ∀ w < K.numThreads, s.loop w = .exited) :
      PoolMoves K T s .joined { s with destroyer := .returned }

/-- What `try_pop_all` can do. -/
theorem popAll_eq_some {w : ℕ} {found empty : Pc} (h : popAll T s w found empty = some s') :
    (s.rt.submit w = [] ∧ s' = s.goto w empty) ∨
    ∃ rt, Moves T s.rt (.popAll w) rt ∧ s' = { s with rt := rt }.goto w found := by
  unfold popAll at h
  split_ifs at h with hq
  · cases h
    exact Or.inl ⟨hq, rfl⟩
  · obtain ⟨rt, hrt, rfl⟩ := Option.map_eq_some_iff.mp h
    exact Or.inr ⟨rt, moves_of_step hrt, rfl⟩

/-- Every step of the loop is one of the moves. -/
theorem moves_of_loopStep {w : ℕ} (hw : w < K.numThreads) (h : loopStep K T s w = some s') :
    PoolMoves K T s (.loop w) s' := by
  unfold loopStep at h
  split at h
  · next hpc => cases h; exact .test hw hpc
  · next hpc =>
    obtain ⟨hq, rfl⟩ | ⟨rt, hrt, rfl⟩ := popAll_eq_some h
    · exact .popNone hw hpc hq
    · exact .pop hw hpc hrt
  · next hpc => cases h; exact .stealNone hw hpc
  · next hpc =>
    split_ifs at h with hidle
    cases h
    exact .back hw hpc hidle.1 hidle.2
  · next hpc =>
    obtain ⟨hq, rfl⟩ | ⟨rt, hrt, rfl⟩ := popAll_eq_some h
    · exact .drainNone hw hpc hq
    · exact .drain hw hpc hrt
  · next hpc =>
    split_ifs at h with hidle
    cases h
    exact .drainBack hw hpc hidle.1 hidle.2
  · next hpc => cases h; exact .setStop hw hpc
  · next hpc => cases h; exact .arrive hw hpc
  · next hpc =>
    split_ifs at h with hall
    cases h
    exact .wait hw hpc hall
  · next hpc => cases h; exact .finalize hw hpc
  · cases h

/-- Every step is one of the moves. -/
theorem poolMoves_of_step (h : (machine K T).step s a = some s') : PoolMoves K T s a s' := by
  cases a with
  | spawn r =>
      obtain ⟨rt, hrt, rfl⟩ := Option.map_eq_some_iff.mp h
      exact .spawn (moves_of_step hrt)
  | schedule f w =>
      simp only [machine] at h
      split_ifs at h with hw
      obtain ⟨rt, hrt, rfl⟩ := Option.map_eq_some_iff.mp h
      exact .schedule hw (moves_of_step hrt)
  | code b =>
      simp only [machine] at h
      split at h
      · next w hb =>
        split_ifs at h with hw
        obtain ⟨rt, hrt, rfl⟩ := Option.map_eq_some_iff.mp h
        exact .code hb hw.1 hw.2 (moves_of_step hrt)
      · cases h
  | loop w =>
      simp only [machine] at h
      split_ifs at h with hw
      exact moves_of_loopStep hw h
  | steal w v =>
      simp only [machine] at h
      split_ifs at h with hc
      obtain ⟨rt, hrt, rfl⟩ := Option.map_eq_some_iff.mp h
      exact .steal hc.1 hc.2.1 hc.2.2.1 hc.2.2.2 (moves_of_step hrt)
  | destroy =>
      simp only [machine] at h
      split_ifs at h with hd
      cases h
      exact .destroy hd
  | joined =>
      simp only [machine] at h
      split_ifs at h with hd
      cases h
      exact .joined hd.1 hd.2

/-- The runtime takes a step, or stays. -/
theorem rt_of_moves (h : PoolMoves K T s a s') :
    s'.rt = s.rt ∨ ∃ b, Moves T s.rt b s'.rt := by
  cases h with
  | spawn h | schedule _ h | code _ _ _ h | pop _ _ h | drain _ _ h | steal _ _ _ _ h =>
      exact Or.inr ⟨_, h⟩
  | _ => exact Or.inl rfl

/-! ## The event loops -/

/-- The worker has seen `stop`. -/
def Pc.stopping : Pc → Bool
  | .drain => true
  | .draining => true
  | pc => pc.drained

/-- What the event loops keep. -/
structure Loops (K : Kind) (s : State) : Prop where
  outside : ∀ w, (s.loop w).inResume = false → s.rt.pc w = .idle ∧ s.rt.todo w = []
  beyond : ∀ w, K.numThreads ≤ w → s.loop w = .test ∧ s.rt.submit w = []
  destroyed : s.destroyer ≠ .running → s.stop = true
  stopping : ∀ w, (s.loop w).stopping = true → s.stop = true
  empty : ∀ w, (s.loop w).drained = true → s.rt.submit w = []
  latch : K.steals = true →
    s.latch = ((Finset.range K.numThreads).filter fun w => (s.loop w).arrived = true).card
  gone : ∀ w, K.steals = true → s.loop w = .finalize ∨ s.loop w = .exited →
    ∀ v < K.numThreads, (s.loop v).arrived = true
  log : ∀ w, s.scheduled w = s.resumed w ++ s.rt.todo w ++ s.rt.submit w
  returned : s.destroyer = .returned → ∀ w < K.numThreads, s.loop w = .exited

/-- A new pool. -/
theorem loops_init : Loops K .init where
  outside _ _ := ⟨rfl, rfl⟩
  beyond _ _ := ⟨rfl, rfl⟩
  destroyed h := absurd rfl h
  stopping _ h := by cases h
  empty _ _ := rfl
  latch _ := by simp [State.init, Pc.arrived]
  gone _ _ h := by rcases h with h | h <;> cases h
  log _ := rfl
  returned h := by cases h

/-- A worker inside `resume` has not drained its list. -/
theorem Pc.drained_of_not_inResume {pc : Pc} (h : pc.inResume = true) : pc.drained = false := by
  cases pc <;> simp_all [Pc.inResume, Pc.drained]

/-- Who has not drained its list has not arrived. -/
theorem Pc.arrived_of_not_drained {pc : Pc} (h : pc.drained = false) : pc.arrived = false := by
  cases pc <;> simp_all [Pc.arrived, Pc.drained]

/-- Who has drained it has seen the stop. -/
theorem Pc.stopping_of_drained {pc : Pc} (h : pc.drained = true) : pc.stopping = true := by
  cases pc <;> simp_all [Pc.stopping, Pc.drained]

namespace Loops

variable {w : ℕ} {pc : Pc}

/-- A worker goes on in its event loop, and the latch does not move. -/
theorem goto (h : Loops K s) (hw : w < K.numThreads)
    (hout : pc.inResume = false → s.rt.pc w = .idle ∧ s.rt.todo w = [])
    (hstop : pc.stopping = true → s.stop = true)
    (hempty : pc.drained = true → s.rt.submit w = [])
    (harrived : K.steals = true → pc.arrived = (s.loop w).arrived)
    (hgone : K.steals = true → pc = .finalize ∨ pc = .exited →
      ∀ v < K.numThreads, (s.loop v).arrived = true)
    (hexit : s.loop w = .exited → pc = .exited) : Loops K (s.goto w pc) := by
  have hat : ∀ {p : ℕ → Pc → Prop}, p w pc → (∀ v, p v (s.loop v)) →
      ∀ v, p v ((s.goto w pc).loop v) := by
    intro p hpw hp v
    unfold State.goto
    by_cases hv : v = w
    · rw [hv]
      simpa using hpw
    · simpa [hv] using hp v
  have harr : K.steals = true → ∀ v, ((s.goto w pc).loop v).arrived = (s.loop v).arrived :=
    fun hsteals => hat (p := fun v l => l.arrived = (s.loop v).arrived) (harrived hsteals)
      fun v => rfl
  refine ⟨hat (p := fun v l => l.inResume = false → _) hout h.outside, ?_, h.destroyed,
    hat (p := fun v l => l.stopping = true → _) hstop h.stopping,
    hat (p := fun v l => l.drained = true → _) hempty h.empty, ?_, ?_, h.log, ?_⟩
  · intro v hv
    have hne : v ≠ w := by
      rintro rfl
      exact absurd hw (Nat.not_lt.mpr hv)
    simpa [State.goto, hne] using h.beyond v hv
  · intro hsteals
    simp only [harr hsteals]
    exact h.latch hsteals
  · intro v hsteals hfin u hu
    rw [harr hsteals]
    refine hat (p := fun v l => l = .finalize ∨ l = .exited → ∀ u < K.numThreads,
      (s.loop u).arrived = true) (hgone hsteals) (fun v hv => h.gone v hsteals hv) v hfin u hu
  · intro hd
    exact hat (p := fun v l => v < K.numThreads → l = .exited)
      (fun hlt => hexit (h.returned hd w hlt)) (h.returned hd)

/-- A worker goes on in one of its loops. -/
theorem turn (h : Loops K s) (hw : w < K.numThreads) (hold : (s.loop w).drained = false)
    (hnew : pc.drained = false) (hstop : pc.stopping = true → s.stop = true)
    (hout : pc.inResume = false → s.rt.pc w = .idle ∧ s.rt.todo w = []) :
    Loops K (s.goto w pc) := by
  refine h.goto hw hout hstop ?_ ?_ ?_ ?_
  · intro hdrained
    cases hnew.symm.trans hdrained
  · intro _
    rw [Pc.arrived_of_not_drained hold, Pc.arrived_of_not_drained hnew]
  · rintro - (rfl | rfl) <;> cases hnew
  · intro hexit
    rw [hexit] at hold
    cases hold

/-- The workers are told to stop. -/
theorem setStop (h : Loops K s) : Loops K { s with stop := true } :=
  { h with destroyed := fun _ => rfl, stopping := fun _ _ => rfl }

/-- The runtime goes on at one worker, which is in `resume`. -/
theorem code (h : Loops K s) (hw : w < K.numThreads) (hin : (s.loop w).inResume = true)
    {rt : Runtime.State} {resumed : ℕ → List ℕ}
    (hpc : ∀ v, v ≠ w → rt.pc v = s.rt.pc v) (htodo : ∀ v, v ≠ w → rt.todo v = s.rt.todo v)
    (hsub : ∀ v, v ≠ w → rt.submit v = s.rt.submit v)
    (hres : ∀ v, v ≠ w → resumed v = s.resumed v)
    (hlog : s.scheduled w = resumed w ++ rt.todo w ++ rt.submit w) :
    Loops K { s with rt := rt, resumed := resumed } := by
  have hne : ∀ v, (s.loop v).inResume = false → v ≠ w := by
    rintro v hv rfl
    cases hin.symm.trans hv
  refine ⟨?_, ?_, h.destroyed, h.stopping, ?_, h.latch, h.gone, ?_, h.returned⟩
  · intro v hv
    obtain ⟨hidle, hnil⟩ := h.outside v hv
    exact ⟨(hpc v (hne v hv)).trans hidle, (htodo v (hne v hv)).trans hnil⟩
  · intro v hv
    obtain ⟨htest, hnil⟩ := h.beyond v hv
    have hv' : v ≠ w := by
      rintro rfl
      exact absurd hw (Nat.not_lt.mpr hv)
    exact ⟨htest, (hsub v hv').trans hnil⟩
  · intro v hv
    have hv' : v ≠ w := by
      rintro rfl
      cases (Pc.drained_of_not_inResume hin).symm.trans hv
    exact (hsub v hv').trans (h.empty v hv)
  · intro v
    by_cases hv : v = w
    · rw [hv]
      exact hlog
    · change s.scheduled v = resumed v ++ rt.todo v ++ rt.submit v
      rw [hres v hv, htodo v hv, hsub v hv]
      exact h.log v

/-- Something is scheduled on a worker that has not seen `stop`. -/
theorem schedule (h : Loops K s) (hw : w < K.numThreads) (hstop : s.stop = false)
    {rt : Runtime.State} {f : ℕ} (hpc : rt.pc = s.rt.pc) (htodo : rt.todo = s.rt.todo)
    (hsub : rt.submit = Function.update s.rt.submit w (s.rt.submit w ++ [f])) :
    Loops K { s with
      rt := rt, scheduled := Function.update s.scheduled w (s.scheduled w ++ [f]) } := by
  refine ⟨?_, ?_, h.destroyed, h.stopping, ?_, h.latch, h.gone, ?_, h.returned⟩
  · intro v hv
    change rt.pc v = .idle ∧ rt.todo v = []
    rw [hpc, htodo]
    exact h.outside v hv
  · intro v hv
    obtain ⟨htest, hnil⟩ := h.beyond v hv
    have hv' : v ≠ w := by
      rintro rfl
      exact absurd hw (Nat.not_lt.mpr hv)
    refine ⟨htest, ?_⟩
    change rt.submit v = []
    rw [hsub, Function.update_of_ne hv', hnil]
  · intro v hv
    have hv' : s.stop = true := h.stopping v (Pc.stopping_of_drained hv)
    cases hstop.symm.trans hv'
  · intro v
    change Function.update s.scheduled w _ v = s.resumed v ++ rt.todo v ++ rt.submit v
    rw [htodo, hsub]
    by_cases hv : v = w
    · rw [hv, Function.update_self, Function.update_self, h.log w, List.append_assoc]
    · rw [Function.update_of_ne hv, Function.update_of_ne hv]
      exact h.log v

/-- A worker arrives at the latch. -/
theorem arrive (h : Loops K s) (hw : w < K.numThreads) (hpc : s.loop w = .arrive) :
    Loops K ({ s with latch := s.latch + 1 }.goto w .wait) := by
  have hne : ∀ v, v ≠ w → ({ s with latch := s.latch + 1 }.goto w .wait).loop v = s.loop v :=
    fun v hv => Function.update_of_ne hv ..
  have hself : ({ s with latch := s.latch + 1 }.goto w .wait).loop w = .wait :=
    Function.update_self ..
  have hcases : ∀ {p : ℕ → Pc → Prop}, p w .wait → (∀ v, p v (s.loop v)) →
      ∀ v, p v (({ s with latch := s.latch + 1 }.goto w .wait).loop v) := by
    intro p hpw hp v
    by_cases hv : v = w
    · rw [hv, hself]
      exact hpw
    · rw [hne v hv]
      exact hp v
  refine ⟨hcases (p := fun v l => l.inResume = false → _) ?_ h.outside, ?_, h.destroyed,
    hcases (p := fun v l => l.stopping = true → _) ?_ h.stopping,
    hcases (p := fun v l => l.drained = true → _) ?_ h.empty, ?_, ?_, h.log, ?_⟩
  · intro _
    exact h.outside w (by rw [hpc]; rfl)
  · intro v hv
    have hv' : v ≠ w := by
      rintro rfl
      exact absurd hw (Nat.not_lt.mpr hv)
    rw [hne v hv']
    exact h.beyond v hv
  · intro _
    exact h.stopping w (by rw [hpc]; rfl)
  · intro _
    exact h.empty w (by rw [hpc]; rfl)
  · intro hsteals
    have hfilter : ((Finset.range K.numThreads).filter fun v =>
        (({ s with latch := s.latch + 1 }.goto w .wait).loop v).arrived = true) =
        insert w ((Finset.range K.numThreads).filter fun v => (s.loop v).arrived = true) := by
      ext v
      simp only [Finset.mem_filter, Finset.mem_insert, Finset.mem_range]
      by_cases hv : v = w
      · rw [hv, hself]
        simp [hw, Pc.arrived]
      · rw [hne v hv]
        simp [hv]
    have hnew : w ∉ (Finset.range K.numThreads).filter fun v => (s.loop v).arrived = true := by
      intro hmem
      have harr := (Finset.mem_filter.mp hmem).2
      rw [hpc] at harr
      cases harr
    rw [hfilter, Finset.card_insert_of_notMem hnew]
    exact congrArg (· + 1) (h.latch hsteals)
  · intro v hsteals hfin
    have hv : v ≠ w := by
      rintro rfl
      rw [hself] at hfin
      rcases hfin with hfin | hfin <;> cases hfin
    rw [hne v hv] at hfin
    have hw' := h.gone v hsteals hfin w hw
    rw [hpc] at hw'
    cases hw'
  · intro hd v hv
    have hw' := h.returned hd w hw
    cases hpc.symm.trans hw'

/-- A worker in `resume` has popped its list. -/
theorem popped (h : Loops K s) (hw : w < K.numThreads) (hin : (s.loop w).inResume = true)
    {rt : Runtime.State} (hrt : Moves T s.rt (.popAll w) rt) : Loops K { s with rt := rt } := by
  cases hrt with
  | popAll hpc htodo hq =>
      refine h.code hw hin (fun v _ => rfl) ?_ ?_ (fun v _ => rfl) ?_
      · intro v hv
        simp [hv]
      · intro v hv
        simp [hv]
      · have hlog := h.log w
        rw [htodo] at hlog
        simpa using hlog

/-- The latch lets a worker through once all have arrived. -/
theorem all_arrived (h : Loops K s) (hsteals : K.steals = true)
    (hall : s.latch = K.numThreads) : ∀ v < K.numThreads, (s.loop v).arrived = true := by
  have hcard : ((Finset.range K.numThreads).filter fun w => (s.loop w).arrived = true).card =
      (Finset.range K.numThreads).card := by
    rw [Finset.card_range, ← h.latch hsteals, hall]
  intro v hv
  exact Finset.card_filter_eq_iff.mp hcard v (Finset.mem_range.mpr hv)

end Loops

/-- The step lemma. -/
theorem loops_of_moves (h : PoolMoves K T s a s') (hok : NoLateSchedule s a) (hs : Loops K s) :
    Loops K s' := by
  cases h with
  | spawn h =>
      cases h with
      | spawn hl ht => exact { hs with }
  | @schedule f w rt hw h =>
      cases h with
      | schedule hl => exact hs.schedule hw hok rfl rfl rfl
  | @code b w rt hb hw hin h =>
      have hcode : Loops K { s with rt := rt, resumed := (s.logResume b).resumed } := by
        rcases todo_of_worker h hb with ⟨rfl, f, htodo, hother⟩ | ⟨hne, htodo⟩
        · have hres : (s.logResume (.resume w)).resumed =
              Function.update s.resumed w (s.resumed w ++ [f]) := by
            simp only [State.logResume, htodo]
            rfl
          refine hs.code hw hin (fun v hv => pc_of_worker h hb hv) hother
            (fun v _ => congrFun (submit_of_worker h hb) v) ?_ ?_
          · intro v hv
            rw [hres, Function.update_of_ne hv]
          · rw [hres, Function.update_self, submit_of_worker h hb, hs.log w, htodo]
            simp
        · have hres : (s.logResume b).resumed = s.resumed := by
            unfold State.logResume
            split
            · next v => exact absurd rfl (hne v)
            · rfl
          refine hs.code hw hin (fun v hv => pc_of_worker h hb hv) (fun v _ => congrFun htodo v)
            (fun v _ => congrFun (submit_of_worker h hb) v) (fun v _ => congrFun hres v) ?_
          rw [hres, htodo, submit_of_worker h hb]
          exact hs.log w
      have heq : { s.logResume b with rt := rt } =
          { s with rt := rt, resumed := (s.logResume b).resumed } := by
        unfold State.logResume
        split <;> rfl
      rw [heq]
      exact hcode
  | @test w hw hpc =>
      have hidle := hs.outside w (by rw [hpc]; rfl)
      split_ifs with hstop
      · exact hs.turn hw (by rw [hpc]; rfl) rfl (fun _ => hstop) fun _ => hidle
      · exact hs.turn hw (by rw [hpc]; rfl) rfl (by simp [Pc.stopping, Pc.drained]) fun _ => hidle
  | @popNone w hw hpc hq =>
      have hidle := hs.outside w (by rw [hpc]; rfl)
      split_ifs
      · exact hs.turn hw (by rw [hpc]; rfl) rfl (by simp [Pc.stopping, Pc.drained]) fun _ => hidle
      · exact hs.turn hw (by rw [hpc]; rfl) rfl (by simp [Pc.stopping, Pc.drained]) fun _ => hidle
  | @pop w rt hw hpc h =>
      have hs₁ : Loops K (s.goto w .resuming) := hs.turn hw (by rw [hpc]; rfl) rfl
        (by simp [Pc.stopping, Pc.drained]) (by simp [Pc.inResume])
      exact hs₁.popped hw (by simp [State.goto, Pc.inResume]) h
  | @stealNone w hw hpc =>
      have hidle := hs.outside w (by rw [hpc]; rfl)
      exact hs.turn hw (by rw [hpc]; rfl) rfl (by simp [Pc.stopping, Pc.drained]) fun _ => hidle
  | @back w hw hpc hidle htodo =>
      exact hs.turn hw (by rw [hpc]; rfl) rfl (by simp [Pc.stopping, Pc.drained])
        fun _ => ⟨hidle, htodo⟩
  | @drainNone w hw hpc hq =>
      have hidle := hs.outside w (by rw [hpc]; rfl)
      have hstop := hs.stopping w (by rw [hpc]; rfl)
      split_ifs with hsteals
      · refine hs.goto hw (fun _ => hidle) (fun _ => hstop) (fun _ => hq) ?_ ?_ ?_
        · rw [hpc]
          exact fun _ => rfl
        · rintro - (hfin | hfin) <;> cases hfin
        · rw [hpc]
          exact fun hexit => by cases hexit
      · refine hs.goto hw (fun _ => hidle) (fun _ => hstop) (fun _ => hq) ?_ ?_ ?_
        · exact fun h => absurd h hsteals
        · exact fun h => absurd h hsteals
        · rw [hpc]
          exact fun hexit => by cases hexit
  | @drain w rt hw hpc h =>
      have hstop := hs.stopping w (by rw [hpc]; rfl)
      have hs₁ : Loops K (s.goto w .draining) := hs.turn hw (by rw [hpc]; rfl) rfl
        (fun _ => hstop) (by simp [Pc.inResume])
      exact hs₁.popped hw (by simp [State.goto, Pc.inResume]) h
  | @drainBack w hw hpc hidle htodo =>
      have hstop := hs.stopping w (by rw [hpc]; rfl)
      exact hs.turn hw (by rw [hpc]; rfl) rfl (fun _ => hstop) fun _ => ⟨hidle, htodo⟩
  | @setStop w hw hpc =>
      have hidle := hs.outside w (by rw [hpc]; rfl)
      have hempty := hs.empty w (by rw [hpc]; rfl)
      refine hs.setStop.goto hw (fun _ => hidle) (fun _ => rfl) (fun _ => hempty) ?_ ?_ ?_
      · intro _
        change false = (s.loop w).arrived
        rw [hpc]
        rfl
      · rintro - (hfin | hfin) <;> cases hfin
      · intro hexit
        cases hpc.symm.trans hexit
  | arrive hw hpc => exact hs.arrive hw hpc
  | @wait w hw hpc hall =>
      have hidle := hs.outside w (by rw [hpc]; rfl)
      have hstop := hs.stopping w (by rw [hpc]; rfl)
      have hempty := hs.empty w (by rw [hpc]; rfl)
      refine hs.goto hw (fun _ => hidle) (fun _ => hstop) (fun _ => hempty) ?_ ?_ ?_
      · rw [hpc]
        exact fun _ => rfl
      · exact fun hsteals _ => hs.all_arrived hsteals hall
      · intro hexit
        cases hpc.symm.trans hexit
  | @finalize w hw hpc =>
      have hidle := hs.outside w (by rw [hpc]; rfl)
      have hstop := hs.stopping w (by rw [hpc]; rfl)
      have hempty := hs.empty w (by rw [hpc]; rfl)
      refine hs.goto hw (fun _ => hidle) (fun _ => hstop) (fun _ => hempty) ?_ ?_ ?_
      · rw [hpc]
        exact fun _ => rfl
      · exact fun hsteals _ => hs.gone w hsteals (Or.inl hpc)
      · exact fun _ => rfl
  | @steal w v rt hw hv hne hpc h =>
      have hs₁ : Loops K (s.goto w .resuming) := hs.turn hw (by rw [hpc]; rfl) rfl
        (by simp [Pc.stopping, Pc.drained]) (by simp [Pc.inResume])
      have hin : ((s.goto w .resuming).loop w).inResume = true := by
        simp [State.goto, Pc.inResume]
      cases h with
      | steal hpc' htodo hq =>
          refine hs₁.code hw hin ?_ (fun u _ => rfl) (fun u _ => rfl) (fun u _ => rfl) ?_
          · intro u hu
            simp [Runtime.State.steal, hu, State.goto]
          · exact hs.log w
  | destroy hd =>
      exact { hs.setStop with destroyed := fun _ => rfl, returned := fun h => by cases h }
  | joined hd hall =>
      have hstop := hs.destroyed (by rw [hd]; simp)
      exact { hs with destroyed := fun _ => hstop, returned := fun _ => hall }

/-- The run lemma. -/
theorem loops_of_run (h : (machine K T).Run NoLateSchedule .init as s) : Loops K s := by
  refine Machine.Run.invariant ?_ loops_init h
  intro s a s' hs hok hstep
  exact loops_of_moves (poolMoves_of_step hstep) hok hs

/-! ## What is left -/

/-- Where every worker is idle, and no handle waits to be resumed, a live task waits for a handle
that the outside holds. -/
theorem alive_descends_outside {r : Runtime.State} (hI : Runtime.Inv T r) (hb : Bounded r.loc)
    (hidle : ∀ w, r.pc w = .idle) (htodo : ∀ w, r.todo w = []) (hsub : ∀ w, r.submit w = [])
    (f : ℕ) (hf : r.status f = .alive) : ∃ g, T.Descends f g ∧ r.loc g = .outside := by
  obtain ⟨n, hn⟩ := hb
  -- the induction goes up: a task waits for younger ones only
  induction hk : n - f using Nat.strong_induction_on generalizing f with
  | _ k ih =>
    have hlt : f < n := by
      by_contra hge
      have hun := hn f (Nat.not_lt.mp hge)
      rw [Runtime.State.status, hun] at hf
      cases hf
    have hchild : ∀ c, T.tag c ≠ .root → T.parent c = f → r.status c = .alive →
        ∃ g, T.Descends f g ∧ r.loc g = .outside := by
      intro c ht hp hc
      have hfc := T.parent_lt c ht
      rw [hp] at hfc
      obtain ⟨g, hg, hloc⟩ := ih (n - c) (by omega) c hc rfl
      exact ⟨g, (Tree.Descends.child ht (hp ▸ .self)).trans hg, hloc⟩
    have hempty : ∀ w, r.deque w = [] := by
      intro w
      have hline := hI.lined w
      rwa [hidle w] at hline
    cases hloc : r.loc f with
    | unborn =>
        rw [Runtime.State.status, hloc] at hf
        cases hf
    | dead =>
        rw [Runtime.State.status, hloc] at hf
        cases hf
    | run w =>
        have hw := (hI.placed.run w f).mpr hloc
        rw [hidle w] at hw
        cases hw
    | stolen w =>
        have hw := (hI.placed.stolen w f).mpr hloc
        cases (hidle w).symm.trans hw
    | final w =>
        have hw := (hI.placed.final w f).mpr hloc
        rw [hidle w] at hw
        cases hw
    | queued w =>
        have hw := (hI.placed.queued w f).mpr hloc
        rw [hempty w] at hw
        cases hw
    | submitted w =>
        have hw := (hI.placed.submitted w f).mpr hloc
        rw [htodo w, hsub w] at hw
        rcases hw with hw | hw <;> cases hw
    | outside => exact ⟨f, .self, hloc⟩
    | calling c =>
        obtain ⟨ht, hp, hc⟩ := ((hI.accounts f).calling c).mp hloc
        exact hchild c (by simp [ht]) hp hc
    | joining =>
        have hph : (r.task f).phase = .joining := by
          have hl : (r.task f).loc = .joining := hloc
          simp [Task.phase, hl]
        obtain ⟨c, hc⟩ := Finset.card_pos.mp ((hI.accounts f).balance.joining hph)
        obtain ⟨ht, hp, hc⟩ := ((hI.accounts f).owed c).mp hc
        exact hchild c (by simp [ht]) hp hc

/-- The deques of the workers have their shape. -/
theorem lined_of_poolRun {ok : State → Act → Prop} (h : (machine K T).Run ok .init as s) :
    AllLined T s.rt := by
  have hinit : AllLined T State.init.rt := fun w => Eq.refl (Runtime.State.init.deque w)
  refine Machine.Run.invariant (P := fun s => AllLined T s.rt) ?_ hinit h
  intro s a s' hs _ hstep
  rcases rt_of_moves (poolMoves_of_step hstep) with heq | ⟨b, hb⟩
  · rwa [heq]
  · exact lined_of_moves hb hs

/-- The invariant of the workers, and of what they have invoked. -/
theorem inv_of_poolRun (h : (machine K T).Run (FewSteals K T) .init as s) :
    Runtime.Inv T s.rt ∧ Bounded s.rt.loc := by
  have hinit : Runtime.Inv T State.init.rt ∧ Bounded State.init.rt.loc :=
    ⟨inv_init, 0, fun _ _ => rfl⟩
  refine Machine.Run.invariant (P := fun s => Runtime.Inv T s.rt ∧ Bounded s.rt.loc) ?_ hinit h
  intro s a s' hs hok hstep
  rcases rt_of_moves (poolMoves_of_step hstep) with heq | ⟨b, hb⟩
  · rwa [heq]
  · exact ⟨inv_of_moves hb hs.1 (hok s' hstep), bounded_of_moves hb hs.2⟩

/-- **A pool drains on destruction.** In a run where nothing is scheduled once the pool was told
to stop:

* a worker that destroys its context has seen every other worker leave its loops;
* the handles that a worker has passed to `resume` are the oldest of those scheduled on it, in
  their order and once each;
* when the destructor returns they are all of them, and no task is left in any deque;
* and then, unless a scope has seen 65535 steals, every task is over but those that wait for a
  handle that was never scheduled. -/
theorem pool_drains (h : (machine K T).Run NoLateSchedule .init as s) :
    (∀ w v, w < K.numThreads → v < K.numThreads → v ≠ w →
      s.loop w = .finalize ∨ s.loop w = .exited → (s.loop v).arrived = true) ∧
    (∀ w, s.scheduled w = s.resumed w ++ s.rt.todo w ++ s.rt.submit w) ∧
    (s.destroyer = .returned →
      (∀ w, s.resumed w = s.scheduled w ∧ s.rt.deque w = []) ∧
      ((machine K T).Run (FewSteals K T) .init as s → ∀ f, s.rt.status f = .alive →
        ∃ g, T.Descends f g ∧ s.rt.loc g = .outside)) := by
  have hs := loops_of_run h
  refine ⟨?_, hs.log, ?_⟩
  · intro w v hw hv hne hfin
    cases K with
    | unit =>
        have hw1 : w < 1 := hw
        have hv1 : v < 1 := hv
        omega
    | busy n => exact hs.gone w rfl hfin v hv
  · intro hd
    have hidle : ∀ w, s.rt.pc w = .idle ∧ s.rt.todo w = [] ∧ s.rt.submit w = [] := by
      intro w
      by_cases hw : w < K.numThreads
      · have hpc := hs.returned hd w hw
        obtain ⟨hidle, htodo⟩ := hs.outside w (by rw [hpc]; rfl)
        exact ⟨hidle, htodo, hs.empty w (by rw [hpc]; rfl)⟩
      · obtain ⟨hpc, hsub⟩ := hs.beyond w (Nat.not_lt.mp hw)
        obtain ⟨hidle, htodo⟩ := hs.outside w (by rw [hpc]; rfl)
        exact ⟨hidle, htodo, hsub⟩
    refine ⟨fun w => ⟨?_, ?_⟩, ?_⟩
    · have hlog := hs.log w
      rw [(hidle w).2.1, (hidle w).2.2] at hlog
      simpa using hlog.symm
    · have hline := lined_of_poolRun h w
      rwa [(hidle w).1] at hline
    · intro hfew f hf
      obtain ⟨hI, hb⟩ := inv_of_poolRun hfew
      exact alive_descends_outside hI hb (fun w => (hidle w).1) (fun w => (hidle w).2.1)
        (fun w => (hidle w).2.2) f hf

/-- Two workers of a `busy_pool` share a root and its child, and are destroyed. -/
theorem pool_drains_pair : ∃ as s, (machine (.busy 2) .pair).Run NoLateSchedule .init as s ∧
    s.destroyer = .returned ∧ s.resumed 0 = [0] := by
  let as : List Act := [.spawn 0, .schedule 0 0, .loop 0, .loop 0, .code (.resume 0),
    .code (.fork 0 1), .loop 1, .loop 1, .steal 1 0, .code (.step 1), .code (.step 1),
    .code (.join 1), .code (.ret 0), .code (.step 0), .code (.step 0), .code (.step 0), .loop 0,
    .destroy, .code (.step 1), .code (.ret 1), .loop 1, .loop 0, .loop 0, .loop 0, .loop 0,
    .loop 1, .loop 1, .loop 1, .loop 1, .loop 0, .loop 0, .loop 1, .loop 1, .joined]
  have hexec : ((machine (.busy 2) .pair).exec NoLateSchedule .init as).map
      (fun s => (s.destroyer, s.scheduled 0)) = some (.returned, [0]) := by decide +kernel
  obtain ⟨s, hs, heq⟩ := Option.map_eq_some_iff.mp hexec
  obtain ⟨hd, hsched⟩ := Prod.mk.inj heq
  have hrun := Machine.run_iff_exec.mpr hs
  exact ⟨as, s, hrun, hd, (((pool_drains hrun).2.2 hd).1 0).1.trans hsched⟩

end Libfork.Pool
