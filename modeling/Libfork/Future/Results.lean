import Libfork.Future.Steps

/-!
# What futures promise

* **`alive_of_run`** — nobody touches a shared state that has been freed, not even the worker that
  wakes the waiting thread after that thread may have gone on; each is freed once, when the call
  of `schedule`, the root task and the future have all let go.
* `Waits`, **`waits_of_run`** — a thread blocks on a future exactly until its task is over, and
  once only; the semaphore stays binary; a future is destroyed only after its task is over.
* `State.readsResult`, `Truthful`, **`answers_of_run`** — the first `get` gives what the task
  ended with, all later ones throw `empty_future`, and the result is read only after it was
  written.

Source: `sync_wait.hpp`, `future`, `schedule`; `promise.hpp`, `final_awaitable`;
`eventually.hpp`.
-/

namespace Libfork.Future

open Libfork.Found

variable {R E : Type} {s s' : State R E} {a : Act R E} {as : List (Act R E)} {i k : ℕ}

/-! ## The lifetime of a shared state -/

/-- A state is pointed at by its call of `schedule`, its task or a future, if by anything. -/
theorem Inv.unowned_iff (hs : Inv s) (hmade : i ∈ s.mem.made) : (∀ h, s.mem.ptr h ≠ some i) ↔
    s.call i = .finished ∧ (s.task i = .absent ∨ s.task i = .gone) ∧
      ∀ k, s.mem.ptr (.future k) ≠ some i := by
  have hshare : ∀ j, s.mem.ptr (.shareState j) = if (s.call j).holds then some j else none :=
    fun j => (hs.good j).shareState
  have hcomb : ∀ j, s.mem.ptr (.combinator j) = if s.call j = .create then some j else none :=
    fun j => (hs.good j).combinator
  have hprom : ∀ j, s.mem.ptr (.promise j) = if (s.task j).framed then some j else none :=
    fun j => (hs.good j).promise
  have hcalled := (hs.made i).mp hmade
  constructor
  · intro hnone
    have hopen : (s.call i).holds = false := by
      by_contra hopen
      exact hnone (.shareState i) ((hshare i).trans (if_pos (Bool.not_eq_false _ ▸ hopen)))
    have hframe : (s.task i).framed = false := by
      by_contra hframe
      exact hnone (.promise i) ((hprom i).trans (if_pos (Bool.not_eq_false _ ▸ hframe)))
    refine ⟨?_, ?_, fun k => hnone (.future k)⟩
    · revert hopen hcalled
      cases s.call i <;> simp [CallPc.holds]
    · revert hframe
      cases s.task i <;> simp [TaskPc.framed]
  · rintro ⟨hover, htask, hfuture⟩ h hp
    cases h with
    | future k => exact hfuture k hp
    | shareState j =>
        rw [hshare j] at hp
        split_ifs at hp with hj
        obtain rfl := Option.some.inj hp
        rw [hover] at hj
        cases hj
    | combinator j =>
        rw [hcomb j] at hp
        split_ifs at hp with hj
        obtain rfl := Option.some.inj hp
        rw [hover] at hj
        cases hj
    | promise j =>
        rw [hprom j] at hp
        split_ifs at hp with hj
        obtain rfl := Option.some.inj hp
        rcases htask with ht | ht <;> rw [ht] at hj <;> cases hj

/-- Whoever takes a step that accesses a state has a pointer to it. -/
theorem Inv.accesses_owned (hs : Inv s) (h : (machine R E).step s a = some s')
    (ha : s.accesses a = some i) : ∃ h, s.mem.ptr h = some i := by
  have hshare : ∀ {c}, s.call i = c → c.holds = true → ∃ h, s.mem.ptr h = some i := by
    intro c hc hholds
    subst hc
    exact ⟨.shareState i, (hs.good i).shareState.trans (if_pos hholds)⟩
  have hprom : ∀ {t}, s.task i = t → t.framed = true → ∃ h, s.mem.ptr h = some i := by
    intro t ht hframed
    subst ht
    exact ⟨.promise i, (hs.good i).promise.trans (if_pos hframed)⟩
  cases a with
  | schedule => cases ha
  | handOver => cases ha
  | moveConstruct => cases ha
  | call j throws =>
      obtain rfl := Option.some.inj ha
      simp only [machine, callStep] at h
      split at h
      case h_9 => cases h
      all_goals
        rename_i hc
        exact hshare hc rfl
  | touch j =>
      obtain rfl := Option.some.inj ha
      simp only [machine, moveTask] at h
      split_ifs at h with ht
      exact hprom ht rfl
  | resume j =>
      obtain rfl := Option.some.inj ha
      simp only [machine, moveTask] at h
      split_ifs at h with ht
      exact hprom ht rfl
  | finish j e =>
      obtain rfl := Option.some.inj ha
      simp only [machine, finish] at h
      split_ifs at h with ht
      exact hprom ht.1 rfl
  | final j =>
      obtain rfl := Option.some.inj ha
      simp only [machine, final] at h
      split at h
      case h_4 => cases h
      all_goals
        rename_i ht
        exact hprom ht rfl
  | start k op => exact ⟨.future k, ha⟩
  | goOn k => exact ⟨.future k, ha⟩
  | detach k => exact ⟨.future k, ha⟩
  | moveAssign k k' => exact ⟨.future k', ha⟩

/-- **No use after free, no double free, no leak.** Every shared state that a step reads or writes
was made and has not been freed; none is freed twice; and one is freed as soon as its call of
`schedule` is over, the frame of its task is gone or was never built, and no future holds it. -/
theorem alive_of_run (h : (machine R E).Run Machine.free .init as s) :
    (∀ a s' i, (machine R E).step s a = some s' → s.accesses a = some i →
      i ∈ s.mem.made ∧ i ∉ s.mem.freed) ∧
    s.mem.freed.Nodup ∧
    ∀ i ∈ s.mem.made, i ∈ s.mem.freed ↔ s.call i = .finished ∧
      (s.task i = .absent ∨ s.task i = .gone) ∧ ∀ k, s.mem.ptr (.future k) ≠ some i := by
  have hs := inv_of_run h
  refine ⟨fun a s' i hstep ha => ?_, hs.counted.nodup, fun i hi => ?_⟩
  · obtain ⟨holder, hp⟩ := hs.accesses_owned hstep ha
    exact hs.counted.live hp
  · rw [hs.counted.freed_iff hi]
    exact hs.unowned_iff hi

/-- A root task is scheduled, and the future goes to the slot 0. -/
def scheduled : List (Act ℕ ℕ) :=
  [.schedule 0 false, .call 0 false, .call 0 false, .call 0 false, .call 0 false, .handOver 0 0]

/-- The future gets the result and is destroyed between the two halves of the release of the
semaphore. -/
def early : List (Act ℕ ℕ) :=
  scheduled ++ [.start 0 .get, .touch 0, .resume 0, .finish 0 (.value 7), .final 0, .goOn 0,
    .goOn 0, .start 0 .destroy]

/-- The state is alive when the worker comes to wake the thread that is long gone. -/
theorem alive_of_run_early : ∃ s s', (machine ℕ ℕ).Run Machine.free .init early s ∧
    (machine ℕ ℕ).step s (.final 0) = some s' ∧ 0 ∉ s.mem.freed := by
  have hexec : (((machine ℕ ℕ).exec Machine.free .init early).map fun s => s.task 0) =
      some .released := by decide +kernel
  obtain ⟨s, hs, htask⟩ := Option.map_eq_some_iff.mp hexec
  have hrun := Machine.run_iff_exec.mpr hs
  have hstep : (machine ℕ ℕ).step s (.final 0) =
      some { s with task := Function.update s.task 0 .notified } := by
    simp only [machine, final, htask]
  exact ⟨s, _, hrun, hstep, ((alive_of_run hrun).1 _ _ 0 hstep rfl).2⟩

/-! ## Who waits, and for how long -/

/-- What holds of the threads that wait. -/
structure Waits (s : State R E) : Prop where
  /-- A thread that is about to acquire a semaphore can do so if and only if the task is over. -/
  blocked : ∀ k op, s.pc k = .acquiring op → ∃ i, s.mem.ptr (.future k) = some i ∧
    ((∃ s', (machine R E).step s (.goOn k) = some s') ↔ (s.task i).over = true)
  /-- A future belongs to a task that the scheduler has accepted. -/
  accepted : ∀ k i, s.mem.ptr (.future k) = some i → (s.task i).accepted = true
  /-- Nobody waits twice: a future whose status has changed is of a task that is over. -/
  once : ∀ k i, s.mem.ptr (.future k) = some i → (s.cell i).status ≠ .noWait →
    s.pc k = .idle ∧ (s.task i).over = true
  /-- The counter of a `binary_semaphore` is at most one, and zero when it is released. -/
  binary : ∀ i, (s.cell i).sem ≤ 1 ∧ (s.task i = .returned → (s.cell i).sem = 0)
  /-- A future that is destroyed with a state has seen its task end. -/
  destroyed : ∀ a s' k i, (machine R E).step s a = some s' → s.pc k ≠ .dead → s'.pc k = .dead →
    s.mem.ptr (.future k) = some i → (s.task i).over = true

/-- A thread that acquires the semaphore of the future `k`. -/
theorem goOn_acquiring {op : Op} (hpc : s.pc k = .acquiring op)
    (hk : s.mem.ptr (.future k) = some i) :
    (∃ s', (machine R E).step s (.goOn k) = some s') ↔ (s.cell i).sem ≠ 0 := by
  simp only [machine, goOn, hpc, hk]
  by_cases hsem : (s.cell i).sem = 0
  · rw [if_pos hsem]
    refine iff_of_false ?_ fun h => h hsem
    rintro ⟨s', hs'⟩
    cases hs'
  · rw [if_neg hsem]
    exact iff_of_true ⟨_, rfl⟩ hsem

/-- A future that has not acquired the semaphore and has another status than `no_wait`. -/
theorem Inv.over_of_status (hs : Inv s) (hk : s.mem.ptr (.future k) = some i)
    (hstatus : (s.cell i).status ≠ .noWait) : s.pc k = .idle ∧ (s.task i).over = true := by
  have htoken := (hs.good i).token k _ (view_pcs hk)
  have hover : (s.task i).over = true := by
    by_contra hover
    exact hstatus ((hs.good i).stored.status (Bool.not_eq_true _ ▸ hover))
  refine ⟨?_, hover⟩
  cases hpc : s.pc k with
  | idle => rfl
  | dead =>
      rw [hpc] at htoken
      exact htoken.elim
  | acquiring op =>
      rw [hpc] at htoken
      exact absurd htoken.1 hstatus
  | acquired op =>
      rw [hpc] at htoken
      exact absurd htoken.1 hstatus

/-- What a step does to the places of the futures and to the log. -/
inductive Effect (s s' : State R E) : Prop
  | quiet (hpc : s'.pc = s.pc) (hlog : s'.log = s.log)
  | goes (l : ℕ) (pc : FuturePc) (hne : pc ≠ .dead) (hpc : s'.pc = Function.update s.pc l pc)
      (hlog : s'.log = s.log)
  | null (l : ℕ) (op : Op) (hl : s.mem.ptr (.future l) = none) (heq : s' = startNull s l op)
  | ready (l j : ℕ) (op : Op) (hl : s.mem.ptr (.future l) = some j) (hpc : s.pc l = .idle)
      (hstatus : (s.cell j).status ≠ .noWait) (heq : s' = conclude s l j op)
  | acquired (l j : ℕ) (op : Op) (hpc : s.pc l = .acquired op)
      (heq : s' = conclude (markReady s j op) l j op)

/-- Every step has one of the effects. -/
theorem effect_of_step (h : (machine R E).step s a = some s') : Effect s s' := by
  cases a with
  | schedule j isVoid =>
      simp only [machine, schedule] at h
      split_ifs at h
      obtain rfl := Option.some.inj h
      exact .quiet rfl rfl
  | call j throws =>
      simp only [machine, callStep] at h
      split at h
      case h_9 => cases h
      all_goals
        obtain rfl := Option.some.inj h
        exact .quiet rfl rfl
  | handOver j l =>
      simp only [machine, handOver] at h
      split_ifs at h
      obtain rfl := Option.some.inj h
      exact .goes l .idle (by simp) rfl rfl
  | touch j =>
      simp only [machine, moveTask] at h
      split_ifs at h
      obtain rfl := Option.some.inj h
      exact .quiet rfl rfl
  | resume j =>
      simp only [machine, moveTask] at h
      split_ifs at h
      obtain rfl := Option.some.inj h
      exact .quiet rfl rfl
  | finish j e =>
      simp only [machine, finish] at h
      split_ifs at h
      obtain rfl := Option.some.inj h
      exact .quiet rfl rfl
  | final j =>
      simp only [machine, final] at h
      split at h
      case h_4 => cases h
      all_goals
        obtain rfl := Option.some.inj h
        exact .quiet rfl rfl
  | start l op =>
      simp only [machine, start] at h
      split_ifs at h with hpc
      split at h
      case h_1 hl => exact .null l op hl (Option.some.inj h).symm
      case h_2 j hl =>
        split_ifs at h with hstatus
        · obtain rfl := Option.some.inj h
          exact .goes l (.acquiring op) (by simp) rfl rfl
        · exact .ready l j op hl hpc hstatus (Option.some.inj h).symm
  | goOn l =>
      simp only [machine, goOn] at h
      split at h
      case h_1 op _ _ _ =>
        split_ifs at h
        obtain rfl := Option.some.inj h
        exact .goes l (.acquired op) (by simp) rfl rfl
      case h_2 op j hpc _ => exact .acquired l j op hpc (Option.some.inj h).symm
      case h_3 => cases h
  | detach l =>
      simp only [machine, detach] at h
      split_ifs at h
      obtain rfl := Option.some.inj h
      exact .quiet rfl rfl
  | moveConstruct l l' =>
      simp only [machine, moveConstruct] at h
      split_ifs at h
      obtain rfl := Option.some.inj h
      exact .goes l' .idle (by simp) rfl rfl
  | moveAssign l l' =>
      simp only [machine, moveAssign] at h
      split_ifs at h
      obtain rfl := Option.some.inj h
      exact .quiet rfl rfl

/-- What is left of an operation concerns its own future. -/
theorem conclude_pc {l j : ℕ} (op : Op) (hkl : k ≠ l) : (conclude s l j op).pc k = s.pc k := by
  cases op with
  | wait => exact Function.update_of_ne hkl _ _
  | get =>
      unfold conclude
      split_ifs
      · exact Function.update_of_ne hkl _ _
      · exact Function.update_of_ne hkl _ _
  | destroy => exact Function.update_of_ne hkl _ _

/-- What is left of an operation answers for the state that its future holds. -/
theorem conclude_log (j l : ℕ) (op : Op) : (conclude s l j op).log = s.log ∨
    ∃ r, (conclude s l j op).log = s.log ++ [(some j, r)] := by
  cases op with
  | wait => exact .inl rfl
  | get =>
      unfold conclude
      split_ifs
      · exact .inr ⟨_, rfl⟩
      · exact .inr ⟨_, rfl⟩
  | destroy => exact .inl rfl

/-- A future that is made ready is where it was. -/
@[simp] theorem markReady_pc (j : ℕ) (op : Op) : (markReady s j op).pc = s.pc := by
  cases op <;> rfl

/-- It answers nothing yet. -/
@[simp] theorem markReady_log (j : ℕ) (op : Op) : (markReady s j op).log = s.log := by
  cases op <;> rfl

/-- Only `~future` takes a future from the living, once it has nothing to wait for. -/
theorem destroys_of_step (h : (machine R E).step s a = some s') (hlive : s.pc k ≠ .dead)
    (hdead : s'.pc k = .dead) (hk : s.mem.ptr (.future k) = some i) :
    (s.cell i).status ≠ .noWait ∨ ∃ op, s.pc k = .acquired op := by
  cases effect_of_step h with
  | quiet hpc => exact absurd (hpc ▸ hdead) hlive
  | goes l pc hne hpc =>
      rw [hpc] at hdead
      by_cases hkl : k = l
      · subst hkl
        rw [Function.update_self] at hdead
        exact absurd hdead hne
      · rw [Function.update_of_ne hkl] at hdead
        exact absurd hdead hlive
  | null l op hl heq =>
      have hkl : k ≠ l := by
        rintro rfl
        rw [hk] at hl
        cases hl
      rw [heq] at hdead
      cases op with
      | wait => exact absurd hdead hlive
      | get => exact absurd hdead hlive
      | destroy => exact absurd ((Function.update_of_ne hkl _ _).symm.trans hdead) hlive
  | ready l j op hl hpc hstatus heq =>
      by_cases hkl : k = l
      · subst hkl
        obtain rfl := Option.some.inj (hk.symm.trans hl)
        exact .inl hstatus
      · rw [heq, conclude_pc op hkl] at hdead
        exact absurd hdead hlive
  | acquired l j op hpc heq =>
      by_cases hkl : k = l
      · subst hkl
        exact .inr ⟨op, hpc⟩
      · rw [heq, conclude_pc op hkl, markReady_pc] at hdead
        exact absurd hdead hlive

/-- **Waiting.** -/
theorem waits_of_run (h : (machine R E).Run Machine.free .init as s) : Waits s := by
  have hs := inv_of_run h
  constructor
  · intro k op hpc
    obtain ⟨i, hk⟩ := hs.busy k op (.inl hpc)
    have htoken := (hs.good i).token k _ (view_pcs hk)
    rw [hpc] at htoken
    refine ⟨i, hk, (goOn_acquiring hpc hk).trans ?_⟩
    change (s.view i).cell.sem ≠ 0 ↔ (s.view i).task.over = true
    rw [htoken.2]
    cases (s.view i).task.over <;> simp
  · intro k i hk
    exact ((hs.good i).held k _ (view_pcs hk)).2
  · intro k i hk hstatus
    exact hs.over_of_status hk hstatus
  · intro i
    have hle := (hs.good i).stored.sem_le
    refine ⟨hle.trans (Bool.toNat_le _), fun ht => ?_⟩
    change (s.cell i).sem ≤ (s.task i).over.toNat at hle
    rw [ht] at hle
    exact Nat.le_zero.mp hle
  · intro a s' k i hstep hlive hdead hk
    rcases destroys_of_step hstep hlive hdead hk with hstatus | ⟨op, hpc⟩
    · exact (hs.over_of_status hk hstatus).2
    · have htoken := (hs.good i).token k _ (view_pcs hk)
      rw [hpc] at htoken
      exact htoken.2.2

/-- The destructor of a future blocks as long as the body of its task runs. -/
theorem waits_of_run_blocked : ∃ s, (machine ℕ ℕ).Run Machine.free .init
    (scheduled ++ [.resume 0, .start 0 .destroy]) s ∧
    ¬ ∃ s', (machine ℕ ℕ).step s (.goOn 0) = some s' := by
  have hexec : (((machine ℕ ℕ).exec Machine.free .init
      (scheduled ++ [.resume 0, .start 0 .destroy])).map
      fun s => (s.pc 0, s.mem.ptr (.future 0), s.task 0)) =
      some (.acquiring .destroy, some 0, .running) := by decide +kernel
  obtain ⟨s, hs, heq⟩ := Option.map_eq_some_iff.mp hexec
  simp only [Prod.mk.injEq] at heq
  have hrun := Machine.run_iff_exec.mpr hs
  obtain ⟨i, hk, hiff⟩ := (waits_of_run hrun).blocked 0 .destroy heq.1
  obtain rfl := Option.some.inj (heq.2.1.symm.trans hk)
  refine ⟨s, hrun, fun hstep => ?_⟩
  have hover := hiff.mp hstep
  rw [heq.2.2] at hover
  cases hover

/-! ## What `get` gives -/

/-- The state whose result a step reads. -/
def State.readsResult (s : State R E) : Act R E → Option ℕ
  | .start k .get => (s.mem.ptr (.future k)).filter fun i =>
      s.pc k = .idle ∧ (s.cell i).status = .ready
  | .goOn k => if s.pc k = .acquired .get then s.mem.ptr (.future k) else none
  | _ => none

/-- What the calls of `get` on the states give. -/
structure Truthful (s : State R E) : Prop where
  /-- The first answer is what the task ended with, the others are `empty_future`. -/
  answers : ∀ i, (s.view i).answers = [] ∨
    ∃ e n, s.ended i = some e ∧ (s.view i).answers = e.answer :: List.replicate n .emptyFuture
  /-- Without a state there is nothing but `broken_future`. -/
  broken : ∀ r, (none, r) ∈ s.log → r = .brokenFuture
  /-- A result is stored where there is none yet. -/
  stores : ∀ i, s.task i = .running → (s.cell i).result.isEmpty (s.cell i).isVoid = true
  /-- A result is read once it has been stored and will not be written by the task any more. -/
  reads : ∀ a i, s.readsResult a = some i → (s.task i).over = true ∧
    ∃ e, s.ended i = some e ∧ (s.cell i).result = e.store .empty

/-- What is added to the log. -/
theorem log_of_step (h : (machine R E).step s a = some s') :
    s'.log = s.log ∨ (∃ i r, s'.log = s.log ++ [(some i, r)]) ∨
      s'.log = s.log ++ [(none, .brokenFuture)] := by
  cases effect_of_step h with
  | quiet hpc hlog => exact .inl hlog
  | goes l pc hne hpc hlog => exact .inl hlog
  | null l op hl heq =>
      rw [heq]
      cases op with
      | wait => exact .inr (.inr rfl)
      | get => exact .inr (.inr rfl)
      | destroy => exact .inl rfl
  | ready l j op hl hpc hstatus heq =>
      rw [heq]
      exact (conclude_log j l op).imp_right fun ⟨r, hr⟩ => .inl ⟨j, r, hr⟩
  | acquired l j op hpc heq =>
      have hlog := conclude_log (s := markReady s j op) j l op
      rw [markReady_log, ← heq] at hlog
      exact hlog.imp_right fun ⟨r, hr⟩ => .inl ⟨j, r, hr⟩

/-- Without a state `wait` and `get` throw `broken_future`. -/
def Broken (s : State R E) : Prop := ∀ r, (none, r) ∈ s.log → r = .brokenFuture

/-- A future without a shared state has answered that it is broken. -/
theorem broken_of_step (hs : Broken s) (h : (machine R E).step s a = some s') : Broken s' := by
  intro r hr
  rcases log_of_step h with heq | ⟨j, q, heq⟩ | heq
  · exact hs r (heq ▸ hr)
  · rw [heq, List.mem_append, List.mem_singleton] at hr
    rcases hr with hr | hr
    · exact hs r hr
    · cases hr
  · rw [heq, List.mem_append, List.mem_singleton] at hr
    rcases hr with hr | hr
    · exact hs r hr
    · exact (Prod.mk.inj hr).2

/-- **Results.** -/
theorem answers_of_run (h : (machine R E).Run Machine.free .init as s) : Truthful s := by
  have hs := inv_of_run h
  constructor
  · intro i
    have hanswered := (hs.good i).answered
    unfold Answered at hanswered
    split_ifs at hanswered with hstatus
    · exact .inr hanswered
    · exact .inl hanswered
  · have hbroken : Broken s := h.invariant (fun _ _ _ hs _ hstep => broken_of_step hs hstep)
      fun r hr => absurd hr List.not_mem_nil
    exact hbroken
  · exact fun i ht => (hs.good i).stored.isEmpty ht
  · intro a i ha
    have hread : ∀ k, s.mem.ptr (.future k) = some i → s.pc k = .acquired .get ∨
        s.pc k = .idle ∧ (s.cell i).status = .ready → (s.task i).over = true ∧
          ∃ e, s.ended i = some e ∧ (s.cell i).result = e.store .empty := by
      intro k hk hpc
      have hview := view_pcs hk
      have hview' : (s.view i).pcs k = some (.acquired .get) ∨
          (s.view i).pcs k = some .idle ∧ (s.view i).cell.status = .ready :=
        hpc.imp (fun hpc => by rw [hview, hpc]) fun hpc => ⟨by rw [hview, hpc.1], hpc.2⟩
      obtain ⟨hover, -, -, e, hended, -, hresult⟩ := (hs.good i).result hview'
      exact ⟨hover, e, hended, hresult⟩
    cases a with
    | start k op =>
        cases op with
        | get =>
            obtain ⟨hk, hpc⟩ := Option.filter_eq_some_iff.mp ha
            exact hread k hk (.inr (of_decide_eq_true hpc))
        | wait => cases ha
        | destroy => cases ha
    | goOn k =>
        simp only [State.readsResult] at ha
        split_ifs at ha with hpc
        exact hread k ha (.inl hpc)
    | _ => cases ha

/-- Two calls of `get`, the first of which blocks. -/
theorem answers_of_run_early : ∃ s, (machine ℕ ℕ).Run Machine.free .init
    (early.dropLast ++ [.start 0 .get]) s ∧
    (s.view 0).answers = [.value (some 7), .emptyFuture] := by
  have hexec : (((machine ℕ ℕ).exec Machine.free .init
      (early.dropLast ++ [.start 0 .get])).map
      fun s => (s.ended 0, (s.view 0).answers.length)) = some (some (.value 7), 2) := by
    decide +kernel
  obtain ⟨s, hs, heq⟩ := Option.map_eq_some_iff.mp hexec
  simp only [Prod.mk.injEq] at heq
  have hrun := Machine.run_iff_exec.mpr hs
  refine ⟨s, hrun, ?_⟩
  rcases (answers_of_run hrun).answers 0 with hnil | ⟨e, n, hended, hanswers⟩
  · rw [hnil] at heq
    cases heq.2
  · obtain rfl := Option.some.inj (heq.1.symm.trans hended)
    rw [hanswers, List.length_cons, List.length_replicate] at heq
    obtain rfl : n = 1 := Nat.succ.inj heq.2
    exact hanswers

end Libfork.Future
