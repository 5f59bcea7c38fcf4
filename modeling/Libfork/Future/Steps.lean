import Libfork.Future.Life

/-!
# Every step is a step in the life of each shared state

* `State.view` — the life of one shared state, as the machine has it.
* `Inv` — the life of each is good, the counts of the shared pointers are right, and only live
  futures have pointers.
* **`life_of_step`** — a step of the machine is, for each shared state, a step of its life.
* **`inv_of_run`** — every interleaving keeps the invariant.

Source: `sync_wait.hpp`; `combinate.hpp`; `promise.hpp`.
-/

namespace Libfork.Future

open Libfork.Found

variable {R E : Type} {s s' : State R E} {a : Act R E} {i j k k' : ℕ}

/-- The life of the shared state `i`. -/
def State.view (s : State R E) (i : ℕ) : Life R E where
  call := s.call i
  task := s.task i
  cell := s.cell i
  ended := s.ended i
  shareState := s.mem.ptr (.shareState i)
  combinator := s.mem.ptr (.combinator i)
  promise := s.mem.ptr (.promise i)
  pcs := fun k => if s.mem.ptr (.future k) = some i then some (s.pc k) else none
  answers := s.log.filterMap fun p => if p.1 = some i then some p.2 else none

/-- The pointers of a state. -/
structure Pointed (s : State R E) : Prop where
  counted : Counted s.mem
  made : ∀ i, i ∈ s.mem.made ↔ s.call i ≠ .uncalled
  dead : ∀ k, s.pc k = .dead → s.mem.ptr (.future k) = none
  busy : ∀ k op, s.pc k = .acquiring op ∨ s.pc k = .acquired op →
    ∃ i, s.mem.ptr (.future k) = some i

/-- What holds in every state. -/
structure Inv (s : State R E) : Prop extends Pointed s where
  good : ∀ i, Good i (s.view i)

/-! ## Where the futures stand -/

/-- What a state shared by a future shows of it. -/
theorem view_pcs (hk : s.mem.ptr (.future k) = some i) : (s.view i).pcs k = some (s.pc k) :=
  if_pos hk

/-- The future `k` goes on, for the state that it holds. -/
theorem pcs_goto (hk : s.mem.ptr (.future k) = some i) (pc : FuturePc) :
    (fun j => if s.mem.ptr (.future j) = some i then some (Function.update s.pc k pc j) else none) =
      Function.update (s.view i).pcs k (some pc) := by
  funext j
  by_cases hj : j = k
  · subst hj
    rw [if_pos hk, Function.update_self, Function.update_self]
  · rw [Function.update_of_ne hj, Function.update_of_ne hj]
    rfl

/-- The future `k` goes on, for the states that it does not hold. -/
theorem pcs_goto_of_ne (hk : s.mem.ptr (.future k) ≠ some i) (pc : FuturePc) :
    (fun j => if s.mem.ptr (.future j) = some i then some (Function.update s.pc k pc j) else none) =
      (s.view i).pcs := by
  funext j
  by_cases hj : j = k
  · subst hj
    exact (if_neg hk).trans (if_neg hk).symm
  · rw [Function.update_of_ne hj]
    rfl

/-- The future `k` lets go. -/
theorem pcs_reset (pc : ℕ → FuturePc) (hpc : ∀ j ≠ k, pc j = s.pc j) :
    (fun j => if Function.update s.mem.ptr (.future k) none (.future j) = some i
      then some (pc j) else none) = Function.update (s.view i).pcs k none := by
  funext j
  by_cases hj : j = k
  · subst hj
    rw [Function.update_self, Function.update_self, if_neg (by nofun)]
  · rw [Function.update_of_ne hj, Function.update_of_ne (by simpa using hj), hpc j hj]
    rfl

/-- The future `k'` takes over from `k`, which is idle: for the state that `k` held, it holds it
now, and any other state it holds no longer. -/
theorem pcs_move (hne : k ≠ k') {pc : ℕ → FuturePc} (hpc : ∀ j ≠ k', pc j = s.pc j)
    (hpc' : pc k' = .idle) :
    (fun j => if Function.update (Function.update s.mem.ptr (.future k) none) (.future k')
        (s.mem.ptr (.future k)) (.future j) = some i then some (pc j) else none) =
      if s.mem.ptr (.future k) = some i
      then Function.update (Function.update (s.view i).pcs k none) k' (some .idle)
      else Function.update (s.view i).pcs k' none := by
  funext j
  by_cases hj' : j = k'
  · subst hj'
    rw [Function.update_self, hpc']
    split_ifs
    · rw [Function.update_self]
    · rw [Function.update_self]
  · rw [Function.update_of_ne (by simpa using hj'), hpc j hj']
    by_cases hj : j = k
    · subst hj
      rw [Function.update_self, if_neg (by nofun)]
      split_ifs with hk
      · rw [Function.update_of_ne hj', Function.update_self]
      · rw [Function.update_of_ne hj']
        exact (if_neg hk).symm
    · rw [Function.update_of_ne (by simpa using hj)]
      split_ifs with hjv hk hk
      · rw [Function.update_of_ne hj', Function.update_of_ne hj]
        exact (if_pos hjv).symm
      · rw [Function.update_of_ne hj']
        exact (if_pos hjv).symm
      · rw [Function.update_of_ne hj', Function.update_of_ne hj]
        exact (if_neg hjv).symm
      · rw [Function.update_of_ne hj']
        exact (if_neg hjv).symm

/-! ## What a step does to the life of each state -/

/-- A step of a life, up to the spelling of its end. -/
theorem Life.Step.of_eq {v w w' : Life R E} (h : v.Step i w) (heq : w' = w) : v.Step i w' :=
  heq ▸ h

/-- A step that concerns one shared state only. -/
theorem life_at (h : (s.view i).Step i (s'.view i)) (hother : ∀ j ≠ i, s'.view j = s.view j)
    (j : ℕ) : (s.view j).Step j (s'.view j) := by
  by_cases hj : j = i
  · exact hj ▸ h
  · exact Life.Step.same.of_eq (hother j hj)

/-- `schedule` allocates the shared state. -/
theorem life_of_schedule {isVoid : Bool} (h : schedule s i isVoid = some s') (j : ℕ) :
    (s.view j).Step j (s'.view j) := by
  unfold schedule at h
  split_ifs at h with hc
  obtain rfl := Option.some.inj h
  refine life_at ((Life.Step.make isVoid hc).of_eq ?_) (fun j hj => ?_) j
  · simp [State.view]
  · simp [State.view, hj]

/-- An exception leaves `schedule`. -/
theorem life_of_unwind (hc : s.call i = .combine ∨ s.call i = .create ∨ s.call i = .release ∨
    s.call i = .publish) (j : ℕ) : (s.view j).Step j ((unwind s i).view j) := by
  refine life_at ((Life.Step.throws hc).of_eq ?_) (fun j hj => ?_) j
  · simp [State.view, unwind]
  · simp [State.view, unwind, hj]

/-- The call goes on, or throws. -/
theorem life_of_callStep {throws : Bool} (hs : Inv s) (h : callStep s i throws = some s') (j : ℕ) :
    (s.view j).Step j (s'.view j) := by
  have hcombinator := (hs.good i).combinator
  unfold callStep at h
  split at h
  case h_1 hc =>
    obtain rfl := Option.some.inj h
    have hnull : s.mem.ptr (.combinator i) = none := by
      refine hcombinator.trans (if_neg ?_)
      change s.call i ≠ .create
      rw [hc]
      nofun
    refine life_at ((Life.Step.combine hc).of_eq ?_) (fun j hj => ?_) j
    · simp [State.view, Shared.ptr_copy hnull]
    · simp [State.view, Shared.ptr_copy hnull, hj]
  case h_2 hc =>
    obtain rfl := Option.some.inj h
    refine life_at ((Life.Step.create hc).of_eq ?_) (fun j hj => ?_) j
    · simp [State.view]
    · simp [State.view, hj]
  case h_3 hc =>
    obtain rfl := Option.some.inj h
    refine life_at ((Life.Step.release hc).of_eq ?_) (fun j hj => ?_) j
    · simp [State.view]
    · simp [State.view, hj]
  case h_4 hc =>
    obtain rfl := Option.some.inj h
    refine life_at ((Life.Step.publish hc).of_eq ?_) (fun j hj => ?_) j
    · simp [State.view]
    · simp [State.view, hj]
  case h_5 hc =>
    obtain rfl := Option.some.inj h
    exact life_of_unwind (.inl hc) j
  case h_6 hc =>
    obtain rfl := Option.some.inj h
    exact life_of_unwind (.inr (.inl hc)) j
  case h_7 hc =>
    obtain rfl := Option.some.inj h
    exact life_of_unwind (.inr (.inr (.inl hc))) j
  case h_8 hc =>
    obtain rfl := Option.some.inj h
    exact life_of_unwind (.inr (.inr (.inr hc))) j
  case h_9 => cases h

/-- The future is handed over. -/
theorem life_of_handOver (hs : Inv s) (h : handOver s i k = some s') (j : ℕ) :
    (s.view j).Step j (s'.view j) := by
  unfold handOver at h
  split_ifs at h with hc
  obtain rfl := Option.some.inj h
  obtain ⟨hc, hk⟩ := hc
  have hshare : s.mem.ptr (.shareState i) = some i := by
    refine (hs.good i).shareState.trans (if_pos ?_)
    change (s.call i).holds = true
    rw [hc]
    rfl
  have hnull := hs.dead k hk
  have hpcs : ∀ j, (fun l => if Function.update (Function.update s.mem.ptr (.shareState i) none)
      (.future k) (some i) (.future l) = some j then some (Function.update s.pc k .idle l)
      else none) = if i = j then Function.update (s.view j).pcs k (some .idle)
        else (s.view j).pcs := by
    intro j
    funext l
    by_cases hl : l = k
    · subst hl
      rw [Function.update_self, Function.update_self]
      by_cases hij : i = j
      · rw [if_pos (by rw [hij]), if_pos hij, Function.update_self]
      · rw [if_neg (fun heq => hij (Option.some.inj heq)), if_neg hij]
        exact (if_neg (by rw [hnull]; nofun)).symm
    · rw [Function.update_of_ne (by simpa using hl), Function.update_of_ne (by simp),
        Function.update_of_ne hl]
      split_ifs with hj hij hij
      · rw [Function.update_of_ne hl]
        exact (if_pos hj).symm
      · exact (if_pos hj).symm
      · rw [Function.update_of_ne hl]
        exact (if_neg hj).symm
      · exact (if_neg hj).symm
  refine life_at ((Life.Step.handOver k hc).of_eq ?_) (fun j hj => ?_) j
  · have := hpcs i
    rw [if_pos rfl] at this
    simp only [State.view, Shared.ptr_move, hshare, this]
    simp
  · have := hpcs j
    rw [if_neg (Ne.symm hj)] at this
    simp only [State.view, Shared.ptr_move, hshare, this]
    simp [hj]

/-- The task goes on. -/
theorem life_of_moveTask {p q : TaskPc} (h : moveTask s i p q = some s')
    (hstep : s.task i = p → (s.view i).Step i { s.view i with task := q }) (j : ℕ) :
    (s.view j).Step j (s'.view j) := by
  unfold moveTask at h
  split_ifs at h with ht
  obtain rfl := Option.some.inj h
  refine life_at ((hstep ht).of_eq ?_) (fun j hj => ?_) j
  · simp [State.view]
  · simp [State.view, hj]

/-- The task stores its result. -/
theorem life_of_finish {e : Ended R E} (h : finish s i e = some s') (j : ℕ) :
    (s.view j).Step j (s'.view j) := by
  unfold finish at h
  split_ifs at h with ht
  obtain rfl := Option.some.inj h
  refine life_at ((Life.Step.finish e ht.1 ht.2).of_eq ?_) (fun j hj => ?_) j
  · simp [State.view]
  · simp [State.view, hj]

/-- The task is over, and lets go of the shared state. -/
theorem life_of_final (h : final s i = some s') (j : ℕ) : (s.view j).Step j (s'.view j) := by
  unfold final at h
  split at h
  case h_1 ht =>
    obtain rfl := Option.some.inj h
    refine life_at ((Life.Step.increments ht).of_eq ?_) (fun j hj => ?_) j
    · simp [State.view]
    · simp [State.view, hj]
  case h_2 ht =>
    obtain rfl := Option.some.inj h
    refine life_at ((Life.Step.notifies ht).of_eq ?_) (fun j hj => ?_) j
    · simp [State.view]
    · simp [State.view, hj]
  case h_3 ht =>
    obtain rfl := Option.some.inj h
    refine life_at ((Life.Step.destroys ht).of_eq ?_) (fun j hj => ?_) j
    · simp [State.view]
    · simp [State.view, hj]
  case h_4 => cases h

/-- A future lets go of what it holds, if anything. -/
theorem life_of_reset {pc : ℕ → FuturePc} (hpc : ∀ j ≠ k, pc j = s.pc j) (j : ℕ) :
    (s.view j).Step j
      (State.view { s with mem := s.mem.reset (.future k), pc := pc } j) := by
  refine (Life.Step.drops k).of_eq ?_
  simp only [State.view, Shared.ptr_reset, pcs_reset pc hpc]
  simp

/-- A future that holds `i` goes on, and the contents and the answers of `i` change as well. -/
theorem view_write (hk : s.mem.ptr (.future k) = some i) (pc : FuturePc) (c : SharedState R E)
    (answers : List (Answer R E)) :
    State.view { s with
      cell := Function.update s.cell i c, pc := Function.update s.pc k pc
      log := s.log ++ answers.map fun r => (some i, r) } i = { s.view i with
        cell := c, pcs := Function.update (s.view i).pcs k (some pc)
        answers := (s.view i).answers ++ answers } := by
  simp only [State.view, pcs_goto hk]
  simp [List.filterMap_map]

/-- Writing to one shared state does not show in another. -/
theorem view_write_of_ne (hk : s.mem.ptr (.future k) = some i) (pc : FuturePc)
    (c : SharedState R E) (answers : List (Answer R E)) (hj : j ≠ i) :
    State.view { s with
      cell := Function.update s.cell i c, pc := Function.update s.pc k pc
      log := s.log ++ answers.map fun r => (some i, r) } j = s.view j := by
  have hne : s.mem.ptr (.future k) ≠ some j := by
    rw [hk]
    exact fun heq => hj (Option.some.inj heq).symm
  simp only [State.view, pcs_goto_of_ne hne]
  simp [List.filterMap_map, hj, Ne.symm hj]

/-- A future that holds `i` goes on, by a step of the life of `i`. -/
theorem life_of_write (hk : s.mem.ptr (.future k) = some i) {pc : FuturePc}
    (c : SharedState R E) (answers : List (Answer R E))
    (h : (s.view i).Step i { s.view i with
      cell := c, pcs := Function.update (s.view i).pcs k (some pc)
      answers := (s.view i).answers ++ answers }) (j : ℕ) :
    (s.view j).Step j (State.view { s with
      cell := Function.update s.cell i c, pc := Function.update s.pc k pc
      log := s.log ++ answers.map fun r => (some i, r) } j) := by
  refine life_at (h.of_eq (view_write hk pc c answers)) (fun j hj => ?_) j
  exact view_write_of_ne hk pc c answers hj

/-- The same for a step that gives no answer. -/
theorem life_of_goto (hk : s.mem.ptr (.future k) = some i) {pc : FuturePc} (c : SharedState R E)
    (h : (s.view i).Step i { s.view i with
      cell := c, pcs := Function.update (s.view i).pcs k (some pc) }) (j : ℕ) :
    (s.view j).Step j (State.view { s with
      cell := Function.update s.cell i c, pc := Function.update s.pc k pc } j) := by
  have := life_of_write hk c [] (h.of_eq (by rw [List.append_nil])) j
  rwa [List.map_nil, List.append_nil] at this

/-- A call on a future without a shared state. -/
theorem life_of_startNull (hk : s.mem.ptr (.future k) = none) (op : Op) (j : ℕ) :
    (s.view j).Step j ((startNull s k op).view j) := by
  have hne : s.mem.ptr (.future k) ≠ some j := by
    rw [hk]
    nofun
  refine Life.Step.same.of_eq ?_
  unfold startNull
  cases op with
  | wait => simp [State.view]
  | get => simp [State.view]
  | destroy => simp only [State.view, pcs_goto_of_ne hne]

/-- An operation that has nothing to wait for. -/
theorem life_of_conclude (hk : s.mem.ptr (.future k) = some i) (hpc : s.pc k = .idle)
    (hstatus : (s.cell i).status ≠ .noWait) (op : Op) (j : ℕ) :
    (s.view j).Step j ((conclude s k i op).view j) := by
  have hidle : (s.view i).pcs k = some .idle := by rw [view_pcs hk, hpc]
  cases op with
  | wait =>
      refine Life.Step.same.of_eq ?_
      unfold conclude
      rw [← hpc, Function.update_eq_self]
  | get =>
      unfold conclude
      split_ifs with hr
      · have hstep : (s.view i).Step i { s.view i with
            cell := s.cell i, pcs := Function.update (s.view i).pcs k (some .idle)
            answers := (s.view i).answers ++ [.emptyFuture] } := by
          refine (Life.Step.getsAgain k hr).of_eq ?_
          rw [← hidle, Function.update_eq_self]
          rfl
        have := life_of_write hk _ _ hstep j
        rwa [Function.update_eq_self] at this
      · have hready : (s.cell i).status = .ready := by
          cases hc : (s.cell i).status with
          | noWait => exact absurd hc hstatus
          | ready => rfl
          | retrievd => exact absurd hc hr
        exact life_of_write hk _ _ (Life.Step.gets k (.inr ⟨hidle, hready⟩)) j
  | destroy => exact life_of_reset (fun l hl => Function.update_of_ne hl _ _) j

/-- An operation that has acquired the semaphore. -/
theorem life_of_acquired {op : Op} (hk : s.mem.ptr (.future k) = some i)
    (hpc : s.pc k = .acquired op) (j : ℕ) :
    (s.view j).Step j ((conclude (markReady s i op) k i op).view j) := by
  have hacquired : (s.view i).pcs k = some (.acquired op) := by rw [view_pcs hk, hpc]
  cases op with
  | wait =>
      exact life_of_goto hk _ (Life.Step.waited k hacquired) j
  | get =>
      have := life_of_write hk _ _ (Life.Step.gets k (.inl hacquired)) j
      unfold conclude
      rw [if_neg]
      · simp only [markReady, Function.update_self, Function.update_idem]
        exact this
      · simp [markReady]
  | destroy => exact life_of_reset (fun l hl => Function.update_of_ne hl _ _) j

/-- A future begins a call. -/
theorem life_of_start {op : Op} (h : start s k op = some s') (j : ℕ) :
    (s.view j).Step j (s'.view j) := by
  unfold start at h
  split_ifs at h with hpc
  split at h
  case h_1 hk =>
    obtain rfl := Option.some.inj h
    exact life_of_startNull hk op j
  case h_2 i hk =>
    have hidle : (s.view i).pcs k = some .idle := by rw [view_pcs hk, hpc]
    split_ifs at h with hstatus
    · obtain rfl := Option.some.inj h
      have := life_of_goto hk (s.cell i) (Life.Step.blocks k op hidle hstatus) j
      rwa [Function.update_eq_self] at this
    · obtain rfl := Option.some.inj h
      exact life_of_conclude hk hpc hstatus op j

/-- It goes on with it. -/
theorem life_of_goOn (h : goOn s k = some s') (j : ℕ) : (s.view j).Step j (s'.view j) := by
  unfold goOn at h
  split at h
  case h_1 op i hpc hk =>
    split_ifs at h with hsem
    obtain rfl := Option.some.inj h
    have hacquiring : (s.view i).pcs k = some (.acquiring op) := by rw [view_pcs hk, hpc]
    exact life_of_goto hk _ (Life.Step.acquires k op hacquiring hsem) j
  case h_2 op i hpc hk =>
    obtain rfl := Option.some.inj h
    exact life_of_acquired hk hpc j
  case h_3 => cases h

/-- It lets go of its shared state. -/
theorem life_of_detach (h : detach s k = some s') (j : ℕ) : (s.view j).Step j (s'.view j) := by
  unfold detach at h
  split_ifs at h with hpc
  obtain rfl := Option.some.inj h
  exact life_of_reset (fun _ _ => rfl) j

/-- A future takes over what another one, which is idle, holds. -/
theorem life_of_move (hne : k ≠ k') (hk : s.pc k = .idle) {pc : ℕ → FuturePc}
    {mem : Shared Holder ℕ} (hpc : ∀ j ≠ k', pc j = s.pc j) (hpc' : pc k' = .idle)
    (hmem : mem.ptr = Function.update (Function.update s.mem.ptr (.future k) none) (.future k')
      (s.mem.ptr (.future k))) (j : ℕ) :
    (s.view j).Step j (State.view { s with mem := mem, pc := pc } j) := by
  have hpcs := pcs_move (s := s) (i := j) hne hpc hpc'
  by_cases hj : s.mem.ptr (.future k) = some j
  · rw [if_pos hj] at hpcs
    refine (Life.Step.moves k k' (by rw [view_pcs hj, hk])).of_eq ?_
    simp only [State.view, hmem, hpcs]
    simp
  · rw [if_neg hj] at hpcs
    refine (Life.Step.drops k').of_eq ?_
    simp only [State.view, hmem, hpcs]
    simp

/-- A future is move-constructed from another. -/
theorem life_of_moveConstruct (h : moveConstruct s k k' = some s') (j : ℕ) :
    (s.view j).Step j (s'.view j) := by
  unfold moveConstruct at h
  split_ifs at h with hpc
  obtain rfl := Option.some.inj h
  have hne : k ≠ k' := by
    rintro rfl
    rw [hpc.1] at hpc
    exact nomatch hpc.2
  exact life_of_move hne hpc.1 (fun l hl => Function.update_of_ne hl _ _)
    (Function.update_self ..) rfl j

/-- A future is move-assigned. -/
theorem life_of_moveAssign (h : moveAssign s k k' = some s') (j : ℕ) :
    (s.view j).Step j (s'.view j) := by
  unfold moveAssign at h
  split_ifs at h with hpc
  obtain rfl := Option.some.inj h
  by_cases hne : k = k'
  · subst hne
    rw [Shared.assign_self]
    exact .same
  · exact life_of_move hne hpc.1 (fun _ _ => rfl) hpc.2
      (Shared.ptr_assign (by simpa using hne)) j

/-- **A step of the machine is, for each shared state, a step of its life.** -/
theorem life_of_step (hs : Inv s) (h : (machine R E).step s a = some s') (j : ℕ) :
    (s.view j).Step j (s'.view j) := by
  cases a with
  | schedule i isVoid => exact life_of_schedule h j
  | call i throws => exact life_of_callStep hs h j
  | handOver i k => exact life_of_handOver hs h j
  | touch i =>
      exact life_of_moveTask h (fun ht => Life.Step.same.of_eq (by rw [← ht]; rfl)) j
  | resume i => exact life_of_moveTask h (fun ht => .resume ht) j
  | finish i e => exact life_of_finish h j
  | final i => exact life_of_final h j
  | start k op => exact life_of_start h j
  | goOn k => exact life_of_goOn h j
  | detach k => exact life_of_detach h j
  | moveConstruct k k' => exact life_of_moveConstruct h j
  | moveAssign k k' => exact life_of_moveAssign h j

/-! ## The pointers -/

/-- A step that concerns no future. -/
theorem Pointed.of_call (hs : Pointed s) (hcounted : Counted s'.mem)
    (hmade : s'.mem.made = s.mem.made) (hcall : ∀ i, s'.call i = .uncalled ↔ s.call i = .uncalled)
    (hptr : ∀ k, s'.mem.ptr (.future k) = s.mem.ptr (.future k)) (hpc : s'.pc = s.pc) :
    Pointed s' where
  counted := hcounted
  made i := by rw [hmade, hs.made i, ne_eq, ne_eq, hcall i]
  dead k hk := by
    rw [hptr k]
    exact hs.dead k (hpc ▸ hk)
  busy k op hk := by
    rw [hptr k]
    exact hs.busy k op (hpc ▸ hk)

/-- A step that leaves the shared pointers alone. -/
theorem Pointed.of_pc (hs : Pointed s) (hmem : s'.mem = s.mem) (hcall : s'.call = s.call)
    {pc : FuturePc} (hpc : s'.pc = Function.update s.pc k pc)
    (hdead : pc = .dead → s.mem.ptr (.future k) = none)
    (hbusy : ∀ op, pc = .acquiring op ∨ pc = .acquired op → ∃ i, s.mem.ptr (.future k) = some i) :
    Pointed s' where
  counted := hmem ▸ hs.counted
  made i := by rw [hmem, hcall, hs.made i]
  dead j hj := by
    rw [hmem]
    by_cases hjk : j = k
    · subst hjk
      rw [hpc, Function.update_self] at hj
      exact hdead hj
    · rw [hpc, Function.update_of_ne hjk] at hj
      exact hs.dead j hj
  busy j op hj := by
    rw [hmem]
    by_cases hjk : j = k
    · subst hjk
      rw [hpc, Function.update_self] at hj
      exact hbusy op hj
    · rw [hpc, Function.update_of_ne hjk] at hj
      exact hs.busy j op hj

/-- The future `k` lets go. -/
theorem Pointed.of_reset (hs : Pointed s) (hmem : s'.mem = s.mem.reset (.future k))
    (hcall : s'.call = s.call) {pc : FuturePc} (hpc : s'.pc = Function.update s.pc k pc)
    (hidle : pc = .dead ∨ pc = .idle) : Pointed s' where
  counted := hmem ▸ hs.counted.reset _
  made i := by rw [hmem, Shared.made_reset, hcall, hs.made i]
  dead j hj := by
    rw [hmem, Shared.ptr_reset]
    by_cases hjk : j = k
    · rw [hjk, Function.update_self]
    · rw [hpc, Function.update_of_ne hjk] at hj
      rw [Function.update_of_ne (by simpa using hjk)]
      exact hs.dead j hj
  busy j op hj := by
    rw [hmem, Shared.ptr_reset]
    by_cases hjk : j = k
    · subst hjk
      rw [hpc, Function.update_self] at hj
      rcases hidle with rfl | rfl <;> rcases hj with hj | hj <;> cases hj
    · rw [hpc, Function.update_of_ne hjk] at hj
      rw [Function.update_of_ne (by simpa using hjk)]
      exact hs.busy j op hj

/-- The future `k'`, which is idle now, takes over from another pointer. -/
theorem Pointed.of_move (hs : Pointed s) {h : Holder} (hcounted : Counted s'.mem)
    (hmade : s'.mem.made = s.mem.made) (hcall : ∀ i, s'.call i = .uncalled ↔ s.call i = .uncalled)
    (hptr : s'.mem.ptr =
      Function.update (Function.update s.mem.ptr h none) (.future k') (s.mem.ptr h))
    (hidle : ∀ k, h = .future k → s.pc k = .idle)
    (hpc : ∀ j ≠ k', s'.pc j = s.pc j) (hpc' : s'.pc k' = .idle) : Pointed s' where
  counted := hcounted
  made i := by rw [hmade, hs.made i, ne_eq, ne_eq, hcall i]
  dead j hj := by
    have hjk : j ≠ k' := by
      rintro rfl
      rw [hpc'] at hj
      cases hj
    rw [hptr, Function.update_of_ne (by simpa using hjk)]
    rw [hpc j hjk] at hj
    by_cases hjh : Holder.future j = h
    · rw [hjh, Function.update_self]
    · rw [Function.update_of_ne hjh]
      exact hs.dead j hj
  busy j op hj := by
    have hjk : j ≠ k' := by
      rintro rfl
      rw [hpc'] at hj
      rcases hj with hj | hj <;> cases hj
    rw [hptr, Function.update_of_ne (by simpa using hjk)]
    rw [hpc j hjk] at hj
    have hjh : Holder.future j ≠ h := by
      intro heq
      rw [hidle j heq.symm] at hj
      rcases hj with hj | hj <;> cases hj
    rw [Function.update_of_ne hjh]
    exact hs.busy j op hj

/-- `schedule` points to what it has allocated. -/
theorem pointed_of_schedule {isVoid : Bool} (hs : Inv s) (h : schedule s i isVoid = some s') :
    Pointed s' := by
  unfold schedule at h
  split_ifs at h with hc
  obtain rfl := Option.some.inj h
  have hfresh : i ∉ s.mem.made := fun hi => (hs.made i).mp hi hc
  have hnull : s.mem.ptr (.shareState i) = none := by
    refine (hs.good i).shareState.trans (if_neg ?_)
    change ¬ (s.call i).holds = true
    rw [hc]
    nofun
  refine ⟨hs.counted.make hnull hfresh, fun j => ?_, fun k hk => ?_, fun k op hk => ?_⟩
  · rw [Shared.made_make, List.mem_append, List.mem_singleton, hs.made j]
    by_cases hj : j = i
    · simp [hj]
    · simp [hj]
  · simpa using hs.dead k hk
  · simpa using hs.busy k op hk

/-- The call keeps the pointers right. -/
theorem pointed_of_callStep {throws : Bool} (hs : Inv s) (h : callStep s i throws = some s') :
    Pointed s' := by
  have hcalled : ∀ {c c' : CallPc}, s.call i = c → c ≠ .uncalled → c' ≠ .uncalled → ∀ j,
      Function.update s.call i c' j = .uncalled ↔ s.call j = .uncalled := by
    intro c c' hc hne hne' j
    by_cases hj : j = i
    · rw [hj, Function.update_self, hc]
      exact iff_of_false hne' hne
    · rw [Function.update_of_ne hj]
  have hunwind : ∀ c, s.call i = c → c ≠ .uncalled → Pointed (unwind s i) := by
    intro c hc hne
    refine hs.of_call ?_ ?_ (hcalled hc hne (by simp)) (fun k => ?_) rfl
    · exact ((hs.counted.reset _).reset _).reset _
    · simp [unwind]
    · simp [unwind]
  unfold callStep at h
  split at h
  case h_1 hc =>
    obtain rfl := Option.some.inj h
    have hnull : s.mem.ptr (.combinator i) = none := by
      refine (hs.good i).combinator.trans (if_neg ?_)
      change s.call i ≠ .create
      rw [hc]
      simp
    exact hs.of_call (hs.counted.copy hnull _) Shared.made_copy (hcalled hc (by simp) (by simp))
      (fun k => by simp [Shared.ptr_copy hnull]) rfl
  case h_2 hc =>
    obtain rfl := Option.some.inj h
    have ht : s.task i = .absent := by
      have hstage := (hs.good i).stage
      simp only [State.view, hc, Stage] at hstage
      exact hstage
    have hnull : s.mem.ptr (.promise i) = none := by
      refine (hs.good i).promise.trans (if_neg ?_)
      change ¬ (s.task i).framed = true
      rw [ht]
      simp [TaskPc.framed]
    exact hs.of_call (hs.counted.move hnull _) rfl (hcalled hc (by simp) (by simp))
      (fun k => by simp) rfl
  case h_3 hc =>
    obtain rfl := Option.some.inj h
    exact hs.of_call hs.counted rfl (hcalled hc (by simp) (by simp)) (fun _ => rfl) rfl
  case h_4 hc =>
    obtain rfl := Option.some.inj h
    exact hs.of_call hs.counted rfl (hcalled hc (by simp) (by simp)) (fun _ => rfl) rfl
  case h_5 hc => exact Option.some.inj h ▸ hunwind _ hc (by simp)
  case h_6 hc => exact Option.some.inj h ▸ hunwind _ hc (by simp)
  case h_7 hc => exact Option.some.inj h ▸ hunwind _ hc (by simp)
  case h_8 hc => exact Option.some.inj h ▸ hunwind _ hc (by simp)
  case h_9 => cases h

/-- So does the hand-over. -/
theorem pointed_of_handOver (hs : Inv s) (h : handOver s i k = some s') : Pointed s' := by
  unfold handOver at h
  split_ifs at h with hc
  obtain rfl := Option.some.inj h
  obtain ⟨hc, hk⟩ := hc
  refine hs.of_move (hs.counted.move (hs.dead k hk) _) rfl (fun j => ?_) rfl (by nofun)
    (fun l hl => Function.update_of_ne hl _ _) (Function.update_self ..)
  by_cases hj : j = i
  · simp [hj, hc]
  · simp [hj]

/-- So does the end of the task. -/
theorem pointed_of_final (hs : Inv s) (h : final s i = some s') : Pointed s' := by
  unfold final at h
  split at h
  case h_1 =>
    obtain rfl := Option.some.inj h
    exact hs.of_call hs.counted rfl (fun _ => Iff.rfl) (fun _ => rfl) rfl
  case h_2 =>
    obtain rfl := Option.some.inj h
    exact hs.of_call hs.counted rfl (fun _ => Iff.rfl) (fun _ => rfl) rfl
  case h_3 =>
    obtain rfl := Option.some.inj h
    exact hs.of_call (hs.counted.reset _) Shared.made_reset (fun _ => Iff.rfl)
      (fun k => by simp) rfl
  case h_4 => cases h

/-- So does the end of a call on a future. -/
theorem pointed_of_conclude (hs : Pointed s) (op : Op) : Pointed (conclude s k i op) := by
  cases op with
  | wait => exact hs.of_pc rfl rfl rfl (by nofun) (by nofun)
  | get =>
      unfold conclude
      split_ifs
      · exact hs.of_pc rfl rfl rfl (by nofun) (by nofun)
      · exact hs.of_pc rfl rfl rfl (by nofun) (by nofun)
  | destroy => exact hs.of_reset rfl rfl rfl (.inl rfl)

/-- So does its beginning. -/
theorem pointed_of_start {op : Op} (hs : Pointed s) (h : start s k op = some s') :
    Pointed s' := by
  unfold start at h
  split_ifs at h with hpc
  split at h
  case h_1 hk =>
    obtain rfl := Option.some.inj h
    cases op with
    | wait => exact hs.of_call hs.counted rfl (fun _ => Iff.rfl) (fun _ => rfl) rfl
    | get => exact hs.of_call hs.counted rfl (fun _ => Iff.rfl) (fun _ => rfl) rfl
    | destroy => exact hs.of_pc rfl rfl rfl (fun _ => hk) (by nofun)
  case h_2 i hk =>
    split_ifs at h with hstatus
    · obtain rfl := Option.some.inj h
      exact hs.of_pc rfl rfl rfl (by nofun) (fun _ _ => ⟨i, hk⟩)
    · obtain rfl := Option.some.inj h
      exact pointed_of_conclude hs op

/-- So does what comes between. -/
theorem pointed_of_goOn (hs : Pointed s) (h : goOn s k = some s') : Pointed s' := by
  unfold goOn at h
  split at h
  case h_1 op i hpc hk =>
    split_ifs at h with hsem
    obtain rfl := Option.some.inj h
    exact hs.of_pc rfl rfl rfl (by nofun) (fun _ _ => ⟨i, hk⟩)
  case h_2 op i hpc hk =>
    obtain rfl := Option.some.inj h
    refine pointed_of_conclude ?_ op
    cases op with
    | wait => exact hs.of_call hs.counted rfl (fun _ => Iff.rfl) (fun _ => rfl) rfl
    | get => exact hs.of_call hs.counted rfl (fun _ => Iff.rfl) (fun _ => rfl) rfl
    | destroy => exact hs
  case h_3 => cases h

/-- So does a move construction. -/
theorem pointed_of_moveConstruct (hs : Pointed s) (h : moveConstruct s k k' = some s') :
    Pointed s' := by
  unfold moveConstruct at h
  split_ifs at h with hpc
  obtain rfl := Option.some.inj h
  refine hs.of_move (hs.counted.move (hs.dead k' hpc.2) _) rfl (fun _ => Iff.rfl) rfl
    (fun l hl => ?_) (fun l hl => Function.update_of_ne hl _ _) (Function.update_self ..)
  obtain rfl := Holder.future.inj hl
  exact hpc.1

/-- So does a move assignment. -/
theorem pointed_of_moveAssign (hs : Pointed s) (h : moveAssign s k k' = some s') :
    Pointed s' := by
  unfold moveAssign at h
  split_ifs at h with hpc
  obtain rfl := Option.some.inj h
  by_cases hne : k = k'
  · subst hne
    rw [Shared.assign_self]
    exact hs
  · refine hs.of_move (hs.counted.assign _ _) Shared.made_assign (fun _ => Iff.rfl)
      (Shared.ptr_assign (by simpa using hne)) (fun l hl => ?_) (fun _ _ => rfl) hpc.2
    obtain rfl := Holder.future.inj hl
    exact hpc.1

/-- Every step keeps the pointers right. -/
theorem pointed_of_step (hs : Inv s) (h : (machine R E).step s a = some s') : Pointed s' := by
  cases a with
  | schedule i isVoid => exact pointed_of_schedule hs h
  | call i throws => exact pointed_of_callStep hs h
  | handOver i k => exact pointed_of_handOver hs h
  | touch i =>
      simp only [machine, moveTask] at h
      split_ifs at h
      obtain rfl := Option.some.inj h
      exact hs.of_call hs.counted rfl (fun _ => Iff.rfl) (fun _ => rfl) rfl
  | resume i =>
      simp only [machine, moveTask] at h
      split_ifs at h
      obtain rfl := Option.some.inj h
      exact hs.of_call hs.counted rfl (fun _ => Iff.rfl) (fun _ => rfl) rfl
  | finish i e =>
      simp only [machine, finish] at h
      split_ifs at h
      obtain rfl := Option.some.inj h
      exact hs.of_call hs.counted rfl (fun _ => Iff.rfl) (fun _ => rfl) rfl
  | final i => exact pointed_of_final hs h
  | start k op => exact pointed_of_start hs.toPointed h
  | goOn k => exact pointed_of_goOn hs.toPointed h
  | detach k =>
      simp only [machine, detach] at h
      split_ifs at h with hpc
      obtain rfl := Option.some.inj h
      have hsame : s.pc = Function.update s.pc k .idle := by rw [← hpc, Function.update_eq_self]
      exact hs.toPointed.of_reset rfl rfl hsame (.inr rfl)
  | moveConstruct k k' => exact pointed_of_moveConstruct hs.toPointed h
  | moveAssign k k' => exact pointed_of_moveAssign hs.toPointed h

/-! ## Every run -/

/-- The invariant holds at first. -/
theorem inv_init : Inv (State.init : State R E) where
  counted := counted_empty
  made i := iff_of_false List.not_mem_nil fun h => h rfl
  dead _ _ := rfl
  busy _ _ hk := by rcases hk with hk | hk <;> cases hk
  good i := by
    refine ⟨rfl, rfl, rfl, rfl, fun _ => ⟨rfl, rfl⟩, by nofun, by nofun, by nofun,
      ⟨Nat.le_refl 0, fun _ => rfl, fun _ _ => ⟨rfl, rfl⟩, ?_⟩, rfl⟩
    rintro (ht | ht) <;> cases ht

/-- Every step keeps it. -/
theorem inv_of_step (hs : Inv s) (h : (machine R E).step s a = some s') : Inv s' where
  toPointed := pointed_of_step hs h
  good i := good_of_step (hs.good i) (life_of_step hs h i)

/-- **Every interleaving keeps the invariant.** -/
theorem inv_of_run {as : List (Act R E)} (h : (machine R E).Run Machine.free .init as s) : Inv s :=
  h.invariant (fun _ _ _ hs _ hstep => inv_of_step hs hstep) inv_init

end Libfork.Future
