import Libfork.Lazy.Wakeups

/-!
# The destructor of a `lazy_pool` gets its workers back

* `Pc.toGo` — how many accesses a worker of a pool that is stopped has before it at most, as long
  as it finds no work.
* `State.finds`, `finds` — the accesses by which it does find some.
* `go_of_step` — every other access takes it nearer to the end.
* **`stops_of_run`** — once the destructor has come to its `join`s no worker is blocked, each can
  go on, and each is over after a number of accesses of its own that is bounded by the number of
  times it finds work.

Source: `lazy_pool.hpp`, `lazy_work`, `~lazy_pool`.
-/

namespace Libfork.Lazy

open Libfork.Found Libfork.EventCount

variable {K : Config} {s s' t : State} {a : Act} {w : ℕ}

/-! ## How far it is -/

/-- The accesses that are left to a worker of a pool that is stopped, if it finds no work. With
work in hand it may have to look at each of the `n` domains. -/
def Pc.toGo (n : ℕ) : Pc → ℕ
  | .exited => 0
  | .stopSet => 1
  | .stopSub => 2
  | .stopWake _ => 3
  | .stopNotify => 4
  | .stopCancel => 5
  | .testStop _ _ => 6
  | .popAgain _ _ => 7
  | .prepare => 8
  | .trySteal => 9
  | .tryPop => 10
  | .wakeUp => 11
  | .leave => 12
  | .sleepCancel => 12
  | .deactivate => 12
  | .blocked _ _ _ => 13
  | .check _ _ => 13
  | .resume => 13
  | .loadActive _ _ => 14
  | .sleep _ _ => 15
  | .loopWake j _ => 3 * (n - j) + 14
  | .loopNotify j => 3 * (n - j) + 15
  | .loop j => 3 * (n - j) + 16
  | .activate => 3 * n + 17
  | .lastWake _ => 3 * n + 18
  | .lastNotify => 3 * n + 19
  | .workSub => 3 * n + 20
  | .popCancel => 3 * n + 21

/-- The action is an access of `w`. -/
def Act.isOf (w : ℕ) : Act → Bool
  | .step v => v == w
  | .steal v => v == w
  | .wakeOne v _ => v == w
  | _ => false

/-- The worker calls `try_pop_all()`. -/
def Pc.pops : Pc → Bool
  | .tryPop => true
  | .popAgain _ _ => true
  | _ => false

/-- The worker `w` finds work by this access. -/
def State.finds (s : State) (w : ℕ) : Act → Bool
  | .steal v => v == w
  | .step v => v == w && (s.worker w).pops && s.submit w != []
  | _ => false

/-- How often the worker `w` finds work. -/
def finds (K : Config) (w : ℕ) : State → List Act → ℕ
  | _, [] => 0
  | s, a :: as => (s.finds w a).toNat +
      match (machine K).step s a with
      | some s' => finds K w s' as
      | none => 0

/-- The accesses that are left once domain `j` has been seen to. -/
theorem toGo_afterDomain (j : ℕ) : (afterDomain K j).toGo K.numNuma < 3 * (K.numNuma - j) + 14 := by
  unfold afterDomain
  split_ifs with hj
  · simp only [Pc.toGo]
    omega
  · simp only [Pc.toGo]
    omega

/-! ## One access -/

/-- One access of the worker: to where it finds work, or nearer to the end. -/
def Nearer (K : Config) (found : Bool) (pc pc' : Pc) : Prop :=
  if found then pc'.toGo K.numNuma ≤ 3 * K.numNuma + 21
  else pc'.toGo K.numNuma < pc.toGo K.numNuma

/-- Without work, an access of the worker takes it nearer to its end, unless it blocks. -/
theorem go_of_workerStep (hstop : s.stop = true) (h : workerStep K s w = some s')
    (hblocked : (s'.worker w).isBlocked = false) :
    Nearer K (s.finds w (.step w)) (s.worker w) (s'.worker w) := by
  have hfind : s.finds w (.step w) = ((s.worker w).pops && s.submit w != []) := by
    simp [State.finds]
  have hdomain := fun j => toGo_afterDomain (K := K) j
  rw [hfind]
  unfold workerStep at h
  dsimp only at h
  split at h
  case h_2 hpc =>
    split_ifs at h with hq
    · cases h
      simp [Nearer, hpc, hq, Pc.pops, Pc.toGo]
    · cases h
      simp [Nearer, hpc, hq, Pc.pops, Pc.toGo]
  case h_5 hpc =>
    split_ifs at h with hq
    · cases h
      simp [Nearer, hpc, hq, Pc.pops, Pc.toGo]
    · cases h
      simp [Nearer, hpc, hq, Pc.pops, Pc.toGo]
  case h_7 hpc =>
    cases h
    simp [Nearer, hpc, hstop, Pc.pops, Pc.toGo]
  case h_16 key since hpc =>
    cases h
    rw [goto_self] at hblocked ⊢
    split_ifs at hblocked ⊢
    · cases hblocked
    · simp [Nearer, hpc, Pc.pops, Pc.toGo]
  case h_25 => cases h
  case h_26 => cases h
  case h_27 => cases h
  case h_28 => cases h
  all_goals
    rename_i hpc
    cases h
    rw [goto_self, hpc]
    simp only [Pc.pops, Bool.false_and, Nearer, Bool.false_eq_true, if_false]
    first
    | simp only [Pc.toGo]; omega
    | split_ifs <;> first
      | simp only [Pc.toGo]; omega
      | exact (hdomain _).trans_le (by simp only [Pc.toGo]; omega)

/-- Any access of the worker. -/
theorem go_of_step (h : (machine K).step s a = some s') (ha : a.isOf w = true)
    (hstop : s.stop = true) (hblocked : (s'.worker w).isBlocked = false) :
    Nearer K (s.finds w a) (s.worker w) (s'.worker w) := by
  cases a with
  | step v =>
    obtain rfl := eq_of_beq ha
    change (if _ then _ else _) = _ at h
    split_ifs at h
    exact go_of_workerStep hstop h hblocked
  | steal v =>
    obtain rfl := eq_of_beq ha
    change (if _ then _ else _) = _ at h
    split_ifs at h
    cases h
    simp [Nearer, State.finds, Pc.toGo]
  | wakeOne v u =>
    obtain rfl := eq_of_beq ha
    change (if _ then _ else _) = _ at h
    split_ifs at h
    unfold wakeOneStep at h
    split at h
    · next k hpc =>
      obtain ⟨u', -, rfl⟩ := Option.map_eq_some_iff.mp h
      simp [Nearer, State.finds, hpc, Pc.toGo]
    · next j k hpc =>
      obtain ⟨u', -, rfl⟩ := Option.map_eq_some_iff.mp h
      rw [goto_self, hpc]
      exact toGo_afterDomain j
    · cases h
  | spurious | schedule | call | destroy | destroying => cases ha

/-- The accesses of another worker. -/
theorem workerStep_other {v : ℕ} (h : workerStep K s v = some s') (hv : w ≠ v)
    (hb : (s.worker w).isBlocked = false) : s'.worker w = s.worker w := by
  unfold workerStep at h
  dsimp only at h
  split at h
  case h_2 | h_5 =>
    split_ifs at h
    · cases h
      exact goto_other _ _ hv
    · cases h
      exact goto_other _ _ hv
  case h_10 =>
    cases h
    exact (goto_other _ _ hv).trans (wakeAll_worker hb)
  case h_25 | h_26 | h_27 | h_28 => cases h
  all_goals
    cases h
    exact goto_other _ _ hv

/-- What the others do leaves a worker where it is, unless it is blocked. -/
theorem other_of_step (h : (machine K).step s a = some s') (ha : a.isOf w = false)
    (hb : (s.worker w).isBlocked = false) : s'.worker w = s.worker w := by
  have hne : ∀ {v}, (v == w) = false → w ≠ v := fun hv heq => by simp [heq] at hv
  cases a with
  | step v =>
    change (if _ then _ else _) = _ at h
    split_ifs at h
    exact workerStep_other h (hne ha) hb
  | steal v =>
    change (if _ then _ else _) = _ at h
    split_ifs at h
    cases h
    exact goto_other _ _ (hne ha)
  | wakeOne v u =>
    change (if _ then _ else _) = _ at h
    split_ifs at h
    have hwake : ∀ {j k u'}, wakeOne K s j k u = some u' → u'.worker w = s.worker w := by
      intro j k u' hu
      obtain ⟨x, -, -, -, he, rfl⟩ | ⟨-, rfl⟩ := wakeOne_cases hu
      · exact unblock_worker hb he
      · rfl
    unfold wakeOneStep at h
    split at h
    · obtain ⟨u', hu, rfl⟩ := Option.map_eq_some_iff.mp h
      exact (goto_other _ _ (hne ha)).trans (hwake hu)
    · obtain ⟨u', hu, rfl⟩ := Option.map_eq_some_iff.mp h
      exact (goto_other _ _ (hne ha)).trans (hwake hu)
    · cases h
  | spurious v =>
    change (if _ then _ else _) = _ at h
    split_ifs at h with hv
    cases h
    refine goto_other _ _ ?_
    rintro rfl
    rw [hb] at hv
    cases hv.2
  | schedule c v x =>
    change (if _ then _ else _) = _ at h
    split_ifs at h
    cases h
    rfl
  | call c =>
    change callerStep K s c = _ at h
    unfold callerStep at h
    split at h
    · cases h
    · cases h
      rfl
    · cases h
      exact wakeAll_worker hb
  | destroy =>
    change (if _ then _ else _) = _ at h
    split_ifs at h
    cases h
    rfl
  | destroying =>
    change destroyerStep K s = _ at h
    unfold destroyerStep at h
    split at h
    · cases h
    · cases h
    · cases h
      rfl
    · cases h
      exact wakeAll_worker hb

/-! ## The destructor joins its threads -/

/-- The destructor has notified every domain, and joins the threads. -/
structure Joining (K : Config) (s : State) : Prop where
  woken : Woken K s
  joining : s.destroyer = .joining
  stop : s.stop = true

/-- The destructor sets `stop` first. -/
theorem stop_of_moves (h : Moves K s a s') (hs : s.destroyer ≠ .running → s.stop = true)
    (hd : s'.destroyer ≠ .running) : s'.stop = true := by
  cases h with
  | destroy => rfl
  | destroyNotify hd' => exact hs (by rw [hd']; nofun)
  | destroyWake hd' => exact hs (by rw [hd']; nofun)
  | stopSet => rfl
  | _ => exact hs hd

/-- Once the destructor joins its threads it does nothing else. -/
theorem joining_of_moves (h : Moves K s a s') (hs : s.destroyer = .joining) :
    s'.destroyer = .joining := by
  cases h with
  | destroy hd => rw [hs] at hd; cases hd
  | destroyNotify hd => rw [hs] at hd; cases hd
  | destroyWake hd => rw [hs] at hd; cases hd
  | _ => exact hs

/-- What holds while the destructor joins its threads is kept by every step. -/
theorem Joining.step (h : Joining K s) (hsmall : K.Small) (hok : Bounds K s a)
    (hstep : (machine K).step s a = some s') : Joining K s' := by
  have hm := moves_of_step hok hstep
  exact ⟨woken_step hsmall h.woken hok hstep, joining_of_moves hm h.joining, hm.stop_mono h.stop⟩

/-- Then no worker is blocked. -/
theorem Joining.awake (h : Joining K s) (hw : w < K.numThreads) :
    (s.worker w).isBlocked = false := by
  cases hpc : s.worker w with
  | blocked key since seen =>
    have htold := h.woken.stopped w hw h.stop
    rw [hpc, h.joining] at htold
    obtain hahead | ⟨k, hk, -⟩ := htold
    · exact hahead.elim
    · cases hk
  | _ => rfl

/-- A worker that is not over can go on. -/
theorem exists_step (hw : w < K.numThreads) (hb : (s.worker w).isBlocked = false)
    (hpc : s.worker w ≠ .exited) :
    ∃ a s', a.isOf w = true ∧ (machine K).step s a = some s' := by
  have hwake : ∀ j k, ∃ u s', wakeOne K s j k u = some s' := by
    intro j k
    by_cases he : ∃ u < K.numThreads, K.node u = j ∧ (s.worker u).eligible k = true
    · obtain ⟨u, hu⟩ := he
      exact ⟨some u, _, if_pos hu⟩
    · exact ⟨none, _, if_neg he⟩
  have hown : (∃ s', workerStep K s w = some s') →
      ∃ a s', a.isOf w = true ∧ (machine K).step s a = some s' := fun ⟨s', hs'⟩ =>
    ⟨.step w, s', beq_self_eq_true w, (if_pos hw).trans hs'⟩
  cases hpc' : s.worker w with
  | exited => exact absurd hpc' hpc
  | blocked => rw [hpc'] at hb; cases hb
  | lastWake k =>
    obtain ⟨u, s', hu⟩ := hwake (K.node w) k
    refine ⟨.wakeOne w u, s'.goto w .activate, beq_self_eq_true w, (if_pos hw).trans ?_⟩
    simp only [wakeOneStep, hpc', hu, Option.map_some]
  | loopWake j k =>
    obtain ⟨u, s', hu⟩ := hwake j k
    refine ⟨.wakeOne w u, s'.goto w (afterDomain K j), beq_self_eq_true w,
      (if_pos hw).trans ?_⟩
    simp only [wakeOneStep, hpc', hu, Option.map_some]
  | tryPop =>
    refine hown ?_
    simp only [workerStep, hpc']
    split_ifs <;> exact ⟨_, rfl⟩
  | popAgain =>
    refine hown ?_
    simp only [workerStep, hpc']
    split_ifs <;> exact ⟨_, rfl⟩
  | _ =>
    refine hown ?_
    simp only [workerStep, hpc']
    exact ⟨_, rfl⟩

/-- What a worker has before it, and what it has behind it. -/
theorem Joining.count (hs : Joining K s) (hsmall : K.Small) (hw : w < K.numThreads)
    {bs : List Act} (h : (machine K).Run (Bounds K) s bs t) :
    bs.countP (·.isOf w) + (t.worker w).toGo K.numNuma ≤
      (s.worker w).toGo K.numNuma + finds K w s bs * (3 * K.numNuma + 22) := by
  induction bs generalizing s with
  | nil =>
    cases h
    simp [finds]
  | cons a bs ih =>
    obtain ⟨hok, s', hstep, h⟩ := h
    have hs' := hs.step hsmall hok hstep
    have hrest := ih hs' h
    have hfinds : finds K w s (a :: bs) = (s.finds w a).toNat + finds K w s' bs := by
      rw [finds, hstep]
    rw [hfinds, Nat.add_mul, List.countP_cons]
    cases ha : a.isOf w with
    | false =>
      have hnone : s.finds w a = false := by
        cases a with
        | step v => simpa [State.finds] using fun hv => absurd hv (by simpa [Act.isOf] using ha)
        | steal v => exact ha
        | _ => rfl
      rw [other_of_step hstep ha (hs.awake hw)] at hrest
      rw [hnone]
      simpa using hrest
    | true =>
      have hnear := go_of_step hstep ha hs.stop (hs'.awake hw)
      unfold Nearer at hnear
      split_ifs at hnear with hfound
      · rw [hfound]
        simp only [if_true, Bool.toNat_true]
        omega
      · rw [Bool.not_eq_true] at hfound
        rw [hfound]
        simp only [if_true, Bool.toNat_false]
        omega

/-- A worker with no access left is over. -/
theorem eq_exited {pc : Pc} {n : ℕ} (h : pc.toGo n = 0) : pc = .exited := by
  cases pc with
  | exited => rfl
  | _ => simp [Pc.toGo] at h

/-- **The destructor gets its workers back.** In every run of a pool no domain of which has
`2 ^ 32` workers, with fewer than `2 ^ 32` notifications between a `prepare_wait` and each
comparison of its `wait`: once the destructor joins the threads, no worker is blocked, a worker that
is not over can go on, and it is over when it has gone on for as long as `toGo` says, however often
it still found work in between and whatever the others do. -/
theorem stops_of_run (hsmall : K.Small) {as : List Act}
    (hrun : (machine K).Run (Bounds K) .init as s) (hjoin : s.destroyer = .joining)
    (hw : w < K.numThreads) :
    (s.worker w).isBlocked = false ∧
    (s.worker w ≠ .exited → ∃ a s', a.isOf w = true ∧ (machine K).step s a = some s') ∧
    ∀ bs t, (machine K).Run (Bounds K) s bs t →
      (s.worker w).toGo K.numNuma + finds K w s bs * (3 * K.numNuma + 22) ≤
        bs.countP (·.isOf w) → t.worker w = .exited := by
  have hwoken : Woken K s := hrun.invariant (fun s a s' => woken_step hsmall) woken_init
  have hstop : s.destroyer ≠ .running → s.stop = true :=
    hrun.invariant (fun _ _ _ hs hok hstep hd => stop_of_moves (moves_of_step hok hstep) hs hd)
      fun hd => absurd rfl hd
  have hs : Joining K s := ⟨hwoken, hjoin, hstop (by rw [hjoin]; nofun)⟩
  refine ⟨hs.awake hw, exists_step hw (hs.awake hw), fun bs t h hle => ?_⟩
  have hcount := hs.count hsmall hw h
  have hzero : (t.worker w).toGo K.numNuma = 0 := by omega
  exact eq_exited hzero

/-- Two workers that are asleep when the destructor is called; the first one is over after
thirteen accesses, while the second one has not gone on at all. -/
theorem stops_of_run_two : ∃ s t, (machine (onePool 2)).Run (Bounds (onePool 2)) .init
    (List.replicate 9 (.step 0) ++ List.replicate 9 (.step 1) ++
      [.destroy, .destroying, .destroying]) s ∧
    (machine (onePool 2)).Run (Bounds (onePool 2)) s (List.replicate 13 (.step 0)) t ∧
    t.worker 0 = .exited := by
  have hexec : ((machine (onePool 2)).exec (Bounds (onePool 2)) .init
      (List.replicate 9 (.step 0) ++ List.replicate 9 (.step 1) ++
        [.destroy, .destroying, .destroying])).map
      (fun s => (s.destroyer, s.worker 0, finds (onePool 2) 0 s (List.replicate 13 (.step 0)),
        ((machine (onePool 2)).exec (Bounds (onePool 2)) s
          (List.replicate 13 (.step 0))).isSome)) =
      some (.joining, .check 0 0, 0, true) := by decide +kernel
  obtain ⟨s, hs, heq⟩ := Option.map_eq_some_iff.mp hexec
  simp only [Prod.mk.injEq] at heq
  obtain ⟨hjoin, hpc, hfinds, hsome⟩ := heq
  obtain ⟨t, ht⟩ := Option.isSome_iff_exists.mp hsome
  have hrun := Machine.run_iff_exec.mpr hs
  have hrest := Machine.run_iff_exec.mpr ht
  refine ⟨s, t, hrun, hrest, ?_⟩
  refine (stops_of_run (small_of_lt (by decide)) hrun hjoin (by decide)).2.2 _ t hrest ?_
  rw [hpc, hfinds]
  decide

end Libfork.Lazy
