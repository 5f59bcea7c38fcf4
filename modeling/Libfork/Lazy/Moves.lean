import Libfork.Lazy.Model

/-!
# What a step of the pool can do

* `Quiet`, `Subs`, `Leaves`, `Notifies`, `Wakes` — the next place of a worker, by what its access
  does to the shared state.
* `Moves` — what a step can do.
* **`moves_of_step`** — every step is one of the moves.
* `Goes`, `goes_of_moves` — what a step does to one worker.

Source: `lazy_pool.hpp`; `event_count.hpp`; `context.hpp`.
-/

namespace Libfork.Lazy

open Libfork.Found Libfork.EventCount

/-- Where `w` goes by an access that changes nothing else. -/
inductive Quiet (K : Config) (s : State) (w : ℕ) : Pc → Prop
  | popNone (hpc : s.worker w = .tryPop) (hq : s.submit w = []) : Quiet K s w .trySteal
  | stealNone (hpc : s.worker w = .trySteal) : Quiet K s w .prepare
  | steal (hpc : s.worker w = .trySteal) : Quiet K s w .workSub
  | popAgain {key since} (hpc : s.worker w = .popAgain key since) (hq : s.submit w = []) :
      Quiet K s w (.testStop key since)
  | stopping {key since} (hpc : s.worker w = .testStop key since) (hs : s.stop = true) :
      Quiet K s w .stopCancel
  | going {key since} (hpc : s.worker w = .testStop key since) (hs : s.stop = false) :
      Quiet K s w (.sleep key since)
  | busy {key since} (hpc : s.worker w = .loadActive key since) (ha : 0 < s.active) :
      Quiet K s w .sleepCancel
  | calm {key since} (hpc : s.worker w = .loadActive key since) (ha : s.active = 0) :
      Quiet K s w (.check key since)
  | block {key since} (hpc : s.worker w = .check key since)
      (hepoch : epoch (s.mVal (K.node w)) = key)
      (hbound : s.notified (K.node w) - since < 2 ^ 32) :
      Quiet K s w (.blocked key since (s.notified (K.node w)))
  | missed {key since} (hpc : s.worker w = .check key since)
      (hepoch : epoch (s.mVal (K.node w)) ≠ key) : Quiet K s w .leave
  | found {j} (hpc : s.worker w = .loop j) (ht : s.thief j = 0) : Quiet K s w (.loopNotify j)
  | skip {j} (hpc : s.worker w = .loop j) (ht : s.thief j ≠ 0) : Quiet K s w (afterDomain K j)
  | lastNobody {k} (hpc : s.worker w = .lastWake k)
      (hnone : ∀ u < K.numThreads, K.node u = K.node w → (s.worker u).eligible k = false) :
      Quiet K s w .activate
  | loopNobody {j k} (hpc : s.worker w = .loopWake j k)
      (hnone : ∀ u < K.numThreads, K.node u = j → (s.worker u).eligible k = false) :
      Quiet K s w (afterDomain K j)
  | resumed (hpc : s.worker w = .resume) : Quiet K s w .deactivate

/-- Where `w` goes by `thief.fetch_sub(1)`. -/
inductive Subs (K : Config) (s : State) (w : ℕ) : Pc → Prop
  | sleepLast {key since} (hpc : s.worker w = .sleep key since) (ht : s.thief (K.node w) = 1) :
      Subs K s w (.loadActive key since)
  | sleep {key since} (hpc : s.worker w = .sleep key since) (ht : s.thief (K.node w) ≠ 1) :
      Subs K s w (.check key since)
  | workLast (hpc : s.worker w = .workSub) (ht : s.thief (K.node w) = 1) : Subs K s w .lastNotify
  | work (hpc : s.worker w = .workSub) (ht : s.thief (K.node w) ≠ 1) : Subs K s w .activate
  | stop (hpc : s.worker w = .stopSub) : Subs K s w .stopSet

/-- Where `w` goes by `m_val.fetch_add(k_sub_waiter)`. -/
inductive Leaves (s : State) (w : ℕ) : Pc → Prop
  | pop (hpc : s.worker w = .popCancel) : Leaves s w .workSub
  | stop (hpc : s.worker w = .stopCancel) : Leaves s w .stopNotify
  | sleep (hpc : s.worker w = .sleepCancel) : Leaves s w .wakeUp
  | wait (hpc : s.worker w = .leave) : Leaves s w .wakeUp

/-- Where `w` goes by `m_val.fetch_add(k_add_epoch)` in domain `j`. -/
inductive Notifies (K : Config) (s : State) (w : ℕ) : ℕ → Pc → Prop
  | stopWake (hpc : s.worker w = .stopNotify) (hw : hasWaiters (s.mVal (K.node w)) = true) :
      Notifies K s w (K.node w) (.stopWake (s.notified (K.node w)))
  | stopNone (hpc : s.worker w = .stopNotify) (hw : hasWaiters (s.mVal (K.node w)) = false) :
      Notifies K s w (K.node w) .stopSub
  | lastWake (hpc : s.worker w = .lastNotify) (hw : hasWaiters (s.mVal (K.node w)) = true) :
      Notifies K s w (K.node w) (.lastWake (s.notified (K.node w)))
  | lastNone (hpc : s.worker w = .lastNotify) (hw : hasWaiters (s.mVal (K.node w)) = false) :
      Notifies K s w (K.node w) .activate
  | loopWake {j} (hpc : s.worker w = .loopNotify j) (hw : hasWaiters (s.mVal j) = true) :
      Notifies K s w j (.loopWake j (s.notified j))
  | loopNone {j} (hpc : s.worker w = .loopNotify j) (hw : hasWaiters (s.mVal j) = false) :
      Notifies K s w j (afterDomain K j)

/-- Where `w` goes by a `notify_one` on the epoch of domain `j`, after `k` notifications. -/
inductive Wakes (K : Config) (s : State) (w : ℕ) : ℕ → ℕ → Pc → Prop
  | last {k} (hpc : s.worker w = .lastWake k) : Wakes K s w (K.node w) k .activate
  | loop {j k} (hpc : s.worker w = .loopWake j k) : Wakes K s w j k (afterDomain K j)

/-- What a step can do. -/
inductive Moves (K : Config) (s : State) : Act → State → Prop
  | quiet {a w pc} (hw : w < K.numThreads) (h : Quiet K s w pc) : Moves K s a (s.goto w pc)
  | wakeUp {w} (hw : w < K.numThreads) (hpc : s.worker w = .wakeUp) :
      Moves K s (.step w) ((s.setThief (K.node w) (s.thief (K.node w) + 1)).goto w .tryPop)
  | sub {w pc} (hw : w < K.numThreads) (h : Subs K s w pc) :
      Moves K s (.step w) ((s.setThief (K.node w) (s.thief (K.node w) - 1)).goto w pc)
  | pop {w} (hw : w < K.numThreads) (hpc : s.worker w = .tryPop) :
      Moves K s (.step w) ((s.popAll w).goto w .workSub)
  | popAgain {w key since} (hw : w < K.numThreads) (hpc : s.worker w = .popAgain key since) :
      Moves K s (.step w) ((s.popAll w).goto w .popCancel)
  | prepare {w} (hw : w < K.numThreads) (hpc : s.worker w = .prepare) :
      Moves K s (.step w) ((s.fetchAdd (K.node w) kAddWaiter).goto w
        (.popAgain (epoch (s.mVal (K.node w))) (s.notified (K.node w))))
  | leave {w pc} (hw : w < K.numThreads) (h : Leaves s w pc) :
      Moves K s (.step w) ((s.fetchAdd (K.node w) kSubWaiter).goto w pc)
  | notify {w j pc} (hw : w < K.numThreads) (h : Notifies K s w j pc) :
      Moves K s (.step w) ((s.notify j).goto w pc)
  | stopWake {w k} (hw : w < K.numThreads) (hpc : s.worker w = .stopWake k) :
      Moves K s (.step w) ((wakeAll K s (K.node w) k).goto w .stopSub)
  | stopSet {w} (hw : w < K.numThreads) (hpc : s.worker w = .stopSet) :
      Moves K s (.step w) (s.setStop.goto w .exited)
  | activateFirst {w} (hw : w < K.numThreads) (hpc : s.worker w = .activate)
      (ha : s.active = 0) : Moves K s (.step w) ((s.setActive (s.active + 1)).goto w (.loop 0))
  | activate {w} (hw : w < K.numThreads) (hpc : s.worker w = .activate) (ha : s.active ≠ 0) :
      Moves K s (.step w) ((s.setActive (s.active + 1)).goto w .resume)
  | deactivate {w} (hw : w < K.numThreads) (hpc : s.worker w = .deactivate) :
      Moves K s (.step w) ((s.setActive (s.active - 1)).goto w .wakeUp)
  | wakeOne {w u j k pc} (hw : w < K.numThreads) (h : Wakes K s w j k pc)
      (hu : u < K.numThreads) (hnode : K.node u = j) (he : (s.worker u).eligible k = true) :
      Moves K s (.wakeOne w (some u)) ((unblock s u).goto w pc)
  | spurious {w} (hw : w < K.numThreads) (hb : (s.worker w).isBlocked = true) :
      Moves K s (.spurious w) (unblock s w)
  | schedule {c w h} (hw : w < K.numThreads) (hc : s.caller c = .idle) :
      Moves K s (.schedule c w h)
        ({ s with submit := Function.update s.submit w (h :: s.submit w) }.setCaller c (.notify w))
  | callNotify {c w} (hc : s.caller c = .notify w) :
      Moves K s (.call c) ((s.notify (K.node w)).setCaller c
        (if hasWaiters (s.mVal (K.node w)) then .wake w (s.notified (K.node w)) else .idle))
  | callWake {c w k} (hc : s.caller c = .wake w k) :
      Moves K s (.call c) ((wakeAll K s (K.node w) k).setCaller c .idle)
  | destroy (hd : s.destroyer = .running) :
      Moves K s .destroy (s.setStop.setDestroyer (nextDomain K 0))
  | destroyNotify {j} (hd : s.destroyer = .notify j) :
      Moves K s .destroying ((s.notify j).setDestroyer
        (if hasWaiters (s.mVal j) then .wake j (s.notified j) else nextDomain K (j + 1)))
  | destroyWake {j k} (hd : s.destroyer = .wake j k) :
      Moves K s .destroying ((wakeAll K s j k).setDestroyer (nextDomain K (j + 1)))

variable {K : Config} {s s' : State} {a : Act} {w : ℕ}

/-- Every access of a worker that goes on by itself is one of the moves. -/
theorem moves_of_workerStep (hw : w < K.numThreads)
    (hok : (s.worker w).InBounds (s.notified (K.node w))) (h : workerStep K s w = some s') :
    Moves K s (.step w) s' := by
  unfold workerStep at h
  dsimp only at h
  split at h
  · next hpc => cases h; exact .wakeUp hw hpc
  · next hpc =>
    split_ifs at h with hq
    · cases h; exact .quiet hw (.popNone hpc hq)
    · cases h; exact .pop hw hpc
  · next hpc => cases h; exact .quiet hw (.stealNone hpc)
  · next hpc => cases h; exact .prepare hw hpc
  · next hpc =>
    split_ifs at h with hq
    · cases h; exact .quiet hw (.popAgain hpc hq)
    · cases h; exact .popAgain hw hpc
  · next hpc => cases h; exact .leave hw (.pop hpc)
  · next hpc =>
    cases h
    split_ifs with hs
    · exact .quiet hw (.stopping hpc hs)
    · exact .quiet hw (.going hpc (by simpa using hs))
  · next hpc => cases h; exact .leave hw (.stop hpc)
  · next hpc =>
    cases h
    split_ifs with hwait
    · exact .notify hw (.stopWake hpc hwait)
    · exact .notify hw (.stopNone hpc (by simpa using hwait))
  · next hpc => cases h; exact .stopWake hw hpc
  · next hpc => cases h; exact .sub hw (.stop hpc)
  · next hpc => cases h; exact .stopSet hw hpc
  · next hpc =>
    cases h
    split_ifs with ht
    · exact .sub hw (.sleepLast hpc ht)
    · exact .sub hw (.sleep hpc ht)
  · next hpc =>
    cases h
    split_ifs with ha
    · exact .quiet hw (.busy hpc ha)
    · exact .quiet hw (.calm hpc (by omega))
  · next hpc => cases h; exact .leave hw (.sleep hpc)
  · next hpc =>
    rw [hpc] at hok
    cases h
    split_ifs with he
    · exact .quiet hw (.block hpc he hok)
    · exact .quiet hw (.missed hpc he)
  · next hpc => cases h; exact .leave hw (.wait hpc)
  · next hpc =>
    cases h
    split_ifs with ht
    · exact .sub hw (.workLast hpc ht)
    · exact .sub hw (.work hpc ht)
  · next hpc =>
    cases h
    split_ifs with hwait
    · exact .notify hw (.lastWake hpc hwait)
    · exact .notify hw (.lastNone hpc (by simpa using hwait))
  · next hpc =>
    cases h
    split_ifs with ha
    · exact .activateFirst hw hpc ha
    · exact .activate hw hpc ha
  · next hpc =>
    cases h
    split_ifs with ht
    · exact .quiet hw (.found hpc ht)
    · exact .quiet hw (.skip hpc ht)
  · next hpc =>
    cases h
    split_ifs with hwait
    · exact .notify hw (.loopWake hpc hwait)
    · exact .notify hw (.loopNone hpc (by simpa using hwait))
  · next hpc => cases h; exact .quiet hw (.resumed hpc)
  · next hpc => cases h; exact .deactivate hw hpc
  all_goals cases h

/-- A `notify_one` unblocks a worker of the domain that can be unblocked, or there is none. -/
theorem wakeOne_cases {j k : ℕ} {u : Option ℕ} (h : wakeOne K s j k u = some s') :
    (∃ v, u = some v ∧ v < K.numThreads ∧ K.node v = j ∧ (s.worker v).eligible k = true ∧
      s' = unblock s v) ∨
    (∀ v < K.numThreads, K.node v = j → (s.worker v).eligible k = false) ∧ s' = s := by
  cases u with
  | some v =>
    simp only [wakeOne] at h
    split_ifs at h with hv
    cases h
    exact Or.inl ⟨v, rfl, hv.1, hv.2.1, hv.2.2, rfl⟩
  | none =>
    simp only [wakeOne] at h
    split_ifs at h with hv
    cases h
    refine Or.inr ⟨fun v hlt hnode => ?_, rfl⟩
    by_contra he
    exact hv ⟨v, hlt, hnode, by simpa using he⟩

/-- **Every step is one of the moves.** -/
theorem moves_of_step (hok : Bounds K s a) (h : (machine K).step s a = some s') :
    Moves K s a s' := by
  cases a with
  | step w =>
    change (if _ then _ else _) = _ at h
    split_ifs at h with hw
    exact moves_of_workerStep hw hok h
  | steal w =>
    change (if _ then _ else _) = _ at h
    split_ifs at h with hw
    cases h
    exact .quiet hw.1 (.steal hw.2)
  | wakeOne w u =>
    change (if _ then _ else _) = _ at h
    split_ifs at h with hw
    unfold wakeOneStep at h
    split at h
    · next k hpc =>
      obtain ⟨t, ht, rfl⟩ := Option.map_eq_some_iff.mp h
      obtain ⟨v, rfl, hv, hnode, he, rfl⟩ | ⟨hnone, rfl⟩ := wakeOne_cases ht
      · exact .wakeOne hw (.last hpc) hv hnode he
      · exact .quiet hw (.lastNobody hpc hnone)
    · next j k hpc =>
      obtain ⟨t, ht, rfl⟩ := Option.map_eq_some_iff.mp h
      obtain ⟨v, rfl, hv, hnode, he, rfl⟩ | ⟨hnone, rfl⟩ := wakeOne_cases ht
      · exact .wakeOne hw (.loop hpc) hv hnode he
      · exact .quiet hw (.loopNobody hpc hnone)
    · cases h
  | spurious w =>
    change (if _ then _ else _) = _ at h
    split_ifs at h with hw
    cases h
    exact .spurious hw.1 hw.2
  | schedule c w x =>
    change (if _ then _ else _) = _ at h
    split_ifs at h with hw
    cases h
    exact .schedule hw.1 hw.2
  | call c =>
    change callerStep K s c = _ at h
    unfold callerStep at h
    split at h
    · cases h
    · next hc => cases h; exact .callNotify hc
    · next hc => cases h; exact .callWake hc
  | destroy =>
    change (if _ then _ else _) = _ at h
    split_ifs at h with hd
    cases h
    exact .destroy hd
  | destroying =>
    change destroyerStep K s = _ at h
    unfold destroyerStep at h
    split at h
    · cases h
    · cases h
    · next hd => cases h; exact .destroyNotify hd
    · next hd => cases h; exact .destroyWake hd

/-! ## What a step does to one worker -/

/-- Where a worker goes by an access of its own. -/
inductive Own (K : Config) (s : State) (w : ℕ) : Pc → Prop
  | quiet {pc} (h : Quiet K s w pc) : Own K s w pc
  | wakeUp (hpc : s.worker w = .wakeUp) : Own K s w .tryPop
  | sub {pc} (h : Subs K s w pc) : Own K s w pc
  | pop (hpc : s.worker w = .tryPop) : Own K s w .workSub
  | popAgain {key since} (hpc : s.worker w = .popAgain key since) : Own K s w .popCancel
  | prepare (hpc : s.worker w = .prepare) :
      Own K s w (.popAgain (epoch (s.mVal (K.node w))) (s.notified (K.node w)))
  | leave {pc} (h : Leaves s w pc) : Own K s w pc
  | notify {j pc} (h : Notifies K s w j pc) : Own K s w pc
  | stopWake {k} (hpc : s.worker w = .stopWake k) : Own K s w .stopSub
  | stopSet (hpc : s.worker w = .stopSet) : Own K s w .exited
  | activateFirst (hpc : s.worker w = .activate) (ha : s.active = 0) : Own K s w (.loop 0)
  | activate (hpc : s.worker w = .activate) (ha : s.active ≠ 0) : Own K s w .resume
  | deactivate (hpc : s.worker w = .deactivate) : Own K s w .wakeUp
  | wakes {j k pc} (h : Wakes K s w j k pc) : Own K s w pc

/-- The worker that goes on. -/
@[simp] theorem goto_self (s : State) (w : ℕ) (pc : Pc) : (s.goto w pc).worker w = pc :=
  Function.update_self ..

/-- The other workers stay where they are. -/
theorem goto_other (s : State) {w u : ℕ} (pc : Pc) (hu : u ≠ w) :
    (s.goto w pc).worker u = s.worker u := Function.update_of_ne hu ..

/-- A worker stays where it is, or is unblocked, or goes on by itself. -/
def Goes (K : Config) (s s' : State) (u : ℕ) : Prop :=
  s'.worker u = s.worker u ∨ s'.worker u = (s.worker u).unblocked ∨ Own K s u (s'.worker u)

/-- One worker goes on by itself. -/
theorem goes_goto {pc : Pc} (h : Own K s w pc) (hworker : s'.worker = (s.goto w pc).worker)
    (u : ℕ) : Goes K s s' u := by
  rw [Goes, hworker]
  obtain rfl | hu := eq_or_ne u w
  · rw [goto_self]
    exact Or.inr (Or.inr h)
  · exact Or.inl (goto_other s pc hu)

/-- The epoch of a domain is notified. -/
theorem goes_wakeAll {i k : ℕ} (hworker : s'.worker = (wakeAll K s i k).worker) (u : ℕ) :
    Goes K s s' u := by
  rw [Goes, hworker]
  change (if _ then _ else _ : Pc) = _ ∨ (if _ then _ else _ : Pc) = _ ∨ _
  split
  · exact Or.inr (Or.inl rfl)
  · exact Or.inl rfl

/-- **What a step does to one worker.** -/
theorem goes_of_moves (h : Moves K s a s') (u : ℕ) : Goes K s s' u := by
  cases h with
  | quiet _ hq => exact goes_goto (.quiet hq) rfl u
  | wakeUp _ hpc => exact goes_goto (.wakeUp hpc) rfl u
  | sub _ hsub => exact goes_goto (.sub hsub) rfl u
  | pop _ hpc => exact goes_goto (.pop hpc) rfl u
  | popAgain _ hpc => exact goes_goto (.popAgain hpc) rfl u
  | prepare _ hpc => exact goes_goto (.prepare hpc) rfl u
  | leave _ hl => exact goes_goto (.leave hl) rfl u
  | notify _ hn => exact goes_goto (.notify hn) rfl u
  | stopSet _ hpc => exact goes_goto (.stopSet hpc) rfl u
  | activateFirst _ hpc ha => exact goes_goto (.activateFirst hpc ha) rfl u
  | activate _ hpc ha => exact goes_goto (.activate hpc ha) rfl u
  | deactivate _ hpc => exact goes_goto (.deactivate hpc) rfl u
  | @stopWake w k _ hpc =>
    obtain rfl | hu := eq_or_ne u w
    · exact Or.inr (Or.inr ((goto_self (wakeAll K s _ k) u _).symm ▸ .stopWake hpc))
    · rw [Goes, goto_other _ _ hu]
      exact goes_wakeAll rfl u
  | @wakeOne w v _ _ _ _ hwake _ _ _ =>
    obtain rfl | hu := eq_or_ne u w
    · exact Or.inr (Or.inr ((goto_self (unblock s v) u _).symm ▸ .wakes hwake))
    · rw [Goes, goto_other _ _ hu, unblock]
      obtain rfl | hv := eq_or_ne u v
      · exact Or.inr (Or.inl (goto_self ..))
      · exact Or.inl (goto_other _ _ hv)
  | @spurious w _ _ =>
    rw [Goes, unblock]
    obtain rfl | hu := eq_or_ne u w
    · exact Or.inr (Or.inl (goto_self ..))
    · exact Or.inl (goto_other _ _ hu)
  | schedule | callNotify | destroy | destroyNotify => exact Or.inl rfl
  | callWake | destroyWake => exact goes_wakeAll rfl u

/-! ## Nobody forgets a notification -/

/-- A notification only adds to the counts. -/
theorem notified_le (s : State) (j i : ℕ) : s.notified i ≤ (s.notify j).notified i := by
  change _ ≤ Function.update s.notified _ _ i
  obtain rfl | hi := eq_or_ne i j
  · rw [Function.update_self]
    exact Nat.le_succ _
  · rw [Function.update_of_ne hi]

/-- The counts of notifications only grow. -/
theorem Moves.notified_le (h : Moves K s a s') (i : ℕ) : s.notified i ≤ s'.notified i := by
  cases h with
  | notify | callNotify | destroyNotify => exact Lazy.notified_le s _ i
  | _ => exact Nat.le_refl _

end Libfork.Lazy
