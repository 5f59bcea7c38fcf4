import Libfork.Lazy.Moves

/-!
# What the counters count

* `Pc.isThief`, `Pc.waits`, `Pc.isActive` — the workers that `thief`, the lower half of the event
  count, and `active` count.
* **`counts_step`** — every step keeps the counters right, as long as no domain has `2 ^ 32`
  workers.

Source: `lazy_pool.hpp`; `event_count.hpp`, `m_val`.
-/

namespace Libfork.Lazy

open Libfork.Found Libfork.EventCount

/-! ## Who is counted -/

/-- The worker is counted in `thief`. -/
def Pc.isThief : Pc → Bool
  | .tryPop | .trySteal | .prepare | .popAgain _ _ | .popCancel | .testStop _ _ | .stopCancel
  | .stopNotify | .stopWake _ | .stopSub | .sleep _ _ | .workSub => true
  | _ => false

/-- The worker is counted as a waiter. -/
def Pc.waits : Pc → Bool
  | .popAgain _ _ | .popCancel | .testStop _ _ | .stopCancel | .sleep _ _ | .loadActive _ _
  | .sleepCancel | .check _ _ | .blocked _ _ _ | .leave => true
  | _ => false

/-- The worker is counted in `active`. -/
def Pc.isActive : Pc → Bool
  | .loop _ | .loopNotify _ | .loopWake _ _ | .resume | .deactivate => true
  | _ => false

/-- How many workers of domain `i` satisfy `p`. -/
def inDomain (K : Config) (p : Pc → Bool) (i : ℕ) (s : State) : ℕ :=
  tally K.numThreads (fun u pc => decide (K.node u = i) && p pc) s.worker

/-- The counters agree with what the workers are doing. -/
structure Counts (K : Config) (s : State) : Prop where
  thief : ∀ i, s.thief i = inDomain K Pc.isThief i s
  packs : ∀ i, Packs (s.mVal i) (s.notified i) (inDomain K Pc.waits i s)
  active : s.active = tally K.numThreads (fun _ pc => pc.isActive) s.worker

variable {K : Config} {s s' : State} {a : Act} {w : ℕ} {pc : Pc} {p : Pc → Bool}

/-- Where no worker satisfies `p`, none in the domain does. -/
theorem inDomain_eq_zero {i : ℕ} (h : ∀ u, p (s.worker u) = false) : inDomain K p i s = 0 := by
  rw [inDomain, tally_eq_zero]
  intro u _
  rw [h u, Bool.and_false]

/-- No worker is counted at first. -/
theorem counts_init : Counts K .init := by
  constructor
  · intro i
    rw [inDomain_eq_zero fun _ => rfl]
    rfl
  · intro i
    rw [inDomain_eq_zero fun _ => rfl]
    exact packs_zero
  · exact (tally_eq_zero.mpr fun _ _ => rfl).symm

/-- A worker that is counted. -/
theorem inDomain_pos (hw : w < K.numThreads) (hp : p (s.worker w) = true) :
    0 < inDomain K p (K.node w) s := by
  rw [inDomain, tally_pos]
  exact ⟨w, hw, by simp [hp]⟩

/-- A count that is not zero has a worker. -/
theorem exists_of_inDomain {i : ℕ} (h : inDomain K p i s ≠ 0) :
    ∃ u < K.numThreads, K.node u = i ∧ p (s.worker u) = true := by
  obtain ⟨u, hu, hp⟩ := tally_pos.mp (Nat.pos_of_ne_zero h)
  rw [Bool.and_eq_true, decide_eq_true_eq] at hp
  exact ⟨u, hu, hp⟩

/-- A worker that is not blocked is not unblocked. -/
theorem unblocked_eq (hpc : pc.isBlocked = false) : pc.unblocked = pc := by
  cases pc with
  | blocked => cases hpc
  | _ => rfl

/-- Who can be unblocked is blocked. -/
theorem isBlocked_of_eligible {k : ℕ} (he : pc.eligible k = true) : pc.isBlocked = true := by
  cases pc with
  | blocked => rfl
  | _ => cases he

/-- A worker that is not blocked does not notice an `epoch()->notify_all()`. -/
theorem wakeAll_worker {i k : ℕ} (hw : (s.worker w).isBlocked = false) :
    (wakeAll K s i k).worker w = s.worker w := by
  change (if _ then _ else _ : Pc) = _
  rw [unblocked_eq hw, ite_self]

/-- Who unblocks another worker stays where it is. -/
theorem unblock_worker {u k : ℕ} (hw : (s.worker w).isBlocked = false)
    (he : (s.worker u).eligible k = true) : (unblock s u).worker w = s.worker w := by
  refine goto_other s _ fun hwu => ?_
  rw [hwu, isBlocked_of_eligible he] at hw
  cases hw

/-- A worker that notifies is not blocked. -/
theorem Wakes.not_blocked {j k : ℕ} (h : Wakes K s w j k pc) : (s.worker w).isBlocked = false := by
  cases h with
  | last hpc | loop hpc => rw [hpc]; rfl

/-- One worker goes on. -/
theorem inDomain_goto (p : Pc → Bool) (s : State) (hw : w < K.numThreads) (pc : Pc) (i : ℕ) :
    inDomain K p i (s.goto w pc) + (if K.node w = i ∧ p (s.worker w) = true then 1 else 0) =
      inDomain K p i s + if K.node w = i ∧ p pc = true then 1 else 0 := by
  have h := tally_update (q := fun u pc => decide (K.node u = i) && p pc) (f := s.worker) hw pc
  simpa [inDomain, State.goto] using h

/-- A worker that goes on within a class leaves the count of each domain alone. -/
theorem inDomain_goto_same (hw : w < K.numThreads) (hp : p pc = p (s.worker w)) (i : ℕ) :
    inDomain K p i (s.goto w pc) = inDomain K p i s := by
  have h := inDomain_goto p s hw pc i
  rw [hp] at h
  exact Nat.add_right_cancel h

/-- It leaves the count of all workers alone. -/
theorem tally_goto_same (hw : w < K.numThreads) (hp : p pc = p (s.worker w)) :
    tally K.numThreads (fun _ pc => p pc) (s.goto w pc).worker =
      tally K.numThreads (fun _ pc => p pc) s.worker := by
  have h := tally_update (q := fun _ pc => p pc) (f := s.worker) hw pc
  rw [hp] at h
  exact Nat.add_right_cancel h

/-- A worker that enters a class is counted in its domain. -/
theorem inDomain_goto_enter (hw : w < K.numThreads) (hold : p (s.worker w) = false)
    (hnew : p pc = true) :
    inDomain K p (K.node w) (s.goto w pc) = inDomain K p (K.node w) s + 1 := by
  have h := inDomain_goto p s hw pc (K.node w)
  simpa [hold, hnew] using h

/-- One that leaves it is not counted any more. -/
theorem inDomain_goto_exit (hw : w < K.numThreads) (hold : p (s.worker w) = true)
    (hnew : p pc = false) :
    inDomain K p (K.node w) (s.goto w pc) + 1 = inDomain K p (K.node w) s := by
  have h := inDomain_goto p s hw pc (K.node w)
  simpa [hold, hnew] using h

/-- The other domains count what they counted. -/
theorem inDomain_goto_other (hw : w < K.numThreads) {i : ℕ} (hi : i ≠ K.node w) :
    inDomain K p i (s.goto w pc) = inDomain K p i s := by
  have h := inDomain_goto p s hw pc i
  simpa [Ne.symm hi] using h

/-- A domain has room for every one of its workers. -/
theorem inDomain_lt (hsmall : K.Small) (p : Pc → Bool) (i : ℕ) (s : State) :
    inDomain K p i s < 2 ^ 32 := by
  have hle : inDomain K p i s ≤ tally K.numThreads (fun _ j => decide (j = i)) K.node := by
    apply tally_mono
    intro u _ hu
    rw [Bool.and_eq_true] at hu
    exact hu.1
  exact Nat.lt_of_le_of_lt hle (hsmall i)

/-! ## The steps -/

/-- The three classes see no difference. -/
def Pc.Alike (pc pc' : Pc) : Prop :=
  pc.isThief = pc'.isThief ∧ pc.waits = pc'.waits ∧ pc.isActive = pc'.isActive

/-- Workers that go on and stay in their classes. -/
theorem Counts.alike (h : Counts K s) (hthief : s'.thief = s.thief) (hval : s'.mVal = s.mVal)
    (hn : s'.notified = s.notified) (hactive : s'.active = s.active)
    (hpc : ∀ u < K.numThreads, (s'.worker u).Alike (s.worker u)) : Counts K s' := by
  have hsame : ∀ (p : Pc → Bool) i, (∀ u < K.numThreads, p (s'.worker u) = p (s.worker u)) →
      inDomain K p i s' = inDomain K p i s := by
    intro p i hp
    apply tally_congr
    intro u hu
    rw [hp u hu]
  constructor
  · intro i
    rw [hthief, hsame _ i fun u hu => (hpc u hu).1]
    exact h.thief i
  · intro i
    rw [hval, hn, hsame _ i fun u hu => (hpc u hu).2.1]
    exact h.packs i
  · rw [hactive, h.active]
    apply tally_congr
    intro u hu
    rw [(hpc u hu).2.2]

/-- Emptying a list changes no count. -/
theorem Counts.popAll (h : Counts K s) (w : ℕ) : Counts K (s.popAll w) :=
  h.alike rfl rfl rfl rfl fun _ _ => ⟨rfl, rfl, rfl⟩

/-- A worker goes on and stays in its classes. -/
theorem Counts.goto (h : Counts K s) (hpc : pc.Alike (s.worker w)) : Counts K (s.goto w pc) := by
  refine h.alike rfl rfl rfl rfl fun u _ => ?_
  obtain rfl | hu := eq_or_ne u w
  · simpa [State.goto] using hpc
  · rw [goto_other s pc hu]
    exact ⟨rfl, rfl, rfl⟩

/-- A worker that is unblocked stays in its classes. -/
theorem alike_unblocked (pc : Pc) : pc.unblocked.Alike pc := by
  cases pc <;> exact ⟨rfl, rfl, rfl⟩

/-- Workers are unblocked. -/
theorem Counts.wakeAll (h : Counts K s) (i k : ℕ) : Counts K (wakeAll K s i k) := by
  refine h.alike rfl rfl rfl rfl fun u _ => ?_
  change (if _ then _ else _ : Pc).Alike _
  split
  · exact alike_unblocked _
  · exact ⟨rfl, rfl, rfl⟩

/-- A worker becomes a thief. -/
theorem Counts.enter (h : Counts K s) (hw : w < K.numThreads)
    (hold : (s.worker w).isThief = false) (hnew : pc.isThief = true)
    (hwaits : pc.waits = (s.worker w).waits) (hactive : pc.isActive = (s.worker w).isActive) :
    Counts K ((s.setThief (K.node w) (s.thief (K.node w) + 1)).goto w pc) := by
  constructor
  · intro i
    change Function.update s.thief _ _ i = inDomain K Pc.isThief i (s.goto w pc)
    obtain rfl | hi := eq_or_ne i (K.node w)
    · rw [Function.update_self, h.thief, inDomain_goto_enter hw hold hnew]
    · rw [Function.update_of_ne hi, h.thief, inDomain_goto_other hw hi]
  · intro i
    change Packs _ _ (inDomain K Pc.waits i (s.goto w pc))
    rw [inDomain_goto_same hw hwaits]
    exact h.packs i
  · exact h.active.trans (tally_goto_same hw hactive).symm

/-- A worker stops being a thief. -/
theorem Counts.exit (h : Counts K s) (hw : w < K.numThreads)
    (hold : (s.worker w).isThief = true) (hnew : pc.isThief = false)
    (hwaits : pc.waits = (s.worker w).waits) (hactive : pc.isActive = (s.worker w).isActive) :
    Counts K ((s.setThief (K.node w) (s.thief (K.node w) - 1)).goto w pc) := by
  constructor
  · intro i
    change Function.update s.thief _ _ i = inDomain K Pc.isThief i (s.goto w pc)
    obtain rfl | hi := eq_or_ne i (K.node w)
    · rw [Function.update_self, h.thief, ← inDomain_goto_exit hw hold hnew, Nat.add_sub_cancel]
    · rw [Function.update_of_ne hi, h.thief, inDomain_goto_other hw hi]
  · intro i
    change Packs _ _ (inDomain K Pc.waits i (s.goto w pc))
    rw [inDomain_goto_same hw hwaits]
    exact h.packs i
  · exact h.active.trans (tally_goto_same hw hactive).symm

/-- `prepare_wait` counts the worker: there is room for it. -/
theorem Counts.prepare (h : Counts K s) (hsmall : K.Small) (hw : w < K.numThreads)
    (hold : (s.worker w).waits = false) (hnew : pc.waits = true)
    (hthief : pc.isThief = (s.worker w).isThief)
    (hactive : pc.isActive = (s.worker w).isActive) :
    Counts K ((s.fetchAdd (K.node w) kAddWaiter).goto w pc) := by
  constructor
  · intro i
    change _ = inDomain K Pc.isThief i (s.goto w pc)
    rw [inDomain_goto_same hw hthief]
    exact h.thief i
  · intro i
    change Packs (Function.update s.mVal _ _ i) _ (inDomain K Pc.waits i (s.goto w pc))
    obtain rfl | hi := eq_or_ne i (K.node w)
    · have hroom := inDomain_lt hsmall Pc.waits (K.node w) (s.goto w pc)
      rw [inDomain_goto_enter hw hold hnew] at hroom
      rw [Function.update_self, inDomain_goto_enter hw hold hnew]
      exact (h.packs _).addWaiter hroom
    · rw [Function.update_of_ne hi, inDomain_goto_other hw hi]
      exact h.packs i
  · exact h.active.trans (tally_goto_same hw hactive).symm

/-- A waiter leaves. -/
theorem Counts.leave (h : Counts K s) (hw : w < K.numThreads)
    (hold : (s.worker w).waits = true) (hnew : pc.waits = false)
    (hthief : pc.isThief = (s.worker w).isThief)
    (hactive : pc.isActive = (s.worker w).isActive) :
    Counts K ((s.fetchAdd (K.node w) kSubWaiter).goto w pc) := by
  constructor
  · intro i
    change _ = inDomain K Pc.isThief i (s.goto w pc)
    rw [inDomain_goto_same hw hthief]
    exact h.thief i
  · intro i
    change Packs (Function.update s.mVal _ _ i) _ (inDomain K Pc.waits i (s.goto w pc))
    obtain rfl | hi := eq_or_ne i (K.node w)
    · have hpacks := h.packs (K.node w)
      rw [← inDomain_goto_exit hw hold hnew] at hpacks
      rw [Function.update_self]
      exact hpacks.subWaiter
    · rw [Function.update_of_ne hi, inDomain_goto_other hw hi]
      exact h.packs i
  · exact h.active.trans (tally_goto_same hw hactive).symm

/-- A notification is counted. -/
theorem Counts.notify (h : Counts K s) (j : ℕ) : Counts K (s.notify j) := by
  refine ⟨h.thief, fun i => ?_, h.active⟩
  change Packs (Function.update s.mVal _ _ i) (Function.update s.notified _ _ i) _
  obtain rfl | hi := eq_or_ne i j
  · rw [Function.update_self, Function.update_self]
    exact (h.packs i).addEpoch
  · rw [Function.update_of_ne hi, Function.update_of_ne hi]
    exact h.packs i

/-- A worker becomes active. -/
theorem Counts.activate (h : Counts K s) (hw : w < K.numThreads)
    (hold : (s.worker w).isActive = false) (hnew : pc.isActive = true)
    (hthief : pc.isThief = (s.worker w).isThief) (hwaits : pc.waits = (s.worker w).waits) :
    Counts K ((s.setActive (s.active + 1)).goto w pc) := by
  constructor
  · intro i
    change _ = inDomain K Pc.isThief i (s.goto w pc)
    rw [inDomain_goto_same hw hthief]
    exact h.thief i
  · intro i
    change Packs _ _ (inDomain K Pc.waits i (s.goto w pc))
    rw [inDomain_goto_same hw hwaits]
    exact h.packs i
  · have htally := tally_update (q := fun _ pc => pc.isActive) (f := s.worker) hw pc
    rw [hold, hnew] at htally
    change s.active + 1 = _
    rw [h.active]
    exact htally.symm

/-- An active is done. -/
theorem Counts.deactivate (h : Counts K s) (hw : w < K.numThreads)
    (hold : (s.worker w).isActive = true) (hnew : pc.isActive = false)
    (hthief : pc.isThief = (s.worker w).isThief) (hwaits : pc.waits = (s.worker w).waits) :
    Counts K ((s.setActive (s.active - 1)).goto w pc) := by
  constructor
  · intro i
    change _ = inDomain K Pc.isThief i (s.goto w pc)
    rw [inDomain_goto_same hw hthief]
    exact h.thief i
  · intro i
    change Packs _ _ (inDomain K Pc.waits i (s.goto w pc))
    rw [inDomain_goto_same hw hwaits]
    exact h.packs i
  · have htally := tally_update (q := fun _ pc => pc.isActive) (f := s.worker) hw pc
    rw [hold, hnew] at htally
    have hactive :
        s.active = tally K.numThreads (fun _ pc => pc.isActive) (s.goto w pc).worker + 1 :=
      h.active.trans htally.symm
    change s.active - 1 = _
    rw [hactive, Nat.add_sub_cancel]
    rfl

/-! ## Every step -/

/-- A first active is in the same classes at each domain. -/
theorem alike_afterDomain (j : ℕ) : (afterDomain K j).Alike .resume := by
  unfold afterDomain
  split <;> exact ⟨rfl, rfl, rfl⟩

/-- An access that changes nothing else keeps a worker in its classes. -/
theorem Quiet.alike (h : Quiet K s w pc) : pc.Alike (s.worker w) := by
  cases h with
  | skip hpc _ => rw [hpc]; exact alike_afterDomain _
  | loopNobody hpc _ => rw [hpc]; exact alike_afterDomain _
  | popNone hpc _ | stealNone hpc | popAgain hpc _ | stopping hpc _ | going hpc _ | busy hpc _
  | calm hpc _ | block hpc _ _ | missed hpc _ | found hpc _ | lastNobody hpc _ | resumed hpc
  | steal hpc => rw [hpc]; exact ⟨rfl, rfl, rfl⟩

/-- So does a notification. -/
theorem Notifies.alike {j : ℕ} (h : Notifies K s w j pc) : pc.Alike (s.worker w) := by
  cases h with
  | loopNone hpc _ => rw [hpc]; exact alike_afterDomain _
  | stopWake hpc _ | stopNone hpc _ | lastWake hpc _ | lastNone hpc _ | loopWake hpc _ =>
    rw [hpc]; exact ⟨rfl, rfl, rfl⟩

/-- So does a `notify_one`. -/
theorem Wakes.alike {j k : ℕ} (h : Wakes K s w j k pc) : pc.Alike (s.worker w) := by
  cases h with
  | last hpc => rw [hpc]; exact ⟨rfl, rfl, rfl⟩
  | loop hpc => rw [hpc]; exact alike_afterDomain _

/-- **Every step keeps the counters right.** -/
theorem counts_step (hsmall : K.Small) (h : Counts K s) (hm : Moves K s a s') : Counts K s' := by
  cases hm with
  | quiet _ hq => exact h.goto hq.alike
  | wakeUp hw hpc => exact h.enter hw (by rw [hpc]; rfl) rfl (by rw [hpc]; rfl) (by rw [hpc]; rfl)
  | sub hw hsub =>
    cases hsub with
    | sleepLast hpc _ | sleep hpc _ | workLast hpc _ | work hpc _ | stop hpc =>
      exact h.exit hw (by rw [hpc]; rfl) rfl (by rw [hpc]; rfl) (by rw [hpc]; rfl)
  | pop hw hpc | popAgain hw hpc =>
    exact (h.popAll _).goto (by rw [State.popAll, hpc]; exact ⟨rfl, rfl, rfl⟩)
  | prepare hw hpc =>
    exact h.prepare hsmall hw (by rw [hpc]; rfl) rfl (by rw [hpc]; rfl) (by rw [hpc]; rfl)
  | leave hw hl =>
    cases hl with
    | pop hpc | stop hpc | sleep hpc | wait hpc =>
      exact h.leave hw (by rw [hpc]; rfl) rfl (by rw [hpc]; rfl) (by rw [hpc]; rfl)
  | notify hw hn => exact (h.notify _).goto hn.alike
  | stopWake hw hpc =>
    refine (h.wakeAll _ _).goto ?_
    rw [wakeAll_worker (by rw [hpc]; rfl), hpc]
    exact ⟨rfl, rfl, rfl⟩
  | stopSet hw hpc =>
    have hstop : Counts K s.setStop := h.alike rfl rfl rfl rfl fun _ _ => ⟨rfl, rfl, rfl⟩
    exact hstop.goto (by rw [State.setStop, hpc]; exact ⟨rfl, rfl, rfl⟩)
  | activateFirst hw hpc _ | activate hw hpc _ =>
    exact h.activate hw (by rw [hpc]; rfl) rfl (by rw [hpc]; rfl) (by rw [hpc]; rfl)
  | deactivate hw hpc =>
    exact h.deactivate hw (by rw [hpc]; rfl) rfl (by rw [hpc]; rfl) (by rw [hpc]; rfl)
  | wakeOne hw hwake hu hnode he =>
    refine (h.goto (alike_unblocked _)).goto ?_
    rw [← unblock, unblock_worker hwake.not_blocked he]
    exact hwake.alike
  | spurious hw hb => exact h.goto (alike_unblocked _)
  | schedule _ _ => exact h.alike rfl rfl rfl rfl fun _ _ => ⟨rfl, rfl, rfl⟩
  | callNotify _ | destroyNotify _ =>
    exact (h.notify _).alike rfl rfl rfl rfl fun _ _ => ⟨rfl, rfl, rfl⟩
  | callWake _ | destroyWake _ =>
    exact (h.wakeAll _ _).alike rfl rfl rfl rfl fun _ _ => ⟨rfl, rfl, rfl⟩
  | destroy _ => exact h.alike rfl rfl rfl rfl fun _ _ => ⟨rfl, rfl, rfl⟩

end Libfork.Lazy
