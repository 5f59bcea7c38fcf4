import Libfork.EventCount.Model
import Mathlib.Data.Set.Card

/-!
# The word counts the waiters and the notifications

* `Counts` — the lower half of the word is the number of threads that have prepared and not yet
  left, the upper half the number of notifications, modulo `2 ^ 32`.
* `Counts.quiet`, `Counts.prepare`, `Counts.leave`, `Counts.notify` — what a step may do to them.

Source: `event_count.hpp`, `m_val`.
-/

namespace Libfork.EventCount

variable {s s' : State} {t u : ℕ} {es : List Event} {pc : Pc}

/-! ## The invariant -/

/-- The thread is counted as a waiter. -/
def Pc.waits : Pc → Bool
  | .prepared _ _ _ => true
  | .check _ _ _ => true
  | .blocked _ _ _ _ => true
  | .leave _ => true
  | .awaitCancel _ => true
  | .idle => false
  | .wake _ _ => false
  | .awaitCond => false
  | .awaitPrepare => false

/-- The word and the log agree with what the threads are doing. -/
structure Counts (s : State) : Prop where
  packs : Packs s.mVal (notified s.log) (waiters s.log)
  le : s.log.countP Event.isLeft ≤ s.log.countP Event.isPrepared
  each : ∀ t, s.log.count (.prepared t) =
    s.log.count (.left t) + if (s.pc t).waits = true then 1 else 0
  card : {t | (s.pc t).waits = true}.encard = waiters s.log

/-- Nothing is counted at first. -/
theorem counts_new : Counts State.new := by
  refine ⟨packs_zero, Nat.le_refl _, fun _ => rfl, ?_⟩
  have hempty : {t | (State.new.pc t).waits = true} = ∅ := by
    ext t
    exact iff_of_false (by simp [State.new, Pc.waits]) (Set.notMem_empty t)
  rw [hempty, Set.encard_empty]
  rfl

/-- A thread that is counted makes the lower half positive. -/
theorem Counts.pos (h : Counts s) (ht : (s.pc t).waits = true) : waiters s.log ≠ 0 := by
  intro hzero
  have hcard := h.card
  rw [hzero, Nat.cast_zero, Set.encard_eq_zero] at hcard
  exact Set.notMem_empty t (hcard ▸ ht)

/-! ## What a step may do -/

/-- The event neither counts a thread nor a notification. -/
def Event.quiet : Event → Bool
  | .prepared _ => false
  | .left _ => false
  | .notified _ => false
  | .finished _ _ => true
  | .cond _ _ => true
  | .returned _ => true
  | .threw _ => true

/-- What quiet events do not change. -/
theorem quiet_append (log : List Event) (hes : ∀ e ∈ es, e.quiet = true) :
    notified (log ++ es) = notified log ∧
    (log ++ es).countP Event.isPrepared = log.countP Event.isPrepared ∧
    (log ++ es).countP Event.isLeft = log.countP Event.isLeft ∧
    (∀ t, (log ++ es).count (.prepared t) = log.count (.prepared t)) ∧
    ∀ t, (log ++ es).count (.left t) = log.count (.left t) := by
  have hzero : ∀ p : Event → Bool, (∀ e, e.quiet = true → p e = false) →
      (log ++ es).countP p = log.countP p := by
    intro p hp
    have hnone : es.countP p = 0 := by
      rw [List.countP_eq_zero]
      intro e he
      simp [hp e (hes e he)]
    rw [List.countP_append, hnone, Nat.add_zero]
  refine ⟨hzero _ ?_, hzero _ ?_, hzero _ ?_, fun t => hzero _ ?_, fun t => hzero _ ?_⟩ <;>
    · intro e he
      cases e <;> first | rfl | cases he

/-- Quiet steps of a thread that goes on being counted, or not being counted. -/
theorem Counts.quiet (h : Counts s) (hval : s'.mVal = s.mVal)
    (hpc : ∀ u, (s'.pc u).waits = (s.pc u).waits) (hlog : s'.log = s.log ++ es)
    (hes : ∀ e ∈ es, e.quiet = true) : Counts s' := by
  obtain ⟨hnotified, hprepared, hleft, hpreparedOf, hleftOf⟩ := quiet_append s.log hes
  have hwaiters : waiters s'.log = waiters s.log := by
    rw [hlog, waiters, hprepared, hleft, waiters]
  constructor
  · rw [hval, hwaiters, hlog, hnotified]
    exact h.packs
  · rw [hlog, hprepared, hleft]
    exact h.le
  · intro u
    rw [hlog, hpreparedOf, hleftOf, hpc]
    exact h.each u
  · rw [hwaiters, ← h.card]
    simp only [hpc]

/-- Steps that log nothing. -/
theorem Counts.silent (h : Counts s) (hval : s'.mVal = s.mVal)
    (hpc : ∀ u, (s'.pc u).waits = (s.pc u).waits) (hlog : s'.log = s.log) : Counts s' := by
  have hlog' : s'.log = s.log ++ [] := by rw [hlog, List.append_nil]
  refine h.quiet hval hpc hlog' fun e he => ?_
  cases he

/-- `prepare_wait` counts the thread. -/
theorem Counts.prepare (h : Counts s) (hroom : waiters s.log + 1 < 2 ^ 32)
    (ht : (s.pc t).waits = false) (await : Bool) : Counts (prepareWait s t await) := by
  have hw : waiters (s.log ++ [.prepared t]) = waiters s.log + 1 := by
    have hle := h.le
    rw [waiters, waiters, List.countP_append, List.countP_append]
    change _ + 1 - (_ + 0) = _
    omega
  have hn : notified (s.log ++ [.prepared t]) = notified s.log := by
    rw [notified, List.countP_append]
    rfl
  have hself : ((prepareWait s t await).pc t).waits = true := by
    rw [prepareWait_pc, Function.update_self]
    rfl
  have hother : ∀ u, u ≠ t → (prepareWait s t await).pc u = s.pc u := by
    intro u hu
    rw [prepareWait_pc, Function.update_of_ne hu]
  constructor
  · rw [prepareWait_log, hw, hn]
    exact h.packs.addWaiter hroom
  · rw [prepareWait_log, List.countP_append, List.countP_append]
    exact Nat.add_le_add h.le (Nat.zero_le _)
  · intro u
    rw [prepareWait_log, List.count_append, List.count_append, h.each u]
    by_cases hu : u = t
    · subst hu
      rw [hself, ht]
      simp
    · rw [hother u hu]
      simp [Ne.symm hu]
  · have hset : {u | ((prepareWait s t await).pc u).waits = true} =
        insert t {u | (s.pc u).waits = true} := by
      ext u
      rw [Set.mem_insert_iff, Set.mem_ofPred_eq, Set.mem_ofPred_eq]
      by_cases hu : u = t
      · subst hu
        exact iff_of_true hself (Or.inl rfl)
      · rw [hother u hu, or_iff_right hu]
    rw [prepareWait_log, hw, hset, Set.encard_insert_of_notMem (by simp [ht]), h.card]
    rfl

/-- `cancel_wait` and the end of `wait` stop counting the thread. -/
theorem Counts.leave (h : Counts s) (ht : (s.pc t).waits = true) (hpc : pc.waits = false) :
    Counts (subWaiter s t pc []) := by
  have hpos := h.pos ht
  have hw : waiters (s.log ++ [.left t]) = waiters s.log - 1 := by
    rw [waiters, waiters, List.countP_append, List.countP_append]
    change _ + 0 - (_ + 1) = _
    omega
  have hn : notified (s.log ++ [.left t]) = notified s.log := by
    rw [notified, List.countP_append]
    rfl
  have hself : (subWaiter s t pc []).pc t = pc := by
    rw [subWaiter_pc, Function.update_self]
  have hother : ∀ u, u ≠ t → (subWaiter s t pc []).pc u = s.pc u := by
    intro u hu
    rw [subWaiter_pc, Function.update_of_ne hu]
  constructor
  · rw [subWaiter_log, hw, hn]
    apply Packs.subWaiter
    rw [Nat.sub_add_cancel (Nat.one_le_iff_ne_zero.mpr hpos)]
    exact h.packs
  · rw [subWaiter_log, List.countP_append, List.countP_append]
    change _ + 1 ≤ _ + 0
    rw [waiters] at hpos
    omega
  · intro u
    rw [subWaiter_log, List.count_append, List.count_append, h.each u]
    by_cases hu : u = t
    · subst hu
      rw [hself, ht, hpc]
      simp
    · rw [hother u hu]
      simp [Ne.symm hu]
  · have hset : {u | ((subWaiter s t pc []).pc u).waits = true} =
        {u | (s.pc u).waits = true} \ {t} := by
      ext u
      rw [Set.mem_sdiff, Set.mem_singleton_iff, Set.mem_ofPred_eq, Set.mem_ofPred_eq]
      by_cases hu : u = t
      · subst hu
        rw [hself, hpc]
        simp
      · rw [hother u hu]
        simp [hu]
    have hmem : t ∈ {u | (s.pc u).waits = true} := ht
    rw [subWaiter_log, hw, hset, Set.encard_sdiff_singleton_of_mem hmem, h.card]
    exact (ENat.natCast_sub _ _).symm

/-- `notify_one` and `notify_all` count a notification. -/
theorem Counts.notify (h : Counts s) (hval : s'.mVal = s.mVal + kAddEpoch)
    (hpc : ∀ u, (s'.pc u).waits = (s.pc u).waits) (hlog : s'.log = s.log ++ [.notified t]) :
    Counts s' := by
  have hw : waiters (s.log ++ [.notified t]) = waiters s.log := by
    rw [waiters, List.countP_append, List.countP_append]
    rfl
  have hn : notified (s.log ++ [.notified t]) = notified s.log + 1 := by
    rw [notified, List.countP_append]
    rfl
  constructor
  · rw [hval, hlog, hw, hn]
    exact h.packs.addEpoch
  · rw [hlog, List.countP_append, List.countP_append]
    exact h.le
  · intro u
    rw [hlog, hpc, List.count_append, List.count_append, h.each u]
    simp
  · rw [hlog, hw, ← h.card]
    simp only [hpc]

end Libfork.EventCount
