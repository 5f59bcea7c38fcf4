import Libfork.EventCount.Counts

/-!
# What a step of the event count does

* `Step s s'` — the possible effects of a step within the bounds, each with what it starts from.
* **`step_cases`** — every step has one of them.
* `counts_step` — every step keeps the counters.

Source: `event_count.hpp`, class `event_count`.
-/

namespace Libfork.EventCount

open Libfork.Found

variable {s s' : State} {t u : ℕ} {es : List Event} {pc : Pc}

/-! ## The effects -/

/-- The thread is blocked in `wait`. -/
def Pc.isBlocked : Pc → Bool
  | .blocked _ _ _ _ => true
  | _ => false

/-- What a thread that holds a key after `n` notifications knows about it; a blocked thread has
blocked before any notification that followed its `prepare_wait`. -/
def Pc.Keyed (n : ℕ) : Pc → Prop
  | .prepared _ key since => since ≤ n ∧ key = BitVec.ofNat 32 since
  | .check _ key since => since ≤ n ∧ key = BitVec.ofNat 32 since
  | .blocked _ key since seen => since ≤ n ∧ key = BitVec.ofNat 32 since ∧ seen = since
  | .wake _ k => k < n
  | _ => True

/-- The events of a step of `t` that leads to `pc`, and neither counts nor notifies. -/
inductive Calls (s : State) (t : ℕ) : Pc → List Event → Prop
  | silent (pc : Pc) (h : ∀ threw, pc ≠ .awaitCancel threw) : Calls s t pc []
  | again (pc : Pc) (h : ∀ threw, pc ≠ .awaitCancel threw) : Calls s t pc [.cond t .no]
  | cancel : Calls s t (.awaitCancel false) [.cond t .yes]
  | abort : Calls s t (.awaitCancel true) [.cond t .throws]
  | returns (h : s.pc t = .awaitCond) : Calls s t .idle [.cond t .yes, .returned t]
  | throws (h : s.pc t = .awaitCond) : Calls s t .idle [.cond t .throws, .threw t]

/-- The events of a step of `t` that stops counting it. -/
inductive Leaves (s : State) (t : ℕ) : Pc → List Event → Prop
  | wait (pc : Pc) (h : pc = .idle ∨ pc = .awaitPrepare) : Leaves s t pc []
  | await (threw : Bool) (h : s.pc t = .awaitCancel threw) :
      Leaves s t .idle [if threw then .threw t else .returned t]

/-- The effects of a step. -/
inductive Step (s : State) : State → Prop
  | prepare (t : ℕ) (await : Bool) (ht : (s.pc t).waits = false)
      (hroom : waiters s.log + 1 < 2 ^ 32) : Step s (prepareWait s t await)
  | leave (t : ℕ) (pc : Pc) (es : List Event) (ht : (s.pc t).waits = true)
      (hes : Leaves s t pc es) : Step s (subWaiter s t pc es)
  | notify (t : ℕ) (all : Bool) (ht : s.pc t = .idle) :
      Step s (((s.fetchAdd kAddEpoch).logged [.notified t]).goto t (.wake all (notified s.log)))
  | notifyNobody (t : ℕ) (es : List Event) (hnone : hasWaiters s.mVal = false)
      (hes : es = [] ∨ es = [.finished t (notified s.log)]) :
      Step s (((s.fetchAdd kAddEpoch).logged [.notified t]).logged es)
  | go (t : ℕ) (pc : Pc) (es : List Event) (hwaits : pc.waits = (s.pc t).waits)
      (hkeyed : ∀ n, (s.pc t).Keyed n → pc.Keyed n) (hblocked : pc.isBlocked = false)
      (hes : Calls s t pc es) : Step s ((s.goto t pc).logged es)
  | block (t : ℕ) (await : Bool) (key : BitVec 32) (since : ℕ)
      (ht : s.pc t = .check await key since) (hkey : epoch s.mVal = key)
      (hbound : notified s.log - since < 2 ^ 32) : Step s
        { s.goto t (.blocked await key since (notified s.log)) with queue := s.queue ++ [t] }
  | wakeAll (t k : ℕ) (ht : s.pc t = .wake true k) :
      Step s (((wakeAll s k).goto t .idle).logged [.finished t k])
  | unblock (u : ℕ) : Step s (unblock s u)
  | wakeOne (t k : ℕ) (u : ℕ) (ht : s.pc t = .wake false k) (hu : (s.pc u).eligible k = true) :
      Step s ((unblock s u).goto t .idle)
  | wakeNobody (t k : ℕ) (ht : s.pc t = .wake false k) : Step s (s.goto t .idle)

/-- A call begins where the thread is idle. -/
theorem idleCall_cases {s₁ : State} (h : idleCall s t s₁ = some s') :
    s.pc t = .idle ∧ s' = s₁ := by
  unfold idleCall at h
  split at h
  · rename_i hpc
    exact ⟨hpc, (Option.some.inj h).symm⟩
  · cases h

/-- A step that only moves the thread. -/
theorem Step.move (t : ℕ) (hwaits : pc.waits = (s.pc t).waits)
    (hkeyed : ∀ n, (s.pc t).Keyed n → pc.Keyed n) (hblocked : pc.isBlocked = false)
    (hcancel : ∀ threw, pc ≠ .awaitCancel threw) : Step s (s.goto t pc) := by
  have hstep := Step.go t pc [] hwaits hkeyed hblocked (.silent pc hcancel)
  rwa [State.logged_nil] at hstep

/-- Evaluating a condition is a step. -/
theorem condStep_cases {r : Result} (h : condStep s t r = some s') : Step s s' := by
  unfold condStep at h
  split at h
  · rename_i hpc
    cases r with
    | yes =>
        obtain rfl := Option.some.inj h
        exact .go t _ _ (by rw [hpc]; rfl) (fun _ _ => trivial) rfl (.returns hpc)
    | no =>
        obtain rfl := Option.some.inj h
        exact .go t _ _ (by rw [hpc]; rfl) (fun _ _ => trivial) rfl (.again _ (by simp))
    | throws =>
        obtain rfl := Option.some.inj h
        exact .go t _ _ (by rw [hpc]; rfl) (fun _ _ => trivial) rfl (.throws hpc)
  · rename_i key since hpc
    cases r with
    | yes =>
        obtain rfl := Option.some.inj h
        exact .go t _ _ (by rw [hpc]; rfl) (fun _ _ => trivial) rfl .cancel
    | no =>
        obtain rfl := Option.some.inj h
        exact .go t _ _ (by rw [hpc]; rfl) (fun n hn => by rwa [hpc] at hn) rfl
          (.again _ (by simp))
    | throws =>
        obtain rfl := Option.some.inj h
        exact .go t _ _ (by rw [hpc]; rfl) (fun _ _ => trivial) rfl .abort
  · cases h

/-- What a thread does by itself is a step. -/
theorem threadStep_cases (hok : (s.pc t).InBounds (waiters s.log) (notified s.log))
    (h : threadStep s t = some s') : Step s s' := by
  unfold threadStep at h
  split at h
  · rename_i await key since hpc
    rw [hpc] at hok
    split at h
    · rename_i hkey
      obtain rfl := Option.some.inj h
      exact .block t await key since hpc hkey hok
    · obtain rfl := Option.some.inj h
      exact .move t (by rw [hpc]; rfl) (fun _ _ => trivial) rfl (by simp)
  · rename_i await hpc
    obtain rfl := Option.some.inj h
    refine .leave t _ [] (by rw [hpc]; rfl) (.wait _ ?_)
    cases await with
    | true => exact Or.inr rfl
    | false => exact Or.inl rfl
  · rename_i k hpc
    obtain rfl := Option.some.inj h
    exact .wakeAll t k hpc
  · rename_i hpc
    rw [hpc] at hok
    obtain rfl := Option.some.inj h
    exact .prepare t true (by rw [hpc]; rfl) hok
  · rename_i threw hpc
    obtain rfl := Option.some.inj h
    exact .leave t _ _ (by rw [hpc]; rfl) (.await threw hpc)
  · cases h

/-- Unblocking a waiter, or finding none, is a step. -/
theorem wakeOneStep_cases {v : Option ℕ} (h : wakeOneStep s t v = some s') : Step s s' := by
  unfold wakeOneStep at h
  split at h
  · rename_i k hpc
    obtain ⟨s₁, hs₁, rfl⟩ := Option.map_eq_some_iff.mp h
    cases v with
    | some u =>
        rw [wakeOne] at hs₁
        split at hs₁
        · rename_i hu
          obtain rfl := Option.some.inj hs₁
          exact .wakeOne t k u hpc hu
        · cases hs₁
    | none =>
        rw [wakeOne] at hs₁
        split at hs₁
        · cases hs₁
        · obtain rfl := Option.some.inj hs₁
          exact .wakeNobody t k hpc
  · cases h

/-- Notifying is a step. -/
theorem notifyAdd_cases {all : Bool} (ht : s.pc t = .idle) : Step s (notifyAdd s t all) := by
  unfold notifyAdd
  split
  · exact .notify t all ht
  · rename_i hnone
    have hnone' : hasWaiters s.mVal = false := Bool.not_eq_true _ ▸ hnone
    split
    · exact .notifyNobody t _ hnone' (Or.inr rfl)
    · have hstep := Step.notifyNobody t [] hnone' (Or.inl rfl)
      rwa [State.logged_nil] at hstep

/-- **Every step within the bounds has one of these effects.** -/
theorem step_cases {a : Act} (hok : Bounds s a) (h : machine.step s a = some s') : Step s s' := by
  cases a with
  | prepare t =>
      obtain ⟨hpc, rfl⟩ := idleCall_cases h
      exact .prepare t false (by rw [hpc]; rfl) hok
  | notify t all =>
      obtain ⟨hpc, rfl⟩ := idleCall_cases h
      exact notifyAdd_cases hpc
  | await t =>
      obtain ⟨hpc, rfl⟩ := idleCall_cases h
      exact .move t (by rw [hpc]; rfl) (fun _ _ => trivial) rfl (by simp)
  | cancel t =>
      change cancelCall s t = some s' at h
      unfold cancelCall at h
      split at h
      · rename_i hpc
        obtain rfl := Option.some.inj h
        exact .leave t _ [] (by rw [hpc]; rfl) (.wait _ (Or.inl rfl))
      · cases h
  | wait t =>
      change waitCall s t = some s' at h
      unfold waitCall at h
      split at h
      · rename_i key since hpc
        obtain rfl := Option.some.inj h
        exact .move t (by rw [hpc]; rfl) (fun n hn => by rwa [hpc] at hn) rfl (by simp)
      · cases h
  | cond t r => exact condStep_cases h
  | step t => exact threadStep_cases hok h
  | wakeOne t v => exact wakeOneStep_cases h
  | spurious t =>
      change spuriousStep s t = some s' at h
      unfold spuriousStep at h
      split at h
      · obtain rfl := Option.some.inj h
        exact .unblock t
      · cases h

/-! ## The counters -/

/-- Being unblocked does not matter to them. -/
theorem Pc.unblocked_waits (pc : Pc) : pc.unblocked.waits = pc.waits := by
  cases pc <;> rfl

/-- Moving one thread. -/
theorem waits_goto (hwaits : pc.waits = (s.pc t).waits) (u : ℕ) :
    ((s.goto t pc).pc u).waits = (s.pc u).waits := by
  rw [State.goto_pc]
  by_cases hu : u = t
  · subst hu
    rw [Function.update_self, hwaits]
  · rw [Function.update_of_ne hu]

/-- A thread that is unblocked is counted as before. -/
theorem waits_unblock (s : State) (u v : ℕ) : ((unblock s u).pc v).waits = (s.pc v).waits :=
  waits_goto (Pc.unblocked_waits _) v

/-- So are the threads that `notify_all` unblocks. -/
theorem waits_wakeAll (s : State) (k v : ℕ) : ((wakeAll s k).pc v).waits = (s.pc v).waits := by
  rw [wakeAll]
  change (if _ then _ else _ : Pc).waits = _
  split
  · exact Pc.unblocked_waits _
  · rfl

/-- What a call logs is about no waiter. -/
theorem Calls.quiet (h : Calls s t pc es) : ∀ e ∈ es, e.quiet = true := by
  intro e he
  cases h <;> simp only [List.not_mem_nil, List.mem_cons, or_false] at he
  · subst he; rfl
  · subst he; rfl
  · subst he; rfl
  · rcases he with rfl | rfl <;> rfl
  · rcases he with rfl | rfl <;> rfl

/-- What is logged on leaving, besides that, is about no waiter. -/
theorem Leaves.quiet (h : Leaves s t pc es) : ∀ e ∈ es, e.quiet = true := by
  intro e he
  cases h with
  | wait _ _ => cases he
  | await threw _ =>
      rw [List.mem_singleton] at he
      subst he
      cases threw <;> rfl

/-- Who has left is counted no more. -/
theorem Leaves.waits (h : Leaves s t pc es) : pc.waits = false := by
  cases h with
  | wait _ hpc => rcases hpc with rfl | rfl <;> rfl
  | await _ _ => rfl

/-- A notification that has only been counted. -/
theorem counts_notified (h : Counts s) (t : ℕ) :
    Counts ((s.fetchAdd kAddEpoch).logged [.notified t]) :=
  h.notify (s.fetchAdd_mVal kAddEpoch) (fun u => by rw [State.logged_pc, State.fetchAdd_pc])
    (by rw [State.logged_log, State.fetchAdd_log])

/-- **Every step keeps the counters.** -/
theorem counts_step (h : Counts s) (hstep : Step s s') : Counts s' := by
  cases hstep with
  | prepare t await ht hroom => exact h.prepare hroom ht await
  | leave t pc es ht hes =>
      have hleave := h.leave ht hes.waits
      refine hleave.quiet ?_ (fun u => ?_) ?_ hes.quiet
      · rw [subWaiter_mVal, subWaiter_mVal]
      · rw [subWaiter_pc, subWaiter_pc]
      · rw [subWaiter_log, subWaiter_log, List.append_assoc, List.singleton_append]
  | notify t all ht =>
      refine (counts_notified h t).silent (State.goto_mVal ..) (waits_goto ?_) (State.goto_log ..)
      rw [State.logged_pc, State.fetchAdd_pc, ht]
      rfl
  | notifyNobody t es hnone hes =>
      refine (counts_notified h t).quiet (State.logged_mVal ..) (fun u => ?_)
        (State.logged_log ..) ?_
      · rw [State.logged_pc]
      · intro e he
        rcases hes with rfl | rfl
        · cases he
        · rw [List.mem_singleton.mp he]
          rfl
  | go t pc es hwaits hkeyed hblocked hes =>
      exact h.quiet (s.goto_mVal t pc) (waits_goto hwaits) (State.logged_log ..) hes.quiet
  | block t await key since ht hkey hbound =>
      exact h.silent rfl (waits_goto (by rw [ht]; rfl)) rfl
  | wakeAll t k ht =>
      have hwake : Counts (wakeAll s k) := h.silent rfl (waits_wakeAll s k) rfl
      have hself : ((wakeAll s k).pc t).waits = false := by
        rw [waits_wakeAll, ht]
        rfl
      refine hwake.quiet rfl (waits_goto (by rw [hself]; rfl)) (State.logged_log ..) ?_
      intro e he
      rw [List.mem_singleton.mp he]
      rfl
  | unblock u => exact h.silent rfl (waits_unblock s u) rfl
  | wakeOne t k u ht hu =>
      have hwake : Counts (unblock s u) := h.silent rfl (waits_unblock s u) rfl
      refine hwake.silent rfl (waits_goto ?_) rfl
      rw [waits_unblock, ht]
      rfl
  | wakeNobody t k ht => exact h.silent rfl (waits_goto (by rw [ht]; rfl)) rfl

end Libfork.EventCount
