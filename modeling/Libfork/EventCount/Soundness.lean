import Libfork.EventCount.Wakeup

/-!
# No wake-up is lost

* `Sound` — what the callers of an event count rely on.
* `Awaits` — an `await` ends as its last condition says, and is not counted any more.
* **`sound_of_run`** — the callers may rely on it, along every interleaving within the bounds.
* `not_sound_late` — not if the bounds hold only where `wait` is called: a sleeper that is unblocked
  compares once more.

Source: `event_count.hpp`, class `event_count`.
-/

namespace Libfork.EventCount

open Libfork.Found

variable {s s' : State} {t : ℕ} {es : List Event} {pc : Pc}

/-! ## The statement -/

/-- `t` has prepared, and has not yet cancelled or returned from `wait`. -/
def Waiting (log : List Event) (t : ℕ) : Prop := log.count (.left t) < log.count (.prepared t)

/-- The result of the condition, if the event is a call of it by `t`. -/
def Event.condOf (t : ℕ) : Event → Option Result
  | .cond u r => if u = t then some r else none
  | .prepared _ => none
  | .left _ => none
  | .notified _ => none
  | .finished _ _ => none
  | .returned _ => none
  | .threw _ => none

/-- The last result of the condition of `t`. -/
def lastCond (t : ℕ) (log : List Event) : Option Result :=
  (log.filterMap (Event.condOf t)).getLast?

/-- When `await` returns, the condition was true; when it rethrows, the condition threw. Either way
the thread has left as often as it has prepared. -/
def AwaitOk (pre : List Event) : Event → Prop
  | .returned t => lastCond t pre = some .yes ∧ pre.count (.prepared t) = pre.count (.left t)
  | .threw t => lastCond t pre = some .throws ∧ pre.count (.prepared t) = pre.count (.left t)
  | _ => True

/-- **No lost wake-up.** -/
structure Sound (s : State) : Prop where
  /-- The lower half of the word is the number of threads that wait. -/
  low : {t | Waiting s.log t}.encard = (s.mVal.toNat % 2 ^ 32 : ℕ)
  /-- The upper half is the number of notifications. -/
  high : s.mVal.toNat / 2 ^ 32 = notified s.log % 2 ^ 32
  /-- The assertions of `cancel_wait` and `wait` hold. -/
  asserts : ∀ t, (s.pc t).waits = true → hasWaiters s.mVal = true
  /-- A thread that prepared after `since` notifications is not blocked any more when a call of
  `notify_all` has finished whose `fetch_add` came after that. -/
  woken : ∀ t await key since seen, s.pc t = .blocked await key since seen →
    ∀ u k, .finished u k ∈ s.log → k < since
  /-- Every `await` ends as it should. -/
  awaits : AllJustified AwaitOk s.log

/-! ## The awaits -/

/-- How the awaits end. -/
structure Awaits (s : State) : Prop where
  ok : AllJustified AwaitOk s.log
  cancel : ∀ t threw, s.pc t = .awaitCancel threw →
    lastCond t s.log = some (if threw then .throws else .yes)

/-- No `await` has returned at first. -/
theorem awaits_new : Awaits State.new := by
  constructor
  · exact allJustified_nil
  · intro t threw ht
    cases ht

/-- Events that say nothing about an `await`. -/
def Event.plain : Event → Bool
  | .cond _ _ => false
  | .returned _ => false
  | .threw _ => false
  | .prepared _ => true
  | .left _ => true
  | .notified _ => true
  | .finished _ _ => true

/-- What is not about a condition does not end an `await` wrongly. -/
theorem Event.plain_ok {e : Event} (he : e.plain = true) (pre : List Event) : AwaitOk pre e := by
  cases e with
  | returned _ | threw _ => cases he
  | _ => trivial

/-- Nor is it a condition. -/
theorem Event.plain_condOf {e : Event} (he : e.plain = true) (t : ℕ) : e.condOf t = none := by
  cases e with
  | cond _ _ => cases he
  | _ => rfl

/-- The last condition changes only where one is called. -/
theorem lastCond_append (log : List Event) (hes : ∀ e ∈ es, e.condOf t = none) :
    lastCond t (log ++ es) = lastCond t log := by
  have hnone : es.filterMap (Event.condOf t) = [] := List.filterMap_eq_nil_iff.mpr hes
  rw [lastCond, List.filterMap_append, hnone, List.append_nil, lastCond]

/-- The last condition is the one just evaluated. -/
theorem lastCond_cond (log : List Event) (t : ℕ) (r : Result) :
    lastCond t (log ++ [.cond t r]) = some r := by
  have hsome : (Event.cond t r).condOf t = some r := if_pos rfl
  rw [lastCond, List.filterMap_append, List.filterMap_cons_some hsome]
  exact List.getLast?_concat ..

/-- Steps that are no part of an `await`, or only go on with it. -/
theorem Awaits.keep (h : Awaits s) (hlog : s'.log = s.log ++ es)
    (hpc : ∀ u threw, s'.pc u = .awaitCancel threw → s.pc u = .awaitCancel threw)
    (hes : ∀ e ∈ es, e.plain = true) : Awaits s' := by
  constructor
  · rw [hlog]
    exact h.ok.append fun e he pre => Event.plain_ok (hes e he) pre
  · intro u threw hu
    rw [hlog, lastCond_append s.log fun e he => Event.plain_condOf (hes e he) u]
    exact h.cancel u threw (hpc u threw hu)

/-- A thread that goes elsewhere. -/
theorem cancel_of_goto {s₁ : State} (h : s₁.pc = Function.update s.pc t pc)
    (hpc : ∀ threw, pc ≠ .awaitCancel threw) (u : ℕ) (threw : Bool)
    (hu : s₁.pc u = .awaitCancel threw) : s.pc u = .awaitCancel threw := by
  rw [h] at hu
  by_cases hut : u = t
  · subst hut
    rw [Function.update_self] at hu
    exact absurd hu (hpc threw)
  · rwa [Function.update_of_ne hut] at hu

/-- Unblocking threads cancels nothing. -/
theorem cancel_of_unblocked {u : ℕ} {threw : Bool} (h : (s.pc u).unblocked = .awaitCancel threw) :
    s.pc u = .awaitCancel threw := by
  cases hpc : s.pc u with
  | blocked await key since seen =>
      rw [hpc] at h
      cases h
  | _ => rwa [hpc] at h

/-- A thread that is unblocked goes on with the same condition. -/
theorem awaits_unblock (h : Awaits s) (u : ℕ) : Awaits (unblock s u) := by
  refine h.keep (List.append_nil _).symm (fun v threw hv => ?_) fun e he => by cases he
  change Function.update s.pc u _ v = _ at hv
  by_cases hvu : v = u
  · subst hvu
    rw [Function.update_self] at hv
    exact cancel_of_unblocked hv
  · rwa [Function.update_of_ne hvu] at hv

/-- Leaving without an `await` that ends. -/
theorem awaits_leave (hc : Counts s) (h : Awaits s) (ht : (s.pc t).waits = true)
    (hes : Leaves s t pc es) : Awaits (subWaiter s t pc es) := by
  have hcancel : ∀ threw, pc ≠ .awaitCancel threw := by
    intro threw hpc
    have hwaits := hes.waits
    rw [hpc] at hwaits
    cases hwaits
  cases hes with
  | wait _ _ =>
      refine h.keep (subWaiter_log ..) (cancel_of_goto (subWaiter_pc ..) hcancel) fun e he => ?_
      rw [List.mem_singleton.mp he]
      rfl
  | await threw hpc =>
      have hleft : Awaits (subWaiter s t .idle []) := by
        refine h.keep (subWaiter_log ..) (cancel_of_goto (subWaiter_pc ..) hcancel) fun e he => ?_
        rw [List.mem_singleton.mp he]
        rfl
      have hlog := subWaiter_log s t .idle []
      have hlast : lastCond t (subWaiter s t .idle []).log =
          some (if threw then .throws else .yes) := by
        rw [hlog, lastCond_append _ (fun e he => by rw [List.mem_singleton.mp he]; rfl)]
        exact h.cancel t threw hpc
      have hcount := (hc.leave ht (rfl : Pc.idle.waits = false)).each t
      rw [subWaiter_pc, Function.update_self] at hcount
      constructor
      · rw [subWaiter_log, List.append_cons, ← hlog]
        apply allJustified_snoc hleft.ok
        cases threw with
        | true => exact ⟨hlast, hcount⟩
        | false => exact ⟨hlast, hcount⟩
      · intro u threw' hu
        have hu' := cancel_of_goto (subWaiter_pc ..) hcancel u threw' hu
        rw [subWaiter_log, lastCond_append]
        · exact h.cancel u threw' hu'
        · intro e he
          cases threw <;> simp at he <;> rcases he with rfl | rfl <;> rfl

/-- The condition is called. -/
theorem awaits_go (hc : Counts s) (h : Awaits s) (hwaits : pc.waits = (s.pc t).waits)
    (hes : Calls s t pc es) : Awaits ((s.goto t pc).logged es) := by
  have hlog : ((s.goto t pc).logged es).log = s.log ++ es := by
    rw [State.logged_log, State.goto_log]
  have hpc : ((s.goto t pc).logged es).pc = Function.update s.pc t pc := by
    rw [State.logged_pc, State.goto_pc]
  -- calling the condition is always in order, and only matters to `t`
  have hcond : ∀ r, AllJustified AwaitOk (s.log ++ [.cond t r]) :=
    fun r => allJustified_snoc h.ok trivial
  have hother : ∀ u, u ≠ t → lastCond u (s.log ++ es) = lastCond u s.log := by
    intro u hu
    apply lastCond_append
    intro e he
    have hne : ∀ r, (Event.cond t r).condOf u = none := fun r => if_neg hu.symm
    cases hes <;> simp at he
    · rw [he, hne]
    · rw [he, hne]
    · rw [he, hne]
    · rcases he with rfl | rfl
      · exact hne _
      · rfl
    · rcases he with rfl | rfl
      · exact hne _
      · rfl
  have hcancel : (∀ threw, pc = .awaitCancel threw →
      lastCond t (s.log ++ es) = some (if threw then .throws else .yes)) →
      ∀ u threw, ((s.goto t pc).logged es).pc u = .awaitCancel threw →
        lastCond u ((s.goto t pc).logged es).log = some (if threw then .throws else .yes) := by
    intro hself u threw hu
    rw [hlog]
    rw [hpc] at hu
    by_cases hut : u = t
    · subst hut
      rw [Function.update_self] at hu
      exact hself threw hu
    · rw [Function.update_of_ne hut] at hu
      rw [hother u hut]
      exact h.cancel u threw hu
  -- outside the loop the thread is not counted
  have hcount : ∀ r, pc = .idle →
      List.count (.prepared t) (s.log ++ [.cond t r]) =
        List.count (.left t) (s.log ++ [.cond t r]) := by
    rintro r rfl
    have heach := hc.each t
    rw [← hwaits] at heach
    rw [List.count_append, List.count_append, heach]
    rfl
  cases hes with
  | silent _ hne =>
      exact ⟨by rw [hlog, List.append_nil]; exact h.ok,
        hcancel fun threw heq => absurd heq (hne threw)⟩
  | again _ hne =>
      exact ⟨by rw [hlog]; exact hcond _, hcancel fun threw heq => absurd heq (hne threw)⟩
  | cancel =>
      refine ⟨by rw [hlog]; exact hcond _, hcancel ?_⟩
      rintro threw ⟨⟩
      exact lastCond_cond s.log t .yes
  | abort =>
      refine ⟨by rw [hlog]; exact hcond _, hcancel ?_⟩
      rintro threw ⟨⟩
      exact lastCond_cond s.log t .throws
  | returns hfirst =>
      refine ⟨?_, hcancel fun threw heq => by cases heq⟩
      rw [hlog, List.append_cons]
      exact allJustified_snoc (hcond _) ⟨lastCond_cond .., hcount _ rfl⟩
  | throws hfirst =>
      refine ⟨?_, hcancel fun threw heq => by cases heq⟩
      rw [hlog, List.append_cons]
      exact allJustified_snoc (hcond _) ⟨lastCond_cond .., hcount _ rfl⟩

/-- Every step keeps what is known of the calls of `await`. -/
theorem awaits_step (hc : Counts s) (h : Awaits s) (hstep : Step s s') : Awaits s' := by
  cases hstep with
  | prepare t await ht hroom =>
      refine h.keep (prepareWait_log ..) (cancel_of_goto (prepareWait_pc ..) (by simp)) ?_
      intro e he
      rw [List.mem_singleton.mp he]
      rfl
  | leave t pc es ht hes => exact awaits_leave hc h ht hes
  | notify t all ht =>
      have hlog : (((s.fetchAdd kAddEpoch).logged [.notified t]).goto t
          (.wake all (notified s.log))).log = s.log ++ [.notified t] := by
        rw [State.goto_log, State.logged_log, State.fetchAdd_log]
      have hpc : (((s.fetchAdd kAddEpoch).logged [.notified t]).goto t
          (.wake all (notified s.log))).pc =
          Function.update s.pc t (.wake all (notified s.log)) := by
        rw [State.goto_pc, State.logged_pc, State.fetchAdd_pc]
      refine h.keep hlog (cancel_of_goto hpc (by simp)) ?_
      intro e he
      rw [List.mem_singleton.mp he]
      rfl
  | notifyNobody t es hnone hes =>
      have hlog : (((s.fetchAdd kAddEpoch).logged [.notified t]).logged es).log =
          s.log ++ ([.notified t] ++ es) := by
        rw [State.logged_log, State.logged_log, State.fetchAdd_log, List.append_assoc]
      refine h.keep hlog (fun u threw hu => ?_) ?_
      · rwa [State.logged_pc, State.logged_pc, State.fetchAdd_pc] at hu
      · intro e he
        rcases hes with rfl | rfl <;> simp at he
        · rw [he]
          rfl
        · rcases he with rfl | rfl <;> rfl
  | go t pc es hwaits hkeyed hblocked hes => exact awaits_go hc h hwaits hes
  | block t await key since ht hkey hbound =>
      exact h.keep (List.append_nil _).symm (cancel_of_goto (t := t) rfl (by simp))
        fun e he => by cases he
  | wakeAll t k ht =>
      refine h.keep rfl (fun u threw hu => ?_) fun e he => by rw [List.mem_singleton.mp he]; rfl
      have hu' := cancel_of_goto (s := wakeAll s k) (t := t) rfl (by simp) u threw hu
      change (if _ then _ else _ : Pc) = _ at hu'
      split at hu'
      · exact cancel_of_unblocked hu'
      · exact hu'
  | unblock u => exact awaits_unblock h u
  | wakeOne t k u ht hu =>
      exact (awaits_unblock h u).keep (List.append_nil _).symm
        (cancel_of_goto (t := t) rfl (by simp)) fun e he => by cases he
  | wakeNobody t k ht =>
      exact h.keep (List.append_nil _).symm (cancel_of_goto (t := t) rfl (by simp))
        fun e he => by cases he

/-! ## The result -/

/-- The invariant that carries the result. -/
structure Inv (s : State) : Prop where
  counts : Counts s
  wakes : Wakes s
  awaits : Awaits s

/-- The invariant holds in every run within the bounds. -/
theorem inv_run {as : List Act} (h : machine.Run Bounds State.new as s) : Inv s := by
  refine h.invariant ?_ ⟨counts_new, wakes_new, awaits_new⟩
  rintro s a s' ⟨hc, hw, ha⟩ hok hstep
  have hcases := step_cases hok hstep
  exact ⟨counts_step hc hcases, wakes_step hc hw hcases, awaits_step hc ha hcases⟩

/-- A thread waits while it is counted. -/
theorem Counts.waiting_iff (h : Counts s) (t : ℕ) :
    Waiting s.log t ↔ (s.pc t).waits = true := by
  rw [Waiting, h.each t]
  cases (s.pc t).waits <;> simp

/-- **No wake-up is lost.** With fewer than `2 ^ 32` waiters, and fewer than `2 ^ 32` notifications
between a `prepare_wait` and each comparison of its `wait`. -/
theorem sound_of_run (as : List Act) (s : State) (h : machine.Run Bounds State.new as s) :
    Sound s := by
  obtain ⟨hc, hw, ha⟩ := inv_run h
  constructor
  · rw [hc.packs.low, ← hc.card]
    simp only [hc.waiting_iff]
  · exact hc.packs.high
  · intro t ht
    exact hc.packs.hasWaiters_iff.mpr (hc.pos ht)
  · exact hw.woken
  · exact ha.ok

/-- An `await` blocks, a `notify_all` wakes it, and it returns once the condition is true. -/
theorem sound_of_run_await :
    ∃ s : State, machine.Run Bounds State.new
        [.await 0, .cond 0 .no, .step 0, .cond 0 .no, .step 0, .notify 1 true, .step 1, .step 0,
          .step 0, .step 0, .cond 0 .yes, .step 0] s ∧
      s.mVal = kAddEpoch ∧
      s.log = [.cond 0 .no, .prepared 0, .cond 0 .no, .notified 1, .finished 1 0, .left 0,
        .prepared 0, .cond 0 .yes, .left 0, .returned 0] ∧
      Sound s := by
  have h : (machine.exec Bounds State.new
      [.await 0, .cond 0 .no, .step 0, .cond 0 .no, .step 0, .notify 1 true, .step 1, .step 0,
        .step 0, .step 0, .cond 0 .yes, .step 0]).map (fun s => (s.mVal, s.log)) =
      some (kAddEpoch, [.cond 0 .no, .prepared 0, .cond 0 .no, .notified 1, .finished 1 0,
        .left 0, .prepared 0, .cond 0 .yes, .left 0, .returned 0]) := by
    decide
  obtain ⟨s, hs, heq⟩ := Option.map_eq_some_iff.mp h
  obtain ⟨hval, hlog⟩ := Prod.mk.inj heq
  have hrun := Machine.run_iff_exec.mpr hs
  exact ⟨s, hrun, hval, hlog, sound_of_run _ s hrun⟩

/-! ## A sleeper that compares late -/

/-- With `w` waiters and after `n` notifications, the call at `pc` keeps the bounds. -/
def Pc.CallInBounds (w n : ℕ) : Pc → Prop
  | .awaitPrepare => w + 1 < 2 ^ 32
  | .prepared _ _ since => n - since < 2 ^ 32
  | _ => True

instance (w n : ℕ) : ∀ pc : Pc, Decidable (pc.CallInBounds w n)
  | .awaitPrepare => inferInstanceAs (Decidable (_ < _))
  | .prepared _ _ _ => inferInstanceAs (Decidable (_ < _))
  | .check _ _ _ => inferInstanceAs (Decidable True)
  | .idle => inferInstanceAs (Decidable True)
  | .blocked _ _ _ _ => inferInstanceAs (Decidable True)
  | .leave _ => inferInstanceAs (Decidable True)
  | .wake _ _ => inferInstanceAs (Decidable True)
  | .awaitCond => inferInstanceAs (Decidable True)
  | .awaitCancel _ => inferInstanceAs (Decidable True)

/-- The bounds where `wait` is called, but not where it compares. -/
def CallBounds (s : State) : Act → Prop
  | .prepare _ => waiters s.log + 1 < 2 ^ 32
  | .wait t => (s.pc t).CallInBounds (waiters s.log) (notified s.log)
  | .cond t _ => (s.pc t).CallInBounds (waiters s.log) (notified s.log)
  | .step t => (s.pc t).CallInBounds (waiters s.log) (notified s.log)
  | _ => True

instance (s : State) : ∀ a : Act, Decidable (CallBounds s a)
  | .prepare _ => inferInstanceAs (Decidable (_ < _))
  | .wait t => inferInstanceAs (Decidable ((s.pc t).CallInBounds _ _))
  | .cond t _ => inferInstanceAs (Decidable ((s.pc t).CallInBounds _ _))
  | .step t => inferInstanceAs (Decidable ((s.pc t).CallInBounds _ _))
  | .cancel _ => inferInstanceAs (Decidable True)
  | .notify _ _ => inferInstanceAs (Decidable True)
  | .await _ => inferInstanceAs (Decidable True)
  | .wakeOne _ _ => inferInstanceAs (Decidable True)
  | .spurious _ => inferInstanceAs (Decidable True)

/-- Thread `0` prepares and calls `wait`, which compares at once and blocks. -/
def fallAsleep : List Act := [.prepare 0, .wait 0, .step 0]

/-- Thread `1` calls `notify_all`, `n` times. -/
def notifyAlls : ℕ → List Act
  | 0 => []
  | n + 1 => notifyAlls n ++ [.notify 1 true, .step 1]

/-- Thread `0` has been unblocked, and there have been `n` notifications. -/
structure Unblocked (n : ℕ) (s : State) : Prop where
  packs : Packs s.mVal n 1
  count : notified s.log = n
  checking : s.pc 0 = .check false 0 0
  idle : s.pc 1 = .idle
  finished : .finished 1 0 ∈ s.log

/-- The first notification unblocks the sleeper. -/
theorem exists_unblocked :
    ∃ s, machine.Run CallBounds State.new (fallAsleep ++ notifyAlls 1) s ∧ Unblocked 1 s := by
  have h : (machine.exec CallBounds State.new (fallAsleep ++ notifyAlls 1)).map
      (fun s => (s.mVal, s.pc 0, s.pc 1, s.log)) = some (kAddWaiter + kAddEpoch,
        .check false 0 0, .idle, [.prepared 0, .notified 1, .finished 1 0]) := by
    decide
  obtain ⟨s, hs, heq⟩ := Option.map_eq_some_iff.mp h
  simp only [Prod.mk.injEq] at heq
  obtain ⟨hval, hchecking, hidle, hlog⟩ := heq
  refine ⟨s, Machine.run_iff_exec.mpr hs, ?_, ?_, hchecking, hidle, ?_⟩
  · rw [hval]
    exact (packs_zero.addWaiter (by decide)).addEpoch
  · rw [hlog]
    rfl
  · rw [hlog]
    simp

/-- Another notification finds nobody to unblock. -/
theorem Unblocked.next {n : ℕ} (h : Unblocked n s) :
    ∃ s', machine.Run CallBounds s [.notify 1 true, .step 1] s' ∧ Unblocked (n + 1) s' := by
  have hwaiters : hasWaiters s.mVal = true := h.packs.hasWaiters_iff.mpr (by decide)
  let s₁ := ((s.fetchAdd kAddEpoch).logged [.notified 1]).goto 1 (.wake true (notified s.log))
  have hnotify : machine.step s (.notify 1 true) = some s₁ := by
    change idleCall s 1 (notifyAdd s 1 true) = _
    simp only [idleCall, h.idle, notifyAdd, hwaiters, if_true, s₁]
  have hpc₁ : s₁.pc = Function.update s.pc 1 (.wake true (notified s.log)) := by
    rw [State.goto_pc, State.logged_pc, State.fetchAdd_pc]
  have hlog₁ : s₁.log = s.log ++ [.notified 1] := by
    rw [State.goto_log, State.logged_log, State.fetchAdd_log]
  have hval₁ : s₁.mVal = s.mVal + kAddEpoch := by
    rw [State.goto_mVal, State.logged_mVal, State.fetchAdd_mVal]
  have hwake : s₁.pc 1 = .wake true (notified s.log) := by
    rw [hpc₁, Function.update_self]
  have hchecking : s₁.pc 0 = .check false 0 0 := by
    rw [hpc₁, Function.update_of_ne (by decide), h.checking]
  let s₂ := ((wakeAll s₁ (notified s.log)).goto 1 .idle).logged [.finished 1 (notified s.log)]
  have hstep : machine.step s₁ (.step 1) = some s₂ := by
    change threadStep s₁ 1 = _
    simp only [threadStep, hwake, s₂]
  have hpc₂ : s₂.pc = Function.update (wakeAll s₁ (notified s.log)).pc 1 .idle := by
    rw [State.logged_pc, State.goto_pc]
  have hlog₂ : s₂.log = s₁.log ++ [.finished 1 (notified s.log)] := by
    rw [State.logged_log, State.goto_log]
    rfl
  have hval₂ : s₂.mVal = s₁.mVal := by
    rw [State.logged_mVal, State.goto_mVal]
    rfl
  refine ⟨s₂, ⟨trivial, s₁, hnotify, by rw [CallBounds, hwake]; trivial, s₂, hstep, rfl⟩, ?_⟩
  constructor
  · rw [hval₂, hval₁]
    exact h.packs.addEpoch
  · rw [hlog₂, hlog₁, notified_snoc, notified_snoc, h.count]
    rfl
  · rw [hpc₂, Function.update_of_ne (by decide), wakeAll]
    simp only [hchecking, Pc.eligible, Bool.false_eq_true, if_false]
  · rw [hpc₂, Function.update_self]
  · rw [hlog₂, hlog₁]
    exact List.mem_append_left _ (List.mem_append_left _ h.finished)

/-- **A thread that is unblocked and compares `2 ^ 32` notifications after its `prepare_wait`**
blocks again, although every `notify_all` is finished. -/
theorem not_sound_late : ∃ s, machine.Run CallBounds State.new
      (fallAsleep ++ notifyAlls (2 ^ 32) ++ [.step 0]) s ∧
    s.pc 0 = .blocked false 0 0 (2 ^ 32) ∧ .finished 1 0 ∈ s.log ∧ ¬ Sound s := by
  have hrounds : ∀ n, 1 ≤ n → ∃ s, machine.Run CallBounds State.new (fallAsleep ++ notifyAlls n) s ∧
      Unblocked n s := by
    intro n hn
    induction n, hn using Nat.le_induction with
    | base => exact exists_unblocked
    | succ n _ ih =>
      obtain ⟨s, hrun, h⟩ := ih
      obtain ⟨s', hrun', h'⟩ := h.next
      refine ⟨s', ?_, h'⟩
      rw [notifyAlls, ← List.append_assoc]
      exact Machine.run_append.mpr ⟨s, hrun, hrun'⟩
  obtain ⟨s, hrun, h⟩ := hrounds (2 ^ 32) (by decide)
  have hepoch : epoch s.mVal = 0 := h.packs.epoch_eq
  have hstep : machine.step s (.step 0) = some
      { s.goto 0 (.blocked false 0 0 (notified s.log)) with queue := s.queue ++ [0] } := by
    change threadStep s 0 = _
    simp only [threadStep, h.checking, hepoch, if_true]
  have hblocked : Function.update s.pc 0 (.blocked false 0 0 (notified s.log)) 0 =
      .blocked false 0 0 (2 ^ 32) := by
    rw [Function.update_self, h.count]
  refine ⟨_,
    Machine.run_append.mpr ⟨s, hrun, by rw [CallBounds, h.checking]; trivial, _, hstep, rfl⟩,
    hblocked, h.finished, fun hsound => ?_⟩
  exact absurd (hsound.woken 0 _ _ _ _ hblocked 1 0 h.finished) (Nat.lt_irrefl 0)

end Libfork.EventCount
