import Libfork.Lazy.Keyed

/-!
# No wake-up is lost

A worker looks at its submission list, and then at `stop`, between its `prepare_wait` and its
`wait`. Whoever pushes, and whoever stops the pool, notifies afterwards.

* `Pc.Told` — what a worker that has looked too early can count on: it was notified since its
  `prepare_wait`, or it will be, and if it is blocked by now there is somebody who is going to
  notify the epoch.
* **`told_step`** — no step of the pool takes that away.
* `Listed`, `Stopped` — the two conditions a worker looks at.
* **`wakeups_kept`** — in every state of every run a blocked worker with a submission has a
  `schedule` that is not through, and a blocked worker of a pool that was stopped has a destructor
  that is not through with its domain.
* `wakeup_lost` — `2 ^ 32` waiters in one domain read as none, and the notification is skipped; and
  a worker that is unblocked and compares `2 ^ 32` notifications late blocks again.

Source: `lazy_pool.hpp`, `lazy_work`, `~lazy_pool`; `context.hpp`, `schedule`;
`event_count.hpp`.
-/

namespace Libfork.Lazy

open Libfork.Found Libfork.EventCount

/-- What a worker of a domain with `n` notifications can count on once it has looked at a
condition. `early`: somebody will notify the domain. `late k`: somebody is going to notify the
epoch, after `k` other notifications. `first`: the condition is looked at before `stop`. -/
def Pc.Told (first : Prop) (n : ℕ) (early : Prop) (late : ℕ → Prop) : Pc → Prop
  | .testStop _ since => first → since < n ∨ early
  | .sleep _ since | .loadActive _ since | .check _ since => since < n ∨ early
  | .blocked _ _ seen => early ∨ ∃ k, late k ∧ seen ≤ k
  | _ => True

variable {K : Config} {s s' : State} {a : Act} {w : ℕ} {pc : Pc}
variable {first early early' : Prop} {late late' : ℕ → Prop} {n n' : ℕ}

/-! ## The rules -/

/-- A worker can count on more, as there is more. -/
theorem Pc.Told.mono (h : pc.Told first n early late) (hn : n ≤ n') (hearly : early → early')
    (hlate : ∀ k, late k → late' k) : pc.Told first n' early' late' := by
  cases pc with
  | testStop => exact fun hf => (h hf).imp (fun hlt => Nat.lt_of_lt_of_le hlt hn) hearly
  | sleep | loadActive | check => exact h.imp (fun hlt => Nat.lt_of_lt_of_le hlt hn) hearly
  | blocked => exact h.imp hearly fun ⟨k, hk, hseen⟩ => ⟨k, hlate k hk, hseen⟩
  | _ => trivial

/-- Somebody is through with the epoch, and the worker was not blocked before. -/
theorem Pc.Told.through (h : pc.Told first n early late) (hearly : early → early')
    (hlate : ∀ k key since seen, pc = .blocked key since seen → seen ≤ k → late k → late' k) :
    pc.Told first n early' late' := by
  cases pc with
  | testStop => exact fun hf => (h hf).imp id hearly
  | sleep | loadActive | check => exact h.imp id hearly
  | blocked => exact h.imp hearly fun ⟨k, hk, hseen⟩ => ⟨k, hlate k _ _ _ rfl hseen hk, hseen⟩
  | _ => trivial

/-- A worker can count on a notification that is still to come. -/
theorem told_of_early (h : early) : pc.Told first n early late := by
  cases pc with
  | testStop => exact fun _ => Or.inr h
  | sleep | loadActive | check => exact Or.inr h
  | blocked => exact Or.inl h
  | _ => trivial

/-- An unblocked worker compares again, and was notified. -/
theorem Pc.Told.unblocked {m : ℕ → ℕ} {i : ℕ} (h : pc.Told first (m i) early late)
    (hrecalls : pc.Recalls m i) (hlate : ∀ k, late k → k < m i) :
    pc.unblocked.Told first (m i) early late := by
  cases pc with
  | blocked =>
    obtain hearly | ⟨k, hk, hseen⟩ := h
    · exact Or.inr hearly
    · exact Or.inl (Nat.lt_of_le_of_lt (hrecalls.2.1.trans hseen) (hlate k hk))
  | _ => exact h

/-- A notification tells everybody in the domain, and whoever is blocked finds the notifier on
its way to the epoch. -/
theorem told_of_notified {m : ℕ → ℕ} {i : ℕ} (hrecalls : pc.Recalls m i) (hn : n = m i + 1)
    (hlate : pc.waits = true → late (m i)) : pc.Told first n early late := by
  subst hn
  cases pc with
  | testStop => exact fun _ => Or.inl (Nat.lt_succ_of_le hrecalls.2)
  | sleep | loadActive | check => exact Or.inl (Nat.lt_succ_of_le hrecalls.2)
  | blocked => exact Or.inr ⟨_, hlate rfl, hrecalls.2.2⟩
  | _ => trivial

/-! ## The steps -/

/-- What a worker can count on after an access that changes nothing else. -/
theorem Quiet.told (h : Quiet K s w pc) (hs : Sound K s) (hpop : first → s.submit w ≠ [])
    (hgo : ¬ first → s.stop = true)
    (htold : (s.worker w).Told first (s.notified (K.node w)) early late) :
    pc.Told first (s.notified (K.node w)) early late := by
  cases h with
  | popAgain _ hq => exact fun hf => absurd hq (hpop hf)
  | going hpc hstop =>
    rw [hpc] at htold
    by_cases hf : first
    · exact htold hf
    · rw [hgo hf] at hstop
      cases hstop
  | calm hpc _ => rw [hpc] at htold; exact htold
  | block hpc hepoch hbound =>
    have hsince := hs.passes hpc hepoch hbound
    rw [hpc] at htold
    exact Or.inl (htold.resolve_left (Nat.not_lt_of_le (Nat.le_of_eq hsince.symm)))
  | skip | loopNobody =>
    unfold afterDomain
    split <;> trivial
  | _ => trivial

/-- What it can count on after any access of its own. -/
theorem Own.told (h : Own K s w pc) (hs : Sound K s) (hpop : first → s.submit w ≠ [])
    (hgo : ¬ first → s.stop = true)
    (htold : (s.worker w).Told first (s.notified (K.node w)) early late) :
    pc.Told first (s.notified (K.node w)) early late := by
  cases h with
  | quiet hq => exact hq.told hs hpop hgo htold
  | sub hsub =>
    cases hsub with
    | sleepLast hpc _ | sleep hpc _ => rw [hpc] at htold; exact htold
    | _ => trivial
  | leave hl => cases hl <;> trivial
  | notify hn =>
    cases hn with
    | loopNone => unfold afterDomain; split <;> trivial
    | _ => trivial
  | wakes hwake =>
    cases hwake with
    | last => trivial
    | loop => unfold afterDomain; split <;> trivial
  | _ => trivial

/-- **No step takes away what a worker can count on**, as long as the condition stays true. -/
theorem told_step (hs : Sound K s) (hm : Moves K s a s') (hpop : first → s.submit w ≠ [])
    (hgo : ¬ first → s.stop = true) (hlate : ∀ k, late k → k < s.notified (K.node w))
    (htold : (s.worker w).Told first (s.notified (K.node w)) early late) :
    (s'.worker w).Told first (s'.notified (K.node w)) early late := by
  have hnow : (s'.worker w).Told first (s.notified (K.node w)) early late := by
    obtain hsame | hunblocked | hown := goes_of_moves hm w
    · rw [hsame]
      exact htold
    · rw [hunblocked]
      exact htold.unblocked (hs.keyed.worker w) hlate
    · exact hown.told hs hpop hgo htold
  exact hnow.mono (hm.notified_le _) id fun _ hk => hk

/-- Who notifies the epoch unblocks every worker that blocked before its notification. -/
theorem not_blocked_wakeAll {i k seen since : ℕ} {key : BitVec 32} (hi : K.node w = i)
    (hseen : seen ≤ k) : (wakeAll K s i k).worker w ≠ .blocked key since seen := by
  intro hb
  change (if _ then _ else _ : Pc) = _ at hb
  split at hb
  · cases hpc : s.worker w <;> rw [hpc] at hb <;> cases hb
  · next hnot =>
    rw [hb] at hnot
    exact hnot ⟨hi, decide_eq_true hseen⟩

/-! ## The submission lists -/

/-- A worker with a submission can count on the `schedule`. -/
def Listed (K : Config) (s : State) (w : ℕ) : Prop :=
  s.submit w ≠ [] → (s.worker w).Told True (s.notified (K.node w))
    (∃ c, s.caller c = .notify w) fun k => ∃ c, s.caller c = .wake w k

/-- No list has an entry at first. -/
theorem listed_init (w : ℕ) : Listed K .init w := fun h => absurd rfl h

/-- `try_pop_all` fills no list. -/
theorem submit_of_popAll {v : ℕ} (h : (s.popAll v).submit w ≠ []) : s.submit w ≠ [] := by
  change Function.update s.submit v [] w ≠ [] at h
  obtain rfl | hv := eq_or_ne w v
  · rw [Function.update_self] at h
    exact absurd rfl h
  · rwa [Function.update_of_ne hv] at h

/-- The other calls go on as before. -/
theorem caller_other {c d : ℕ} {p q r : Caller} (hc : s.caller c = r) (hne : r ≠ p)
    (hd : s.caller d = p) : Function.update s.caller c q d = p := by
  obtain rfl | hdc := eq_or_ne d c
  · exact absurd (hc.symm.trans hd) hne
  · rw [Function.update_of_ne hdc, hd]

/-- After every step a worker with a submission can count on the `schedule`. -/
theorem listed_step (hs : Sound K s) (hm : Moves K s a s') (hw : w < K.numThreads)
    (h : Listed K s w) : Listed K s' w := by
  intro hraised
  have hkept : s.submit w ≠ [] → (s'.worker w).Told True (s'.notified (K.node w))
      (∃ c, s.caller c = .notify w) fun k => ∃ c, s.caller c = .wake w k := by
    intro hq
    refine told_step hs hm (fun _ => hq) (fun hf => absurd trivial hf) ?_ (h hq)
    rintro k ⟨c, hc⟩
    have hrecalls := hs.keyed.caller c
    rw [hc] at hrecalls
    exact hrecalls
  cases hm with
  | pop | popAgain => exact hkept (submit_of_popAll hraised)
  | @schedule c v x _ hc =>
    obtain rfl | hv := eq_or_ne w v
    · exact told_of_early ⟨c, Function.update_self ..⟩
    · have hq : s.submit w ≠ [] := by
        change Function.update s.submit v _ w ≠ [] at hraised
        rwa [Function.update_of_ne hv] at hraised
      refine (hkept hq).mono (Nat.le_refl _) ?_ fun k => ?_
      · rintro ⟨d, hd⟩
        exact ⟨d, caller_other hc nofun hd⟩
      · rintro ⟨d, hd⟩
        exact ⟨d, caller_other hc nofun hd⟩
  | @callNotify c v hc =>
    obtain rfl | hv := eq_or_ne w v
    · refine told_of_notified (hs.keyed.worker w) (notify_self ..) fun hwaits => ⟨c, ?_⟩
      rw [if_pos (hs.hasWaiters hw hwaits)]
      exact Function.update_self ..
    · refine (hkept hraised).mono (Nat.le_refl _) ?_ fun k => ?_
      · rintro ⟨d, hd⟩
        exact ⟨d, caller_other hc (fun hcw => hv (Caller.notify.inj hcw).symm) hd⟩
      · rintro ⟨d, hd⟩
        exact ⟨d, caller_other hc nofun hd⟩
  | @callWake c v k hc =>
    refine (hkept hraised).through ?_ fun k' key since seen hb hseen => ?_
    · rintro ⟨d, hd⟩
      exact ⟨d, caller_other hc nofun hd⟩
    · rintro ⟨d, hd⟩
      refine ⟨d, caller_other hc (fun hcw => ?_) hd⟩
      obtain ⟨rfl, rfl⟩ := Caller.wake.inj hcw
      exact not_blocked_wakeAll rfl hseen hb
  | _ => exact hkept hraised

/-! ## The stop -/

/-- The worker has seen the stop. -/
def Pc.stops : Pc → Bool
  | .stopCancel | .stopNotify | .stopWake _ | .stopSub | .stopSet | .exited => true
  | _ => false

/-- The destructor will notify domain `i`. -/
def Destroyer.Ahead (i : ℕ) : Destroyer → Prop
  | .notify j => j ≤ i
  | .wake j _ => j < i
  | _ => False

/-- The worker has not seen a stop that was not requested. -/
def Heeds (s : State) (w : ℕ) : Prop := (s.worker w).stops = true → s.stop = true

/-- A worker of a pool that was stopped can count on the destructor. -/
def Stopped (K : Config) (s : State) (w : ℕ) : Prop :=
  s.stop = true → (s.worker w).Told False (s.notified (K.node w))
    (s.destroyer.Ahead (K.node w)) fun k => s.destroyer = .wake (K.node w) k

/-- No worker has seen a stop at first. -/
theorem heeds_init (w : ℕ) : Heeds .init w := nofun

/-- No stop is requested at first. -/
theorem stopped_init (w : ℕ) : Stopped K .init w := nofun

/-- A stop is not taken back. -/
theorem Moves.stop_mono (hm : Moves K s a s') (h : s.stop = true) : s'.stop = true := by
  cases hm with
  | stopSet | destroy => rfl
  | _ => exact h

/-- A first active has not seen a stop. -/
theorem stops_afterDomain (j : ℕ) : (afterDomain K j).stops = false := by
  unfold afterDomain
  split <;> rfl

/-- Only who finds the stop goes on to stop. -/
theorem Own.stops (h : Own K s w pc) (hstops : pc.stops = true) :
    (s.worker w).stops = true ∨ s.stop = true := by
  cases h with
  | quiet hq =>
    cases hq with
    | stopping _ hs => exact Or.inr hs
    | skip | loopNobody => rw [stops_afterDomain] at hstops; cases hstops
    | _ => cases hstops
  | sub hsub =>
    cases hsub with
    | stop hpc => rw [hpc]; exact Or.inl rfl
    | _ => cases hstops
  | leave hl =>
    cases hl with
    | stop hpc => rw [hpc]; exact Or.inl rfl
    | _ => cases hstops
  | notify hn =>
    cases hn with
    | stopWake hpc _ | stopNone hpc _ => rw [hpc]; exact Or.inl rfl
    | loopNone => rw [stops_afterDomain] at hstops; cases hstops
    | _ => cases hstops
  | stopWake hpc | stopSet hpc => rw [hpc]; exact Or.inl rfl
  | wakes hwake =>
    cases hwake with
    | last => cases hstops
    | loop => rw [stops_afterDomain] at hstops; cases hstops
  | _ => cases hstops

/-- A worker sees a stop only when one is requested. -/
theorem heeds_step (hm : Moves K s a s') (h : Heeds s w) : Heeds s' w := by
  intro hstops
  apply hm.stop_mono
  obtain hsame | hunblocked | hown := goes_of_moves hm w
  · exact h (hsame ▸ hstops)
  · apply h
    rw [hunblocked] at hstops
    cases hpc : s.worker w <;> rw [hpc] at hstops <;> exact hstops
  · exact (hown.stops hstops).elim h id

/-- The destructor goes on to the next domain. -/
theorem ahead_nextDomain {i j : ℕ} (hj : j ≤ i) (hi : i < K.numNuma) :
    (nextDomain K j).Ahead i := by
  rw [nextDomain, if_pos (Nat.lt_of_le_of_lt hj hi)]
  exact hj

/-- After every step a worker of a pool that was stopped can count on the destructor. -/
theorem stopped_step (hs : Sound K s) (hm : Moves K s a s') (hw : w < K.numThreads)
    (hheeds : ∀ u, Heeds s u) (h : Stopped K s w) : Stopped K s' w := by
  intro hraised
  have hkept : s.stop = true → (s'.worker w).Told False (s'.notified (K.node w))
      (s.destroyer.Ahead (K.node w)) fun k => s.destroyer = .wake (K.node w) k := by
    intro hstop
    refine told_step hs hm False.elim (fun _ => hstop) (fun k hd => ?_) (h hstop)
    have hrecalls := hs.keyed.destroyer
    rw [hd] at hrecalls
    exact hrecalls
  cases hm with
  | @stopSet v _ hpc => exact hkept (hheeds v (by rw [hpc]; rfl))
  | destroy => exact told_of_early (ahead_nextDomain (Nat.zero_le _) (K.node_lt w hw))
  | @destroyNotify j hd =>
    obtain rfl | hj := eq_or_ne (K.node w) j
    · refine told_of_notified (hs.keyed.worker w) (notify_self ..) fun hwaits => ?_
      rw [if_pos (hs.hasWaiters hw hwaits)]
      rfl
    · refine (hkept hraised).mono (Nat.le_refl _) (fun hearly => ?_) fun k hk => ?_
      · rw [hd] at hearly
        have hlt : j < K.node w := Nat.lt_of_le_of_ne hearly hj.symm
        change (if _ then _ else _ : Destroyer).Ahead _
        split
        · exact hlt
        · exact ahead_nextDomain hlt (K.node_lt w hw)
      · rw [hd] at hk
        cases hk
  | @destroyWake j k hd =>
    refine (hkept hraised).through (fun hearly => ?_) fun k' key since seen hb hseen hk => ?_
    · rw [hd] at hearly
      exact ahead_nextDomain hearly (K.node_lt w hw)
    · rw [hd] at hk
      obtain ⟨hj, rfl⟩ := Destroyer.wake.inj hk
      exact absurd hb (not_blocked_wakeAll hj.symm hseen)
  | _ => exact hkept hraised

/-! ## Every run -/

/-- What holds in every state of the pool. -/
structure Woken (K : Config) (s : State) : Prop where
  sound : Sound K s
  listed : ∀ w < K.numThreads, Listed K s w
  heeds : ∀ w, Heeds s w
  stopped : ∀ w < K.numThreads, Stopped K s w

/-- What holds in every state of the pool holds at first. -/
theorem woken_init : Woken K .init :=
  ⟨sound_init, fun w _ => listed_init w, heeds_init, fun w _ => stopped_init w⟩

/-- Every step within the bounds keeps it. -/
theorem woken_step (hsmall : K.Small) (h : Woken K s) (hok : Bounds K s a)
    (hstep : (machine K).step s a = some s') : Woken K s' := by
  have hm := moves_of_step hok hstep
  constructor
  · exact sound_step hsmall h.sound hm
  · exact fun w hw => listed_step h.sound hm hw (h.listed w hw)
  · exact fun w => heeds_step hm (h.heeds w)
  · exact fun w hw => stopped_step h.sound hm hw h.heeds (h.stopped w hw)

/-- **No wake-up is lost.** In every run of a pool no domain of which has `2 ^ 32` workers, with
fewer than `2 ^ 32` notifications between a `prepare_wait` and each comparison of its `wait`: while
a worker is blocked, a submission on its list has a `schedule` that is between its push and the end
of its `notify_all`; and once the pool is stopped, the destructor has not yet finished `notify_all`
on the domain of the worker. -/
theorem wakeups_kept (hsmall : K.Small) {as : List Act}
    (hrun : (machine K).Run (Bounds K) .init as s) (hw : w < K.numThreads)
    {key : BitVec 32} {since seen : ℕ} (hblocked : s.worker w = .blocked key since seen) :
    (s.submit w ≠ [] → ∃ c, s.caller c = .notify w ∨ ∃ k, s.caller c = .wake w k) ∧
    (s.stop = true → ∃ j ≤ K.node w, s.destroyer = .notify j ∨ ∃ k, s.destroyer = .wake j k) := by
  have h : Woken K s := hrun.invariant (fun s a s' => woken_step hsmall) woken_init
  constructor
  · intro hq
    have htold := h.listed w hw hq
    rw [hblocked] at htold
    obtain ⟨c, hc⟩ | ⟨k, ⟨c, hc⟩, -⟩ := htold
    · exact ⟨c, Or.inl hc⟩
    · exact ⟨c, Or.inr ⟨k, hc⟩⟩
  · intro hstop
    have htold := h.stopped w hw hstop
    rw [hblocked] at htold
    obtain hahead | ⟨k, hk, -⟩ := htold
    · cases hd : s.destroyer with
      | notify j =>
        rw [hd] at hahead
        exact ⟨j, hahead, Or.inl rfl⟩
      | wake j k =>
        rw [hd] at hahead
        exact ⟨j, Nat.le_of_lt hahead, Or.inr ⟨k, rfl⟩⟩
      | running | joining =>
        rw [hd] at hahead
        exact hahead.elim
    · exact ⟨_, Nat.le_refl _, Or.inr ⟨k, hk⟩⟩

/-! ## A crowd of waiters -/

/-- `n` workers in one domain. -/
def onePool (n : ℕ) : Config where
  numThreads := n
  node := fun _ => 0
  numNuma := 1
  node_lt := fun _ _ => Nat.zero_lt_one

/-- With fewer than `2 ^ 32` workers no domain has more. -/
theorem small_of_lt (h : K.numThreads < 2 ^ 32) : K.Small := fun _ =>
  Nat.lt_of_le_of_lt tally_le h

/-- A pool with one worker, which is blocked when it gets a submission. -/
theorem wakeups_kept_one :
    ∃ s, (machine (onePool 1)).Run (Bounds (onePool 1)) .init
        (List.replicate 9 (Act.step 0) ++ [Act.schedule 0 0 7]) s ∧
      s.submit 0 = [7] ∧ ∃ c, s.caller c = .notify 0 ∨ ∃ k, s.caller c = .wake 0 k := by
  have hrun : ∃ s, (machine (onePool 1)).Run (Bounds (onePool 1)) .init
      (List.replicate 9 (Act.step 0) ++ [Act.schedule 0 0 7]) s ∧
      s.worker 0 = .blocked 0 0 0 ∧ s.submit 0 = [7] :=
    ⟨_, ⟨trivial, _, rfl, trivial, _, rfl, trivial, _, rfl, trivial, _, rfl, trivial, _, rfl,
      trivial, _, rfl, trivial, _, rfl, trivial, _, rfl, Nat.two_pow_pos 32, _, rfl,
      trivial, _, rfl, rfl⟩, rfl, rfl⟩
  obtain ⟨s, hrun, hworker, hsubmit⟩ := hrun
  have h := wakeups_kept (small_of_lt (by decide)) hrun (w := 0) (by decide) hworker
  exact ⟨s, hrun, hsubmit, h.1 (by rw [hsubmit]; exact nofun)⟩

/-- A worker goes on. -/
theorem run_worker {t : State} {as : List Act} (hw : w < K.numThreads) (hpc : s.worker w = pc)
    (hok : pc.InBounds (s.notified (K.node w))) (hstep : workerStep K s w = some s')
    (hrun : (machine K).Run (Bounds K) s' as t) :
    (machine K).Run (Bounds K) s (.step w :: as) t :=
  ⟨by rw [Bounds, hpc]; exact hok, s', (if_pos hw).trans hstep, hrun⟩

/-- Of two places to go to the last one counts. -/
theorem goto_goto (s : State) (w : ℕ) (p q : Pc) : (s.goto w p).goto w q = s.goto w q := by
  unfold State.goto
  rw [Function.update_idem]

/-- The first `n` workers are blocked, the others have not started. -/
def asleep (n : ℕ) : State :=
  { State.init with
    mVal := Function.update (fun _ => 0) 0 (BitVec.ofNat 64 n)
    worker := fun u => if u < n then .blocked 0 0 0 else .wakeUp }

/-- Nobody has slept yet. -/
theorem asleep_zero : asleep 0 = .init := by
  have hval : Function.update (fun _ => 0) 0 (BitVec.ofNat 64 0) = State.init.mVal :=
    Function.update_eq_self 0 _
  unfold asleep
  rw [hval]
  rfl

/-- The counter of waiters holds the number of the sleepers. -/
theorem packs_asleep {n : ℕ} (hn : n < 2 ^ 32) : Packs ((asleep n).mVal 0) 0 n := by
  change Packs (BitVec.ofNat 64 n) 0 n
  constructor
  · rw [BitVec.toNat_ofNat]
    omega
  · rw [BitVec.toNat_ofNat]
    omega

/-- One more worker falls asleep. -/
theorem run_asleep_succ {N : ℕ} (n : ℕ) (hN : n < N) (hn : n + 1 < 2 ^ 32) :
    (machine (onePool N)).Run (Bounds (onePool N)) (asleep n) (List.replicate 9 (Act.step n))
      (asleep (n + 1)) := by
  let s₁ := (asleep n).setThief 0 1
  let s₂ := s₁.fetchAdd 0 kAddWaiter
  let s₃ := s₂.setThief 0 0
  have hkey : epoch ((asleep n).mVal 0) = 0 := (packs_asleep (by omega)).epoch_eq
  have hepoch : epoch ((asleep n).mVal 0 + kAddWaiter) = 0 :=
    ((packs_asleep (by omega)).addWaiter hn).epoch_eq
  have hend : s₃.goto n (.blocked 0 0 0) = asleep (n + 1) := by
    have hthief : s₃.thief = fun _ => 0 :=
      (Function.update_idem ..).trans (Function.update_eq_self 0 _)
    have hval : s₃.mVal = (asleep (n + 1)).mVal :=
      (Function.update_idem ..).trans (congrArg _ (BitVec.ofNat_add ..).symm)
    have hworker : (s₃.goto n (.blocked 0 0 0)).worker = (asleep (n + 1)).worker := by
      funext u
      change _ = if u < n + 1 then Pc.blocked 0 0 0 else .wakeUp
      obtain rfl | hu := eq_or_ne u n
      · rw [goto_self, if_pos (Nat.lt_succ_self u)]
      · rw [goto_other _ _ hu]
        change (if u < n then Pc.blocked 0 0 0 else .wakeUp) = _
        simp only [Nat.lt_succ_iff_lt_or_eq, hu, or_false]
    calc s₃.goto n (.blocked 0 0 0)
        = { asleep (n + 1) with
            thief := s₃.thief
            mVal := s₃.mVal
            worker := (s₃.goto n (.blocked 0 0 0)).worker } := rfl
      _ = asleep (n + 1) := by rw [hthief, hval, hworker]; rfl
  have hpc₀ : (asleep n).worker n = .wakeUp := if_neg (Nat.lt_irrefl n)
  have h₁ : workerStep (onePool N) (asleep n) n = some (s₁.goto n .tryPop) := by
    simp only [workerStep, hpc₀]
    rfl
  have h₂ : workerStep (onePool N) (s₁.goto n .tryPop) n = some (s₁.goto n .trySteal) := by
    simp only [workerStep, goto_self, goto_goto]
    rfl
  have h₃ : workerStep (onePool N) (s₁.goto n .trySteal) n = some (s₁.goto n .prepare) := by
    simp only [workerStep, goto_self, goto_goto]
  have h₄ : workerStep (onePool N) (s₁.goto n .prepare) n = some (s₂.goto n (.popAgain 0 0)) := by
    simp only [workerStep, goto_self]
    change some ((s₂.goto n .prepare).goto n (.popAgain (epoch ((asleep n).mVal 0)) 0)) = _
    rw [goto_goto, hkey]
  have h₅ : workerStep (onePool N) (s₂.goto n (.popAgain 0 0)) n =
      some (s₂.goto n (.testStop 0 0)) := by
    simp only [workerStep, goto_self, goto_goto]
    rfl
  have h₆ : workerStep (onePool N) (s₂.goto n (.testStop 0 0)) n =
      some (s₂.goto n (.sleep 0 0)) := by
    simp only [workerStep, goto_self, goto_goto]
    rfl
  have h₇ : workerStep (onePool N) (s₂.goto n (.sleep 0 0)) n =
      some (s₃.goto n (.loadActive 0 0)) := by
    simp only [workerStep, goto_self]
    change some ((s₃.goto n (.sleep 0 0)).goto n (.loadActive 0 0)) = _
    rw [goto_goto]
  have h₈ : workerStep (onePool N) (s₃.goto n (.loadActive 0 0)) n =
      some (s₃.goto n (.check 0 0)) := by
    simp only [workerStep, goto_self, goto_goto]
    rfl
  have h₉ : workerStep (onePool N) (s₃.goto n (.check 0 0)) n =
      some (s₃.goto n (.blocked 0 0 0)) := by
    simp only [workerStep, goto_self, goto_goto]
    change some (s₃.goto n (if epoch ((asleep n).mVal 0 + kAddWaiter) = 0 then _ else _)) = _
    rw [if_pos hepoch]
    rfl
  rw [← hend]
  exact run_worker hN hpc₀ trivial h₁ <| run_worker hN (goto_self ..) trivial h₂ <|
    run_worker hN (goto_self ..) trivial h₃ <| run_worker hN (goto_self ..) trivial h₄ <|
    run_worker hN (goto_self ..) trivial h₅ <| run_worker hN (goto_self ..) trivial h₆ <|
    run_worker hN (goto_self ..) trivial h₇ <| run_worker hN (goto_self ..) trivial h₈ <|
    run_worker hN (goto_self ..) (Nat.two_pow_pos 32) h₉ rfl

/-- The workers go to sleep one by one. -/
theorem run_asleep {N n : ℕ} (hN : n ≤ N) (hn : n < 2 ^ 32) :
    ∃ as, (machine (onePool N)).Run (Bounds (onePool N)) .init as (asleep n) := by
  induction n with
  | zero => exact ⟨[], asleep_zero.symm⟩
  | succ n ih =>
    obtain ⟨as, hrun⟩ := ih (Nat.le_of_succ_le hN) (Nat.lt_of_succ_lt hn)
    exact ⟨_, Machine.run_append.mpr ⟨_, hrun, run_asleep_succ n hN hn⟩⟩

/-- No `schedule` is on its way. -/
theorem not_on_way (hidle : ∀ c, s.caller c = .idle) :
    ¬ ∃ c, s.caller c = .notify w ∨ ∃ k, s.caller c = .wake w k := by
  rintro ⟨c, hc | ⟨k, hc⟩⟩
  · rw [hidle] at hc
    cases hc
  · rw [hidle] at hc
    cases hc

/-- A crowd of `2 ^ 32` workers: the submission of a blocked one is not notified. -/
theorem exists_uncounted :
    ∃ as s, (machine (onePool (2 ^ 32))).Run (Bounds (onePool (2 ^ 32))) .init as s ∧
      s.worker 0 = .blocked 0 0 0 ∧ s.submit 0 ≠ [] ∧ ∀ c, s.caller c = .idle := by
  obtain ⟨as, hrun⟩ := run_asleep (N := 2 ^ 32) (n := 2 ^ 32 - 1) (by decide) (by decide)
  have hrest : ∃ s, (machine (onePool (2 ^ 32))).Run (Bounds (onePool (2 ^ 32)))
      (asleep (2 ^ 32 - 1))
      (List.replicate 4 (Act.step (2 ^ 32 - 1)) ++ [Act.schedule 0 0 7, Act.call 0]) s ∧
      s.worker 0 = .blocked 0 0 0 ∧ s.submit 0 = [7] ∧ ∀ c, s.caller c = .idle := by
    refine ⟨_, ⟨trivial, _, rfl, trivial, _, rfl, trivial, _, rfl, trivial, _, rfl, trivial, _, rfl,
      trivial, _, rfl, rfl⟩, rfl, rfl, fun c => ?_⟩
    obtain rfl | hc := eq_or_ne c 0
    · rfl
    · exact (Function.update_of_ne hc ..).trans (Function.update_of_ne hc ..)
  obtain ⟨s, hrun', hblocked, hsubmit, hidle⟩ := hrest
  refine ⟨_, s, Machine.run_append.mpr ⟨_, hrun, hrun'⟩, hblocked, ?_, hidle⟩
  rw [hsubmit]
  exact List.cons_ne_nil _ _

/-! ## A worker that compares late -/

/-- After `n` notifications, fewer than `2 ^ 32` of them have followed the `prepare_wait` of a
worker that is about to call `wait`. -/
def Pc.CallInBounds (n : ℕ) : Pc → Prop
  | .sleep _ since | .loadActive _ since => n - since < 2 ^ 32
  | _ => True

/-- A worker calls `wait` only while fewer than `2 ^ 32` notifications have followed its
`prepare_wait`. How long it is in `wait` does not matter. -/
def CallBounds (K : Config) (s : State) : Act → Prop
  | .step w => (s.worker w).CallInBounds (s.notified (K.node w))
  | _ => True

/-- The caller that goes on. -/
theorem setCaller_self (s : State) (c : ℕ) (p : Caller) : (s.setCaller c p).caller c = p :=
  Function.update_self ..

/-- A `schedule` from its push to its end. Somebody prepared to wait, nobody is blocked: it is one
more notification, and a longer list. -/
theorem run_schedule (ok : State → Act → Prop) {N m v : ℕ} (hv : v < N)
    (hcaller : s.caller = fun _ => .idle) (hpacks : Packs (s.mVal 0) n m) (hm : m ≠ 0)
    (hpush : ∀ t, ok t (.schedule 0 v 7)) (hcall : ∀ t, ok t (.call 0)) :
    ∃ t, (machine (onePool N)).Run ok s [.schedule 0 v 7, .call 0, .call 0] t ∧
      t.caller = (fun _ => .idle) ∧ Packs (t.mVal 0) (n + 1) m ∧ t.stop = s.stop ∧
      t.submit v ≠ [] ∧ ∀ u, (s.worker u).isBlocked = false → t.worker u = s.worker u := by
  let s₁ :=
    { s with submit := Function.update s.submit v (7 :: s.submit v) }.setCaller 0 (.notify v)
  let s₂ := (s₁.notify 0).setCaller 0 (.wake v (s₁.notified 0))
  let s₃ := (wakeAll (onePool N) s₂ 0 (s₁.notified 0)).setCaller 0 .idle
  have hidle : s.caller 0 = .idle := by rw [hcaller]
  have hcaller₁ : s₁.caller 0 = .notify v := setCaller_self ..
  have hcaller₂ : s₂.caller 0 = .wake v (s₁.notified 0) := setCaller_self ..
  have h₁ : (machine (onePool N)).step s (.schedule 0 v 7) = some s₁ := if_pos ⟨hv, hidle⟩
  have h₂ : (machine (onePool N)).step s₁ (.call 0) = some s₂ := by
    have hsome : hasWaiters (s.mVal 0) = true := hpacks.hasWaiters_iff.mpr hm
    change callerStep (onePool N) s₁ 0 = _
    simp only [callerStep, hcaller₁]
    change some ((s₁.notify 0).setCaller 0 (if hasWaiters (s.mVal 0) = true then _ else _)) = _
    rw [hsome]
    rfl
  have h₃ : (machine (onePool N)).step s₂ (.call 0) = some s₃ := by
    change callerStep (onePool N) s₂ 0 = _
    simp only [callerStep, hcaller₂]
    rfl
  refine ⟨s₃, ⟨hpush s, s₁, h₁, hcall s₁, s₂, h₂, hcall s₂, s₃, h₃, rfl⟩, ?_, hpacks.addEpoch, rfl,
    ?_, fun u hu => wakeAll_worker (s := s₂) hu⟩
  · change Function.update (Function.update (Function.update s.caller 0 _) 0 _) 0 _ = _
    rw [Function.update_idem, Function.update_idem, hcaller]
    exact Function.update_eq_self 0 _
  · change Function.update s.submit v _ v ≠ []
    rw [Function.update_self]
    exact List.cons_ne_nil _ _

/-- The only worker was unblocked by the first of `n` notifications and has not compared yet. Each
of them belongs to a `schedule` that is through. -/
structure Late (n : ℕ) (s : State) : Prop where
  checking : s.worker 0 = .check 0 0
  packs : Packs (s.mVal 0) n 1
  caller : s.caller = fun _ => .idle
  listed : s.submit 0 ≠ []

/-- The worker falls asleep, and the first `schedule` unblocks it. -/
theorem exists_late : ∃ as s, (machine (onePool 1)).Run (CallBounds (onePool 1)) .init as s ∧
    Late 1 s := by
  let as := List.replicate 9 (Act.step 0) ++ [Act.schedule 0 0 7, Act.call 0, Act.call 0]
  have hrun : ∃ s, (machine (onePool 1)).Run (CallBounds (onePool 1)) .init as s ∧
      s.worker 0 = .check 0 0 ∧ Packs (s.mVal 0) 1 1 ∧ s.submit 0 = [7] ∧
      ∀ c, s.caller c = .idle := by
    refine ⟨_, ⟨trivial, _, rfl, trivial, _, rfl, trivial, _, rfl, trivial, _, rfl, trivial, _, rfl,
      trivial, _, rfl, Nat.two_pow_pos 32, _, rfl, Nat.two_pow_pos 32, _, rfl, trivial, _, rfl,
      trivial, _, rfl, trivial, _, rfl, trivial, _, rfl, rfl⟩, rfl, ⟨rfl, rfl⟩, rfl, fun c => ?_⟩
    obtain rfl | hc := eq_or_ne c 0
    · rfl
    · exact (Function.update_of_ne hc ..).trans <| (Function.update_of_ne hc ..).trans
        (Function.update_of_ne hc ..)
  obtain ⟨s, hrun, hworker, hpacks, hsubmit, hidle⟩ := hrun
  refine ⟨as, s, hrun, hworker, hpacks, funext hidle, ?_⟩
  rw [hsubmit]
  exact List.cons_ne_nil _ _

/-- One more `schedule` goes by. -/
theorem Late.next (h : Late n s) :
    ∃ as s', (machine (onePool 1)).Run (CallBounds (onePool 1)) s as s' ∧ Late (n + 1) s' := by
  obtain ⟨s', hrun, hcaller, hpacks, -, hlisted, hworker⟩ :=
    run_schedule (CallBounds (onePool 1)) Nat.zero_lt_one h.caller h.packs Nat.one_ne_zero
      (fun _ => trivial) fun _ => trivial
  have hchecking : s'.worker 0 = .check 0 0 :=
    (hworker 0 (congrArg Pc.isBlocked h.checking)).trans h.checking
  exact ⟨_, s', hrun, hchecking, hpacks, hcaller, hlisted⟩

/-- A worker that compares after `2 ^ 32` notifications finds its key and blocks. -/
theorem step_check {N m : ℕ} (hw : w < N) (hpc : s.worker w = .check 0 0)
    (hpacks : Packs (s.mVal 0) (2 ^ 32) m) :
    (machine (onePool N)).step s (.step w) = some (s.goto w (.blocked 0 0 (s.notified 0))) := by
  have hepoch : epoch (s.mVal 0) = 0 := hpacks.epoch_eq
  refine (if_pos hw).trans ?_
  simp only [workerStep, hpc]
  change some (s.goto w (if epoch (s.mVal 0) = 0 then _ else _)) = _
  rw [if_pos hepoch]
  rfl

/-- A worker that compares `2 ^ 32` notifications late blocks on its old key, and no `schedule` is
on its way. -/
theorem exists_unnotified :
    ∃ as s, (machine (onePool 1)).Run (CallBounds (onePool 1)) .init as s ∧
      (∃ seen, s.worker 0 = .blocked 0 0 seen) ∧ s.submit 0 ≠ [] ∧ ∀ c, s.caller c = .idle := by
  obtain ⟨as, s, hrun, hfirst⟩ := exists_late
  obtain ⟨bs, t, hrun', h⟩ := Machine.exists_rounds (fun _ _ h => h.next) hfirst (2 ^ 32 - 1)
  have hstep := step_check Nat.zero_lt_one h.checking h.packs
  have hok : CallBounds (onePool 1) t (.step 0) := by
    rw [CallBounds, h.checking]
    trivial
  have hlast : (machine (onePool 1)).Run (CallBounds (onePool 1)) t [.step 0]
      (t.goto 0 (.blocked 0 0 (t.notified 0))) := ⟨hok, _, hstep, rfl⟩
  refine ⟨_, _, Machine.run_append.mpr ⟨s, hrun, Machine.run_append.mpr ⟨t, hrun', hlast⟩⟩,
    ⟨_, goto_self ..⟩, h.listed, fun c => ?_⟩
  change t.caller c = .idle
  rw [h.caller]

/-- A blocked worker has a submission and no `schedule` on its way: in a pool of `2 ^ 32` workers,
which read as no waiter, and in a pool of one worker that compares for the second time
`2 ^ 32` notifications after its `prepare_wait`. -/
theorem wakeup_lost :
    (∃ as s, (machine (onePool (2 ^ 32))).Run (Bounds (onePool (2 ^ 32))) .init as s ∧
      s.worker 0 = .blocked 0 0 0 ∧ s.submit 0 ≠ [] ∧
      ¬ ∃ c, s.caller c = .notify 0 ∨ ∃ k, s.caller c = .wake 0 k) ∧
    ∃ as s, (machine (onePool 1)).Run (CallBounds (onePool 1)) .init as s ∧
      (∃ seen, s.worker 0 = .blocked 0 0 seen) ∧ s.submit 0 ≠ [] ∧
      ¬ ∃ c, s.caller c = .notify 0 ∨ ∃ k, s.caller c = .wake 0 k := by
  obtain ⟨as, s, hrun, hblocked, hsubmit, hidle⟩ := exists_uncounted
  obtain ⟨bs, t, hrun', hblocked', hsubmit', hidle'⟩ := exists_unnotified
  exact ⟨⟨as, s, hrun, hblocked, hsubmit, not_on_way hidle⟩,
    ⟨bs, t, hrun', hblocked', hsubmit', not_on_way hidle'⟩⟩

end Libfork.Lazy
