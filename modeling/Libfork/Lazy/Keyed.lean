import Libfork.Lazy.Counts

/-!
# What the keys and the notifiers remember

* `Keyed` — the key of a worker is the number of notifications before its `prepare_wait`, modulo
  `2 ^ 32`; whoever is about to notify the epoch has counted its notification already.
* **`keyed_step`** — every step keeps that.
* `Sound` — `Counts` and `Keyed` together; `Sound.passes`, a worker that was notified since its
  `prepare_wait` does not block.

Source: `event_count.hpp`.
-/

namespace Libfork.Lazy

open Libfork.Found Libfork.EventCount

/-- What a worker of domain `i` remembers of the notifications of the domains. -/
def Pc.Recalls (n : ℕ → ℕ) (i : ℕ) : Pc → Prop
  | .popAgain key since | .testStop key since | .sleep key since | .loadActive key since
  | .check key since => key = BitVec.ofNat 32 since ∧ since ≤ n i
  | .blocked key since seen => key = BitVec.ofNat 32 since ∧ since ≤ seen ∧ seen ≤ n i
  | .stopWake k | .lastWake k => k < n i
  | .loopWake j k => k < n j
  | _ => True

def Caller.Recalls (K : Config) (n : ℕ → ℕ) : Caller → Prop
  | .wake w k => k < n (K.node w)
  | _ => True

def Destroyer.Recalls (n : ℕ → ℕ) : Destroyer → Prop
  | .wake j k => k < n j
  | _ => True

/-- Everybody remembers right. -/
structure Keyed (K : Config) (s : State) : Prop where
  worker : ∀ w, (s.worker w).Recalls s.notified (K.node w)
  caller : ∀ c, (s.caller c).Recalls K s.notified
  destroyer : s.destroyer.Recalls s.notified

variable {K : Config} {s s' : State} {a : Act} {w i j k : ℕ} {pc : Pc} {n n' : ℕ → ℕ}

/-- At first nobody remembers anything. -/
theorem keyed_init : Keyed K .init := ⟨fun _ => trivial, fun _ => trivial, trivial⟩

/-! ## More notifications -/

/-- What is remembered stays true after further notifications. -/
theorem Pc.Recalls.mono (h : pc.Recalls n i) (hle : ∀ j, n j ≤ n' j) : pc.Recalls n' i := by
  cases pc with
  | popAgain | testStop | sleep | loadActive | check => exact ⟨h.1, h.2.trans (hle i)⟩
  | blocked => exact ⟨h.1, h.2.1, h.2.2.trans (hle i)⟩
  | stopWake | lastWake => exact Nat.lt_of_lt_of_le h (hle i)
  | loopWake j => exact Nat.lt_of_lt_of_le h (hle j)
  | _ => exact h

/-- A worker that is unblocked remembers the same. -/
theorem Pc.Recalls.unblocked (h : pc.Recalls n i) : pc.unblocked.Recalls n i := by
  cases pc with
  | blocked => exact ⟨h.1, h.2.1.trans h.2.2⟩
  | _ => exact h

/-- The domain counts its notification. -/
@[simp] theorem notify_self (s : State) (j : ℕ) : (s.notify j).notified j = s.notified j + 1 :=
  Function.update_self ..

/-! ## The steps -/

/-- A worker goes on, and nobody is notified. -/
theorem Keyed.moves (h : Keyed K s) (hn : s'.notified = s.notified)
    (hcaller : s'.caller = s.caller) (hdestroyer : s'.destroyer = s.destroyer)
    (hworker : s'.worker = Function.update s.worker w pc)
    (hpc : pc.Recalls s.notified (K.node w)) : Keyed K s' := by
  refine ⟨fun u => ?_, fun c => ?_, ?_⟩
  · rw [hn, hworker]
    obtain rfl | hu := eq_or_ne u w
    · rw [Function.update_self]
      exact hpc
    · rw [Function.update_of_ne hu]
      exact h.worker u
  · rw [hn, hcaller]
    exact h.caller c
  · rw [hn, hdestroyer]
    exact h.destroyer

/-- A worker goes on with what it remembers. -/
theorem Keyed.goto (h : Keyed K s) (hpc : pc.Recalls s.notified (K.node w)) :
    Keyed K (s.goto w pc) := h.moves rfl rfl rfl rfl hpc

/-- A notification makes nobody remember wrong. -/
theorem Keyed.notify (h : Keyed K s) (j : ℕ) : Keyed K (s.notify j) := by
  refine ⟨fun u => (h.worker u).mono (notified_le s j), fun c => ?_, ?_⟩
  · have hc := h.caller c
    change (s.caller c).Recalls K _
    cases hpc : s.caller c with
    | wake =>
      rw [hpc] at hc
      exact Nat.lt_of_lt_of_le hc (notified_le s j _)
    | _ => trivial
  · have hd := h.destroyer
    change s.destroyer.Recalls _
    cases hpc : s.destroyer with
    | wake =>
      rw [hpc] at hd
      exact Nat.lt_of_lt_of_le hd (notified_le s j _)
    | _ => trivial

/-- Neither does `epoch()->notify_all()`. -/
theorem Keyed.wakeAll (h : Keyed K s) (i k : ℕ) : Keyed K (wakeAll K s i k) := by
  refine ⟨fun u => ?_, h.caller, h.destroyer⟩
  change (if _ then _ else _ : Pc).Recalls _ _
  split
  · exact (h.worker u).unblocked
  · exact h.worker u

/-- A caller goes on with what it remembers. -/
theorem Keyed.setCaller (h : Keyed K s) {c : ℕ} {p : Caller} (hp : p.Recalls K s.notified) :
    Keyed K (s.setCaller c p) := by
  refine ⟨h.worker, fun d => ?_, h.destroyer⟩
  change (Function.update s.caller c p d).Recalls K _
  obtain rfl | hd := eq_or_ne d c
  · rw [Function.update_self]
    exact hp
  · rw [Function.update_of_ne hd]
    exact h.caller d

/-- So does the destructor. -/
theorem Keyed.setDestroyer (h : Keyed K s) {d : Destroyer} (hd : d.Recalls s.notified) :
    Keyed K (s.setDestroyer d) := ⟨h.worker, h.caller, hd⟩

/-- A first active remembers nothing between two domains. -/
theorem recalls_afterDomain (j : ℕ) : (afterDomain K j).Recalls n i := by
  unfold afterDomain
  split <;> trivial

/-- The destructor remembers nothing between two domains. -/
theorem recalls_nextDomain (j : ℕ) : (nextDomain K j).Recalls n := by
  unfold nextDomain
  split <;> trivial

/-- What a worker remembers after an access that changes nothing else. -/
theorem Quiet.recalls (h : Quiet K s w pc) (hk : Keyed K s) :
    pc.Recalls s.notified (K.node w) := by
  have hw := hk.worker w
  cases h with
  | popAgain hpc _ | going hpc _ | calm hpc _ => rw [hpc] at hw; exact hw
  | block hpc _ _ => rw [hpc] at hw; exact ⟨hw.1, hw.2, Nat.le_refl _⟩
  | skip | loopNobody => exact recalls_afterDomain _
  | _ => trivial

/-- What it remembers after `thief.fetch_sub(1)`. -/
theorem Subs.recalls (h : Subs K s w pc) (hk : Keyed K s) :
    pc.Recalls s.notified (K.node w) := by
  have hw := hk.worker w
  cases h with
  | sleepLast hpc _ | sleep hpc _ => rw [hpc] at hw; exact hw
  | _ => trivial

/-- What it remembers after a notification: the one it made. -/
theorem Notifies.recalls (h : Notifies K s w j pc) :
    pc.Recalls (s.notify j).notified (K.node w) := by
  cases h with
  | stopWake | lastWake | loopWake =>
    change s.notified _ < _
    rw [notify_self]
    exact Nat.lt_succ_self _
  | loopNone => exact recalls_afterDomain _
  | _ => trivial

/-- What it remembers after a `notify_one`. -/
theorem Wakes.recalls (h : Wakes K s w j k pc) : pc.Recalls n i := by
  cases h with
  | last => trivial
  | loop => exact recalls_afterDomain _

/-- **Every step keeps what the keys and the notifiers remember.** -/
theorem keyed_step (hc : Counts K s) (h : Keyed K s) (hm : Moves K s a s') : Keyed K s' := by
  cases hm with
  | quiet _ hq => exact h.goto (hq.recalls h)
  | wakeUp | pop | popAgain | stopSet | activateFirst | activate | deactivate =>
    exact h.moves rfl rfl rfl rfl trivial
  | sub _ hsub => exact h.moves rfl rfl rfl rfl (hsub.recalls h)
  | prepare =>
    exact h.moves rfl rfl rfl rfl ⟨(hc.packs _).epoch_eq, Nat.le_refl _⟩
  | leave _ hl =>
    refine h.moves rfl rfl rfl rfl ?_
    cases hl <;> trivial
  | notify _ hn => exact (h.notify _).goto hn.recalls
  | stopWake => exact (h.wakeAll _ _).goto trivial
  | wakeOne _ hwake => exact (h.goto (h.worker _).unblocked).goto hwake.recalls
  | spurious => exact h.goto (h.worker _).unblocked
  | @schedule c w x =>
    have hpush : Keyed K { s with submit := Function.update s.submit w (x :: s.submit w) } :=
      ⟨h.worker, h.caller, h.destroyer⟩
    exact hpush.setCaller trivial
  | callNotify =>
    refine (h.notify _).setCaller ?_
    split
    · change s.notified _ < _
      rw [notify_self]
      exact Nat.lt_succ_self _
    · trivial
  | callWake => exact (h.wakeAll _ _).setCaller trivial
  | destroy => exact ⟨h.worker, h.caller, recalls_nextDomain _⟩
  | destroyNotify =>
    refine (h.notify _).setDestroyer ?_
    split
    · change s.notified _ < _
      rw [notify_self]
      exact Nat.lt_succ_self _
    · exact recalls_nextDomain _
  | destroyWake => exact (h.wakeAll _ _).setDestroyer (recalls_nextDomain _)

/-! ## Both invariants -/

/-- What holds in every state. -/
structure Sound (K : Config) (s : State) : Prop where
  counts : Counts K s
  keyed : Keyed K s

/-- Both invariants hold at first. -/
theorem sound_init : Sound K .init := ⟨counts_init, keyed_init⟩

/-- Every step within the bounds keeps both invariants. -/
theorem sound_step (hsmall : K.Small) (h : Sound K s) (hm : Moves K s a s') : Sound K s' :=
  ⟨counts_step hsmall h.counts hm, keyed_step h.counts h.keyed hm⟩

/-- **Who was notified does not block.** The epoch is the key only if there was no notification
since `prepare_wait`. -/
theorem Sound.passes (h : Sound K s) {key : BitVec 32} {since : ℕ}
    (hpc : s.worker w = .check key since) (hepoch : epoch (s.mVal (K.node w)) = key)
    (hbound : s.notified (K.node w) - since < 2 ^ 32) : since = s.notified (K.node w) := by
  have hk := h.keyed.worker w
  rw [hpc] at hk
  rw [(h.counts.packs _).epoch_eq, hk.1, epoch_eq_iff hk.2 hbound] at hepoch
  exact hepoch.symm

/-- A waiter is seen by who notifies its domain. -/
theorem Sound.hasWaiters (h : Sound K s) (hw : w < K.numThreads)
    (hwaits : (s.worker w).waits = true) : hasWaiters (s.mVal (K.node w)) = true := by
  rw [(h.counts.packs _).hasWaiters_iff]
  exact Nat.ne_of_gt (inDomain_pos hw hwaits)

end Libfork.Lazy
