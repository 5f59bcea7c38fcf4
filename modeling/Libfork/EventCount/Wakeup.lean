import Libfork.EventCount.Steps

/-!
# Who is blocked

* `Wakes` — a thread that is blocked has blocked before any notification that followed its
  `prepare_wait`, and no `notify_all` among these is finished.
* **`wakes_step`** — every step keeps this.

Source: `event_count.hpp`, class `event_count`.
-/

namespace Libfork.EventCount

open Libfork.Found

variable {s s' : State} {t : ℕ} {es : List Event} {pc : Pc}

/-- What a blocked thread relies on. -/
structure Wakes (s : State) : Prop where
  keyed : ∀ t, (s.pc t).Keyed (notified s.log)
  finished : ∀ u k, .finished u k ∈ s.log → k < notified s.log
  woken : ∀ t await key since seen, s.pc t = .blocked await key since seen →
    ∀ u k, .finished u k ∈ s.log → k < since

/-- A key stays older than the notifications. -/
theorem Pc.Keyed.mono {m n : ℕ} (h : pc.Keyed n) (hle : n ≤ m) : pc.Keyed m := by
  cases pc with
  | prepared await key since => exact ⟨Nat.le_trans h.1 hle, h.2⟩
  | check await key since => exact ⟨Nat.le_trans h.1 hle, h.2⟩
  | blocked await key since seen => exact ⟨Nat.le_trans h.1 hle, h.2⟩
  | wake all k => exact Nat.lt_of_lt_of_le h hle
  | _ => trivial

/-- A thread that is unblocked keeps its key. -/
theorem Pc.Keyed.unblocked {n : ℕ} (h : pc.Keyed n) : pc.unblocked.Keyed n := by
  cases pc with
  | blocked await key since seen => exact ⟨h.1, h.2.1⟩
  | _ => exact h

/-- It is not blocked. -/
theorem Pc.unblocked_not_blocked (pc : Pc) : pc.unblocked.isBlocked = false := by
  cases pc <;> rfl

/-- After `n` notifications the thread is where it may be, and it is not blocked. -/
def Pc.Awake (n : ℕ) (pc : Pc) : Prop := pc.Keyed n ∧ pc.isBlocked = false

/-- Steps that block nobody and finish no `notify_all`. -/
theorem Wakes.keep (h : Wakes s) (hn : notified s.log ≤ notified s'.log)
    (hpc : ∀ u, s'.pc u = s.pc u ∨ (s'.pc u).Awake (notified s'.log))
    (hfinished : ∀ u k, .finished u k ∈ s'.log → .finished u k ∈ s.log) : Wakes s' := by
  constructor
  · intro u
    rcases hpc u with hu | hu
    · rw [hu]
      exact (h.keyed u).mono hn
    · exact hu.1
  · intro u k hk
    exact Nat.lt_of_lt_of_le (h.finished u k (hfinished u k hk)) hn
  · intro u await key since seen hu v k hk
    rcases hpc u with hsame | ⟨-, hblocked⟩
    · rw [hsame] at hu
      exact h.woken u await key since seen hu v k (hfinished v k hk)
    · rw [hu] at hblocked
      cases hblocked

/-- The other threads stay where they are. -/
theorem goto_or {n : ℕ} {s₁ : State} (h : s₁.pc = Function.update s.pc t pc) (hpc : pc.Awake n)
    (u : ℕ) : s₁.pc u = s.pc u ∨ (s₁.pc u).Awake n := by
  rw [h]
  by_cases hu : u = t
  · subst hu
    rw [Function.update_self]
    exact Or.inr hpc
  · rw [Function.update_of_ne hu]
    exact Or.inl rfl

/-- Nobody is blocked at first. -/
theorem wakes_new : Wakes State.new := by
  constructor
  · exact fun _ => trivial
  · intro u k hk
    cases hk
  · intro t await key since seen ht
    cases ht

/-- How many notifications there are after a step. -/
theorem notified_snoc (log : List Event) (e : Event) :
    notified (log ++ [e]) = notified log + if e.isNotified then 1 else 0 := by
  rw [notified, List.countP_append, notified]
  cases e <;> rfl

/-- The events that a quiet step of a thread logs finish no `notify_all`. -/
theorem Calls.not_finished (h : Calls s t pc es) (u k : ℕ) : .finished u k ∉ es := by
  cases h <;> simp

/-- Leaving finishes no notification. -/
theorem Leaves.not_finished (h : Leaves s t pc es) (u k : ℕ) : .finished u k ∉ es := by
  cases h with
  | wait => simp
  | await threw _ => cases threw <;> simp

/-- Who has left will not block. -/
theorem Leaves.awake (h : Leaves s t pc es) (n : ℕ) : pc.Awake n := by
  cases h with
  | wait _ hpc => rcases hpc with rfl | rfl <;> exact ⟨trivial, rfl⟩
  | await _ _ => exact ⟨trivial, rfl⟩

/-- Quiet events notify nobody. -/
theorem notified_quiet (log : List Event) (hes : ∀ e ∈ es, e.quiet = true) :
    notified (log ++ es) = notified log := (quiet_append log hes).1

/-- A `notify_all` that finishes leaves nobody blocked that prepared before it. -/
theorem Wakes.finish (h : Wakes s) {k : ℕ} (hk : k < notified s.log)
    (hpc : ∀ u, s'.pc u = s.pc u ∧ (s.pc u).eligible k = false ∨
      (s'.pc u).Awake (notified s.log))
    (hlog : s'.log = s.log ++ [.finished t k]) : Wakes s' := by
  have hn : notified s'.log = notified s.log := by
    rw [hlog, notified_snoc]
    rfl
  have hfinished : ∀ v j, .finished v j ∈ s'.log → .finished v j ∈ s.log ∨ j = k := by
    intro v j hj
    rw [hlog, List.mem_append, List.mem_singleton] at hj
    exact hj.imp_right fun heq => (Event.finished.inj heq).2
  constructor
  · intro u
    rw [hn]
    rcases hpc u with ⟨hu, -⟩ | hu
    · rw [hu]
      exact h.keyed u
    · exact hu.1
  · intro v j hj
    rw [hn]
    rcases hfinished v j hj with hj | rfl
    · exact h.finished v j hj
    · exact hk
  · intro u await key since seen hu v j hj
    rcases hpc u with ⟨hsame, helig⟩ | ⟨-, hblocked⟩
    · rw [hsame] at hu
      rcases hfinished v j hj with hj | rfl
      · exact h.woken u await key since seen hu v j hj
      · -- it has blocked after the notification, so that it has prepared after it
        have hkeyed := h.keyed u
        rw [hu] at hkeyed helig
        have hseen : ¬ seen ≤ j := by simpa [Pc.eligible] using helig
        rw [hkeyed.2.2] at hseen
        exact Nat.lt_of_not_le hseen
    · rw [hu] at hblocked
      cases hblocked

/-- Unblocking a thread keeps the promise of the notifications. -/
theorem wakes_unblock (h : Wakes s) (u : ℕ) : Wakes (unblock s u) := by
  refine h.keep (Nat.le_refl _) (goto_or rfl ?_) fun _ _ hk => hk
  exact ⟨(h.keyed u).unblocked, Pc.unblocked_not_blocked _⟩

/-- A thread that blocks when no notification has followed its `prepare_wait`. -/
theorem wakes_block (h : Wakes s) {await : Bool} {key : BitVec 32} {since : ℕ}
    (ht : s.pc t = .check await key since) (hkey : key = BitVec.ofNat 32 since)
    (hsame : notified s.log = since) : Wakes
      { s.goto t (.blocked await key since (notified s.log)) with queue := s.queue ++ [t] } := by
  constructor
  · intro u
    change (Function.update s.pc t _ u).Keyed _
    by_cases hu : u = t
    · subst hu
      rw [Function.update_self]
      exact ⟨Nat.le_of_eq hsame.symm, hkey, hsame⟩
    · rw [Function.update_of_ne hu]
      exact h.keyed u
  · exact h.finished
  · intro u await' key' since' seen hu v k hk
    change Function.update s.pc t _ u = _ at hu
    by_cases hut : u = t
    · subst hut
      rw [Function.update_self] at hu
      obtain ⟨-, -, rfl, -⟩ := Pc.blocked.inj hu
      rw [← hsame]
      exact h.finished v k hk
    · rw [Function.update_of_ne hut] at hu
      exact h.woken u await' key' since' seen hu v k hk

/-- So does every step. -/
theorem wakes_step (hc : Counts s) (h : Wakes s) (hstep : Step s s') : Wakes s' := by
  cases hstep with
  | prepare t await ht hroom =>
      have hn : notified (prepareWait s t await).log = notified s.log := by
        rw [prepareWait_log, notified_snoc]
        rfl
      refine h.keep (Nat.le_of_eq hn.symm) (goto_or (prepareWait_pc ..) ?_) (fun u k hk => ?_)
      · rw [hn]
        exact ⟨⟨Nat.le_refl _, hc.packs.epoch_eq⟩, rfl⟩
      · rw [prepareWait_log] at hk
        simpa using hk
  | leave t pc es ht hes =>
      have hn : notified (subWaiter s t pc es).log = notified s.log := by
        rw [subWaiter_log, List.append_cons, notified_quiet _ hes.quiet, notified_snoc]
        rfl
      refine h.keep (Nat.le_of_eq hn.symm) (goto_or (subWaiter_pc ..) (hes.awake _))
        (fun u k hk => ?_)
      rw [subWaiter_log, List.mem_append, List.mem_cons] at hk
      rcases hk with hk | hk | hk
      · exact hk
      · cases hk
      · exact absurd hk (hes.not_finished u k)
  | notify t all ht =>
      have hn : notified (((s.fetchAdd kAddEpoch).logged [.notified t]).goto t
          (.wake all (notified s.log))).log = notified s.log + 1 := by
        rw [State.goto_log, State.logged_log, State.fetchAdd_log, notified_snoc]
        rfl
      have hpc : (((s.fetchAdd kAddEpoch).logged [.notified t]).goto t
          (.wake all (notified s.log))).pc =
          Function.update s.pc t (.wake all (notified s.log)) := by
        rw [State.goto_pc, State.logged_pc, State.fetchAdd_pc]
      have hle := Nat.le_trans (Nat.le_succ _) (Nat.le_of_eq hn.symm)
      refine h.keep hle (goto_or hpc ?_) (fun u k hk => ?_)
      · rw [hn]
        exact ⟨Nat.lt_succ_self _, rfl⟩
      · rw [State.goto_log, State.logged_log, State.fetchAdd_log] at hk
        simpa using hk
  | notifyNobody t es hnone hes =>
      have hmid : Wakes ((s.fetchAdd kAddEpoch).logged [.notified t]) := by
        refine h.keep ?_ (fun u => Or.inl ?_) (fun u k hk => ?_)
        · rw [State.logged_log, State.fetchAdd_log, notified_snoc]
          exact Nat.le_add_right _ _
        · rw [State.logged_pc, State.fetchAdd_pc]
        · rw [State.logged_log, State.fetchAdd_log] at hk
          simpa using hk
      rcases hes with rfl | rfl
      · rwa [State.logged_nil]
      · refine hmid.finish ?_ (fun u => Or.inl ⟨rfl, ?_⟩) (State.logged_log ..)
        · rw [State.logged_log, State.fetchAdd_log, notified_snoc]
          exact Nat.lt_succ_self _
        · -- a thread that is blocked would have been counted
          rw [State.logged_pc, State.fetchAdd_pc]
          by_contra helig
          have hwaits : (s.pc u).waits = true := by
            cases hpc : s.pc u with
            | blocked await key since seen => rfl
            | _ =>
                rw [hpc] at helig
                exact absurd rfl helig
          have hsome := hc.packs.hasWaiters_iff.mpr (hc.pos hwaits)
          rw [hnone] at hsome
          cases hsome
  | go t pc es hwaits hkeyed hblocked hes =>
      have hn : notified ((s.goto t pc).logged es).log = notified s.log := by
        rw [State.logged_log, State.goto_log, notified_quiet _ hes.quiet]
      refine h.keep (Nat.le_of_eq hn.symm) (goto_or (State.goto_pc ..) ?_) (fun u k hk => ?_)
      · rw [hn]
        exact ⟨hkeyed _ (h.keyed t), hblocked⟩
      · rw [State.logged_log, State.goto_log, List.mem_append] at hk
        exact hk.resolve_right (hes.not_finished u k)
  | block t await key since ht hkey hbound =>
      have hkeyed := h.keyed t
      rw [ht] at hkeyed
      obtain ⟨hle, hsince⟩ := hkeyed
      -- the epoch is the key, and close enough to it to be the same
      have hsame : notified s.log = since := by
        rw [← epoch_eq_iff hle hbound, ← hsince, ← hkey, hc.packs.epoch_eq]
      exact wakes_block h ht hsince hsame
  | wakeAll t k ht =>
      have hkeyed := h.keyed t
      rw [ht] at hkeyed
      refine h.finish hkeyed (fun u => ?_) rfl
      change Function.update (wakeAll s k).pc t .idle u = _ ∧ _ ∨
        (Function.update (wakeAll s k).pc t .idle u).Awake _
      by_cases hu : u = t
      · subst hu
        rw [Function.update_self]
        exact Or.inr ⟨trivial, rfl⟩
      · rw [Function.update_of_ne hu, wakeAll]
        change (if _ then _ else _) = _ ∧ _ ∨ (if _ then _ else _ : Pc).Awake _
        split
        · exact Or.inr ⟨(h.keyed u).unblocked, Pc.unblocked_not_blocked _⟩
        · rename_i helig
          exact Or.inl ⟨rfl, by simpa using helig⟩
  | unblock u => exact wakes_unblock h u
  | wakeOne t k u ht hu =>
      exact (wakes_unblock h u).keep (Nat.le_refl _) (goto_or rfl ⟨trivial, rfl⟩) fun _ _ hk => hk
  | wakeNobody t k ht =>
      exact h.keep (Nat.le_refl _) (goto_or rfl ⟨trivial, rfl⟩) fun _ _ hk => hk

end Libfork.EventCount
