import Libfork.Join.Events

/-!
# One resumption per scope, after every child

* `ResumeOk` — what entitles the code after a join to run.
* `ResumedOnce` — what holds of a frame in every state.
* **`resumedOnce_of_run`** — it does, along every interleaving in which no scope has more than
  `65534` steals.

Source: `awaitables.hpp`, `join_awaitable`; `promise.hpp`, `final_await_suspend`.
-/

namespace Libfork.Join

open Libfork.Found

variable {ε : Type} {s s' : State ε} {es : List (Event ε)}

/-! ## The statement -/

/-- The code after the join runs on a reset frame, and every child that the continuation was
stolen from has decremented. The worker that runs it ran the frame to the join, and no decrement
returned one; or it ran the child whose decrement did. -/
def ResumeOk (pre : List (Event ε)) : Event ε → Prop
  | .resume r st js => st = 0 ∧ js = kU16Max ∧ decrements pre = steals pre ∧
      (∀ c, .steal c ∈ pre → ∃ old, .decrement c old ∈ pre) ∧
      match r with
      | .worker => ∀ c, .decrement c 1 ∉ pre
      | .child c => .decrement c 1 ∈ pre
  | _ => True

/-- **One resumption per scope.** -/
structure ResumedOnce (s : State ε) : Prop where
  /-- Nobody resumes too early, or on other counters. -/
  justified : Logs ResumeOk s
  /-- A join that has been left was resumed once. -/
  once : ∀ l ∈ s.past, resumes l = 1
  /-- In the current scope, the code after the join runs when it has been resumed once, and not
  before. -/
  now : resumes s.now = if s.parent.phase = .after then 1 else 0
  /-- The parent does not wait for nobody: some child has still to decrement, or has won. -/
  waits : s.parent = .suspended → ∃ c, s.child c = .won ∨ (s.child c).live = true
  /-- A scope starts on the counters of a new frame. -/
  fresh : s.now = [] → s.frame.mSteal = 0 ∧ s.frame.mJoin = kU16Max

/-! ## The proof -/

/-- Before the parent subtracts, a decrement does not return one. -/
theorem Counts.decrement_ne_one (h : Counts s) {c : ℕ} (hc : s.child c = .sub)
    (hphase : s.parent.phase ≠ .suspended) : s.frame.mJoin ≠ 1 := by
  have hout : s.Outstanding c := by
    refine ⟨by rw [hc]; rfl, fun hruns => ?_⟩
    have hcode := h.runs_code c hruns
    rw [hc] at hcode
    cases hcode
  have hlt := h.decrements_lt hout
  have hbound := h.bound
  obtain ⟨out, -, hiff, -, hcounters⟩ := h.out
  intro hone
  have hval : s.frame.mJoin.toNat = 1 := by
    rw [hone]
    rfl
  cases hp : s.parent.phase <;> rw [hp] at hcounters
  · have hjoin := hcounters.2
    omega
  · have hjoin := hcounters.2
    omega
  · exact hphase hp
  · have hpos := List.length_pos_of_mem ((hiff c).mpr hout)
    have hnil := hcounters.2.2
    omega

/-- No decrement of the scope has returned one, up to the parent's subtraction. -/
def Unwon (s : State ε) : Prop :=
  s.parent.phase.closed = false → ∀ c, .decrement c 1 ∉ s.now

/-- What the log of the current scope is like when nobody is outstanding. -/
theorem Counts.joined (h : Counts s) (hnone : ∀ c, ¬ s.Outstanding c) :
    decrements s.now = steals s.now ∧
      ∀ c, .steal c ∈ s.now → ∃ old, .decrement c old ∈ s.now := by
  obtain ⟨out, -, hiff, hlen, -⟩ := h.out
  have hnil : out = [] := List.eq_nil_iff_forall_not_mem.mpr fun c hc => hnone c ((hiff c).mp hc)
  rw [hnil, List.length_nil, Nat.zero_add] at hlen
  exact ⟨hlen, h.all_decremented hnone⟩

/-- The worker that ran the frame to the join goes on, right away. -/
theorem resumeOk_worker (h : Counts s) (hunwon : Unwon s) (hphase : s.parent.phase = .scope)
    (hnone : ∀ c, ¬ s.Outstanding c) : ResumeOk s.now (.resume .worker 0 kU16Max) := by
  obtain ⟨hlen, hall⟩ := h.joined hnone
  exact ⟨rfl, rfl, hlen, hall, hunwon (by rw [hphase]; rfl)⟩

/-- An event that no entitlement mentions. -/
theorem resumeOk_snoc {pre : List (Event ε)} {e r : Event ε} (h : ResumeOk pre r)
    (hs : e.isSteal = false) (hd : e.isDecrement = false) : ResumeOk (pre ++ [e]) r := by
  have hsteal : ∀ c, e ≠ .steal c := by
    rintro c rfl
    cases hs
  have hdec : ∀ c old, e ≠ .decrement c old := by
    rintro c old rfl
    cases hd
  have hmem : ∀ c, Event.steal c ∈ pre ++ [e] ↔ .steal c ∈ pre := by
    intro c
    rw [List.mem_append, List.mem_singleton]
    exact or_iff_left (hsteal c).symm
  have hmem' : ∀ c old, Event.decrement c old ∈ pre ++ [e] ↔ .decrement c old ∈ pre := by
    intro c old
    rw [List.mem_append, List.mem_singleton]
    exact or_iff_left (hdec c old).symm
  cases r with
  | resume r st js =>
    cases r <;> simpa [ResumeOk, hs, hd, hmem, hmem'] using h
  | _ => trivial

/-- What a step logs is justified. -/
theorem resumeOk_emits (h : Counts s) (hunwon : Unwon s) (he : Emits s es)
    (hlog : AllJustified ResumeOk s.now) : AllJustified ResumeOk (s.now ++ es) := by
  cases he with
  | silent => rwa [List.append_nil]
  | shortcut hp hz =>
    obtain ⟨-, hnone, hjoin⟩ := h.shortcut hp hz
    have hpre : AllJustified ResumeOk (s.now ++ [.shortcut]) := allJustified_snoc hlog trivial
    rw [hz, hjoin, List.append_cons]
    apply allJustified_snoc hpre
    exact resumeOk_snoc (resumeOk_worker h hunwon (by rw [hp]; rfl) hnone) rfl rfl
  | joined hp heq =>
    apply allJustified_snoc hlog
    have hphase : s.parent.phase = .scope := by rw [hp]; rfl
    exact resumeOk_worker h hunwon hphase (h.all_joined hphase heq)
  | last hp heq =>
    have hpre : AllJustified ResumeOk (s.now ++ [.subtract]) := allJustified_snoc hlog trivial
    rw [List.append_cons]
    apply allJustified_snoc hpre
    have hphase : s.parent.phase = .scope := by rw [hp]; rfl
    exact resumeOk_snoc (resumeOk_worker h hunwon hphase (h.all_joined hphase heq)) rfl rfl
  | resume c hc hp =>
    apply allJustified_snoc hlog
    obtain ⟨hlen, hall⟩ := h.joined (h.last_joined hc)
    exact ⟨rfl, rfl, hlen, hall, (h.winner c hc).2.2.1⟩
  | _ => exact allJustified_snoc hlog trivial

/-- Only a suspension lets a decrement return one. -/
theorem unwon_wrote (h : Counts s) (hunwon : Unwon s) (he : Emits s es) (hw : Wrote s s' es) :
    Unwon s' := by
  intro hopen c hmem
  cases hw with
  | leaves _ hnow _ =>
    rw [hnow] at hmem
    cases hmem
  | stays hnow _ hclosed =>
    have hold : s.parent.phase.closed = false := by
      by_contra hne
      rw [hclosed (Bool.not_eq_false _ ▸ hne)] at hopen
      cases hopen
    rw [hnow] at hmem
    rcases List.mem_append.mp hmem with hmem | hmem
    · exact hunwon hold c hmem
    cases he with
    | decrement c' hc' =>
      have heq := Event.decrement.inj (List.mem_singleton.mp hmem)
      have hsusp : s.parent.phase ≠ .suspended := by
        intro hp
        rw [hp] at hold
        cases hold
      exact h.decrement_ne_one hc' hsusp heq.2.symm
    | _ => simp at hmem

/-- The invariant that carries the result. -/
structure Protocol (s : State ε) : Prop where
  counts : Counts s
  unwon : Unwon s
  justified : Logs ResumeOk s
  once : ∀ l ∈ s.past, resumes l = 1

/-- A new frame follows the protocol. -/
theorem protocol_new : Protocol (State.new : State ε) :=
  ⟨counts_new, nofun, logs_new, nofun⟩

/-- Leaving the join logs no second resumption. -/
theorem resumes_leave (he : Emits s es) (hafter : s.parent.phase = .after)
    (h : Counts s) : resumes (s.now ++ es) = 1 := by
  have hnow := h.resumed
  rw [if_pos hafter] at hnow
  cases he with
  | silent => rwa [List.append_nil]
  | shortcut hp _ | joined hp _ | last hp _ | resume _ _ hp =>
    rw [hp] at hafter
    cases hafter
  | _ => rw [resumes_snoc, hnow]; rfl

/-- Every step with few steals keeps to it. -/
theorem protocol_step (h : Protocol s) {a : Act ε} (hfew : AtMost 65534 s a)
    (hstep : (machine ε).step s a = some s') : Protocol s' := by
  obtain ⟨es, he, hw⟩ := step_log hstep
  refine ⟨counts_step h.counts hfew hstep, unwon_wrote h.counts h.unwon he hw,
    logs_wrote h.justified hw (resumeOk_emits h.counts h.unwon he), ?_⟩
  intro l hl
  cases hw with
  | stays _ hpast _ =>
    rw [hpast] at hl
    exact h.once l hl
  | leaves hafter _ hpast =>
    rw [hpast] at hl
    rcases List.mem_append.mp hl with hl | hl
    · exact h.once l hl
    · rw [List.mem_singleton.mp hl]
      exact resumes_leave he hafter h.counts

/-- A scope without events starts on the counters of a new frame. -/
theorem Counts.fresh (h : Counts s) (hnil : s.now = []) :
    s.frame.mSteal = 0 ∧ s.frame.mJoin = kU16Max := by
  have hres := h.resumed
  obtain ⟨out, -, -, -, hcounters⟩ := h.out
  rw [hnil] at hres hcounters
  cases hp : s.parent.phase <;> rw [hp] at hcounters hres
  · obtain ⟨hst, hjn⟩ := hcounters
    exact ⟨BitVec.eq_of_toNat_eq hst, BitVec.eq_of_toNat_eq hjn⟩
  · exact absurd hcounters.1 (Nat.succ_ne_zero _)
  · have hsub := (h.waiting hp).1
    rw [hnil] at hsub
    cases hsub
  · cases hres

/-- A waiting parent waits for somebody. -/
theorem Counts.waits (h : Counts s) (hsusp : s.parent = .suspended) :
    ∃ c, s.child c = .won ∨ (s.child c).live = true := by
  have hphase : s.parent.phase = .suspended := by
    rw [hsusp]
    rfl
  obtain ⟨out, -, hiff, -, hcounters⟩ := h.out
  rw [hphase] at hcounters
  have hjoin : s.frame.mJoin.toNat = out.length := hcounters
  cases hout : out with
  | nil =>
    rw [hout] at hjoin
    obtain ⟨c, hc⟩ := (h.waiting hphase).2 (BitVec.eq_of_toNat_eq hjoin)
    exact ⟨c, Or.inl hc⟩
  | cons c rest =>
    have hmem : c ∈ out := by
      rw [hout]
      exact List.mem_cons_self
    exact ⟨c, Or.inr ((hiff c).mp hmem).1⟩

/-- Every interleaving keeps the invariant. -/
theorem protocol_run {as : List (Act ε)} (h : (machine ε).Run (AtMost 65534) State.new as s) :
    Protocol s :=
  h.invariant (fun _ _ _ hs hok hstep => protocol_step hs hok hstep) protocol_new

/-- **The code after a join runs once per scope, after every child has joined.** Whatever the
interleaving, as long as no scope has more than `65534` steals. -/
theorem resumedOnce_of_run (as : List (Act ε)) (s : State ε)
    (h : (machine ε).Run (AtMost 65534) State.new as s) : ResumedOnce s where
  justified := (protocol_run h).justified
  once := (protocol_run h).once
  now := (protocol_run h).counts.resumed
  waits := (protocol_run h).counts.waits
  fresh := (protocol_run h).counts.fresh

/-- Two continuations are stolen; one child decrements before the parent's subtraction, and the
other resumes the parent. -/
theorem resumedOnce_of_run_last_child :
    ∃ s : State ℕ, (machine ℕ).Run (AtMost 65534) State.new
        [.fork 0, .steal, .parent, .fork 1, .steal, .parent, .finish 0, .child 0, .join, .parent,
          .parent, .finish 1, .child 1, .child 1, .parent] s ∧
      s.past = [[.steal 0, .steal 1, .decrement 0 65535, .subtract, .decrement 1 1,
        .resume (.child 1) 0 65535, .pass]] ∧ ResumedOnce s := by
  have h : ((machine ℕ).exec (AtMost 65534) State.new
      [.fork 0, .steal, .parent, .fork 1, .steal, .parent, .finish 0, .child 0, .join, .parent,
        .parent, .finish 1, .child 1, .child 1, .parent]).map State.past =
      some [[.steal 0, .steal 1, .decrement 0 65535, .subtract, .decrement 1 1,
        .resume (.child 1) 0 65535, .pass]] := by
    decide
  obtain ⟨s, hs, hpast⟩ := Option.map_eq_some_iff.mp h
  have hrun := Machine.run_iff_exec.mpr hs
  exact ⟨s, hrun, hpast, resumedOnce_of_run _ s hrun⟩

end Libfork.Join
