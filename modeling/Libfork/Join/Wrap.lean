import Libfork.Join.Protocol

/-!
# How many steals the counters can count

`m_steal` and `m_join` have sixteen bits and nothing bounds the number of steals in a scope.

* `CountOk` — what `await_ready` concludes from `m_steal == 0`, and a child from `m_join == 1`.
* `stolenForks`, `joins` — a scope in which `n` continuations are stolen, and `n` children join.
* **`countOk_iff`** — both conclusions are right along every interleaving with at most `n` steals
  in each scope, if and only if `n ≤ 65534`.

Source: `frame.hpp`, `m_join`, `m_steal`; `awaitables.hpp`, `await_ready`; `promise.hpp`,
`final_await_suspend`.
-/

namespace Libfork.Join

open Libfork.Found

variable {ε : Type} {s s' : State ε} {es : List (Event ε)}

/-- With the shortcut, there were no steals; a decrement returns one only after the parent has
subtracted. -/
def CountOk (pre : List (Event ε)) : Event ε → Prop
  | .shortcut => ∀ c, .steal c ∉ pre
  | .decrement _ old => old = 1 → .subtract ∈ pre
  | _ => True

/-! ## Few steals -/

/-- What the step emits counts right. -/
theorem countOk_emits (h : Counts s) (he : Emits s es) (hlog : AllJustified CountOk s.now) :
    AllJustified CountOk (s.now ++ es) := by
  cases he with
  | silent => rwa [List.append_nil]
  | decrement c hc =>
    apply allJustified_snoc hlog
    intro hone
    by_contra hno
    refine h.decrement_ne_one hc (fun hsusp => ?_) hone
    exact hno (h.waiting hsusp).1
  | shortcut hp hz =>
    have hpre : AllJustified CountOk (s.now ++ [.shortcut]) := by
      apply allJustified_snoc hlog
      exact not_mem_of_steals_eq_zero (h.shortcut hp hz).1
    rw [List.append_cons]
    exact allJustified_snoc hpre trivial
  | last hp heq =>
    have hpre : AllJustified CountOk (s.now ++ [.subtract]) := allJustified_snoc hlog trivial
    rw [List.append_cons]
    exact allJustified_snoc hpre trivial
  | _ => exact allJustified_snoc hlog trivial

/-- The counters are right, and so is every conclusion drawn from them. -/
theorem countOk_run {as : List (Act ε)} (h : (machine ε).Run (AtMost 65534) State.new as s) :
    Counts s ∧ Logs CountOk s := by
  refine h.invariant (P := fun s => Counts s ∧ Logs CountOk s) ?_ ⟨counts_new, logs_new⟩
  rintro s a s' ⟨hcounts, hlogs⟩ hfew hstep
  obtain ⟨es, he, hw⟩ := step_log hstep
  exact ⟨counts_step hcounts hfew hstep, logs_wrote hlogs hw (countOk_emits hcounts he)⟩

/-! ## Many steals -/

/-- The first `n` children are forked, and each continuation is stolen. -/
def stolenForks (ε : Type) (n : ℕ) : List (Act ε) :=
  (List.range n).flatMap fun c => [.fork c, .steal, .parent]

/-- The first `n` children join. -/
def joins (ε : Type) (n : ℕ) : List (Act ε) :=
  (List.range n).flatMap fun c => [.finish c, .child c]

/-- The scope with `n` stolen continuations, when `k` of their children have joined. -/
def scopeState (ε : Type) (n k : ℕ) : State ε where
  frame := { (Frame.new : Frame ε) with
    mSteal := BitVec.ofNat 16 n, mJoin := BitVec.ofNat 16 (65535 - k) }
  parent := .running
  child c := if c < k then .done else if c < n then .working else .absent
  now := (List.range n).map .steal ++
    (List.range k).map fun c => .decrement c (BitVec.ofNat 16 (65535 - c))
  past := []

/-- The scope has seen `n` steals. -/
theorem steals_scopeState (n : ℕ) : steals (scopeState ε n 0).now = n := by
  induction n with
  | zero => rfl
  | succ n ih =>
    have hnow : (scopeState ε (n + 1) 0).now = (scopeState ε n 0).now ++ [.steal n] := by
      simp [scopeState, List.range_succ]
    rw [hnow, steals_snoc, ih]
    rfl

/-- One more continuation is stolen. -/
theorem run_stolenFork {N n : ℕ} (h : n < N) :
    (machine ε).Run (AtMost N) (scopeState ε n 0) [.fork n, .steal, .parent]
      (scopeState ε (n + 1) 0) := by
  have habsent : (scopeState ε n 0).child n = .absent := by
    simp [scopeState]
  refine ⟨trivial, { (scopeState ε n 0).goto n .working with parent := .forked n }, ?_, ?_⟩
  · simp only [machine, habsent]
    rfl
  refine ⟨Nat.lt_of_le_of_lt (Nat.le_of_eq (steals_scopeState n)) h, _, rfl, trivial, _, rfl, ?_⟩
  have hchild : Function.update (scopeState ε n 0).child n .working =
      (scopeState ε (n + 1) 0).child := by
    funext c
    by_cases hc : c = n
    · subst hc
      simp [scopeState]
    · rw [Function.update_of_ne hc]
      have hiff : c < n + 1 ↔ c < n := by
        rw [Nat.lt_succ_iff_lt_or_eq]
        exact or_iff_left hc
      simp only [scopeState, hiff]
  have hnow : (scopeState ε n 0).now ++ [.steal n] = (scopeState ε (n + 1) 0).now := by
    simp [scopeState, List.range_succ]
  have hframe : (scopeState ε n 0).frame.fetchAddSteal = (scopeState ε (n + 1) 0).frame := by
    simp [scopeState, Frame.fetchAddSteal, BitVec.ofNat_add]
  show (⟨(scopeState ε n 0).frame.fetchAddSteal, .running,
    Function.update (scopeState ε n 0).child n .working,
    (scopeState ε n 0).now ++ [.steal n], []⟩ : State ε) = _
  rw [hchild, hnow, hframe]
  rfl

/-- The forks are stolen one by one. -/
theorem run_stolenForks {N n : ℕ} (h : n ≤ N) :
    (machine ε).Run (AtMost N) State.new (stolenForks ε n) (scopeState ε n 0) := by
  induction n with
  | zero => rfl
  | succ n ih =>
    unfold stolenForks
    rw [List.range_succ, List.flatMap_append]
    refine Machine.run_append.mpr ⟨_, ih (Nat.le_of_succ_le h), ?_⟩
    simpa using run_stolenFork h

/-- One more child joins, and it is not the last one. -/
theorem run_join {N n k : ℕ} (hk : k < n) (hlt : k < 65534) :
    (machine ε).Run (AtMost N) (scopeState ε n k) [.finish k, .child k]
      (scopeState ε n (k + 1)) := by
  have hwork : (scopeState ε n k).child k = .working := by
    simp [scopeState, hk]
  have hne : BitVec.ofNat 16 (65535 - k) ≠ 1 := by
    intro he
    have hval := congrArg BitVec.toNat he
    simp only [BitVec.toNat_ofNat, BitVec.ofNat_eq_ofNat] at hval
    omega
  have hchild : Function.update (Function.update (scopeState ε n k).child k .sub) k .done =
      (scopeState ε n (k + 1)).child := by
    funext c
    by_cases hc : c = k
    · subst hc
      simp [scopeState]
    · have hiff : c < k + 1 ↔ c < k := by
        rw [Nat.lt_succ_iff_lt_or_eq]
        exact or_iff_left hc
      simp only [scopeState, Function.update_of_ne hc, hiff]
  have hnow : (scopeState ε n k).now ++ [.decrement k (BitVec.ofNat 16 (65535 - k))] =
      (scopeState ε n (k + 1)).now := by
    simp [scopeState, List.range_succ]
  have hframe : (scopeState ε n k).frame.fetchSubJoins 1 = (scopeState ε n (k + 1)).frame := by
    have hjoin : BitVec.ofNat 16 (65535 - k) - 1 = BitVec.ofNat 16 (65535 - (k + 1)) := by
      apply BitVec.eq_of_toNat_eq
      simp only [BitVec.toNat_sub, BitVec.toNat_ofNat, BitVec.ofNat_eq_ofNat]
      omega
    show { (scopeState ε n k).frame with mJoin := BitVec.ofNat 16 (65535 - k) - 1 } = _
    rw [hjoin]
    rfl
  refine ⟨trivial, (scopeState ε n k).goto k .sub, ?_, trivial, _, ?_, rfl⟩
  · simp only [machine, hwork]
    rfl
  · have hsub : ((scopeState ε n k).goto k .sub).child k = .sub := Function.update_self _ _ _
    simp only [machine, childStep, hsub]
    have hjoins : ((scopeState ε n k).goto k .sub).frame.loadJoins =
        BitVec.ofNat 16 (65535 - k) := rfl
    rw [hjoins, if_neg hne]
    show some (⟨(scopeState ε n k).frame.fetchSubJoins 1, .running,
      Function.update (Function.update (scopeState ε n k).child k .sub) k .done,
      (scopeState ε n k).now ++ [.decrement k (BitVec.ofNat 16 (65535 - k))], []⟩ : State ε) = _
    rw [hchild, hnow, hframe]
    rfl

/-- The children join one by one. -/
theorem run_joins {N n k : ℕ} (hk : k ≤ n) (hle : k ≤ 65534) :
    (machine ε).Run (AtMost N) (scopeState ε n 0) (joins ε k) (scopeState ε n k) := by
  induction k with
  | zero => rfl
  | succ k ih =>
    unfold joins
    rw [List.range_succ, List.flatMap_append]
    refine Machine.run_append.mpr ⟨_, ih (Nat.le_of_succ_le hk) (Nat.le_of_succ_le hle), ?_⟩
    simpa using run_join hk hle

/-- The parent has not subtracted in a scope that it still runs. -/
theorem subtract_not_mem_scopeState (n k : ℕ) : .subtract ∉ (scopeState ε n k).now := by
  simp [scopeState]

/-- With `65535` steals, the last decrement returns one before the parent has subtracted. -/
theorem wraps_decrement {n k : ℕ} (hn : n = 65535) (hk : k = 65534) : ∃ s : State ε,
    (machine ε).Run (AtMost n) State.new (stolenForks ε n ++ joins ε k ++ [.finish k, .child k]) s ∧
    ¬ Logs CountOk s := by
  have hwork : (scopeState ε n k).child k = .working := by
    simp [scopeState, hn, hk]
  have hsub : ((scopeState ε n k).goto k .sub).child k = .sub := Function.update_self _ _ _
  have hone : (scopeState ε n k).frame.mJoin = 1 := by
    rw [hk]
    rfl
  have hstep : (machine ε).step (scopeState ε n k) (.finish k) =
      some ((scopeState ε n k).goto k .sub) := by
    simp only [machine, hwork]
    rfl
  obtain ⟨s, hs, hnow⟩ : ∃ s, childStep ((scopeState ε n k).goto k .sub) k = some s ∧
      s.now = (scopeState ε n k).now ++ [.decrement k 1] := by
    unfold childStep
    rw [hsub]
    refine ⟨_, rfl, ?_⟩
    rw [← hone]
    rfl
  have hforks : (machine ε).Run (AtMost n) State.new (stolenForks ε n) (scopeState ε n 0) :=
    run_stolenForks le_rfl
  have hjoins : (machine ε).Run (AtMost n) (scopeState ε n 0) (joins ε k) (scopeState ε n k) :=
    run_joins (by omega) (Nat.le_of_eq hk)
  refine ⟨s, Machine.run_append.mpr ⟨_, Machine.run_append.mpr ⟨_, hforks, hjoins⟩,
    trivial, _, hstep, trivial, s, hs, rfl⟩, ?_⟩
  intro h
  have hlog := h _ List.mem_cons_self (scopeState ε n k).now (.decrement k 1) [] hnow rfl
  exact subtract_not_mem_scopeState _ _ hlog

/-- With `65536` steals, the parent finds none. -/
theorem wraps_shortcut {n : ℕ} (hn : n = 65536) : ∃ s : State ε,
    (machine ε).Run (AtMost n) State.new (stolenForks ε n ++ [.join]) s ∧
    ¬ Logs CountOk s := by
  have hzero : (scopeState ε n 0).frame.loadSteals = 0 := by
    rw [hn]
    rfl
  have hnow : (joinCall (scopeState ε n 0)).now =
      (scopeState ε n 0).now ++ .shortcut :: [.resume .worker 0 65535] := by
    unfold joinCall
    rw [if_pos hzero]
    show ((scopeState ε n 0).now ++ [.shortcut]) ++
      [.resume .worker (scopeState ε n 0).frame.loadSteals 65535] = _
    rw [hzero, List.append_assoc]
    rfl
  have hsteal : Event.steal 0 ∈ (scopeState ε n 0).now := by
    simp [scopeState, hn]
  refine ⟨joinCall (scopeState ε n 0), Machine.run_append.mpr
    ⟨_, run_stolenForks le_rfl, trivial, _, rfl, rfl⟩, ?_⟩
  intro h
  exact h _ List.mem_cons_self _ .shortcut _ hnow 0 hsteal

/-- The guard may be dropped. -/
theorem exists_free {as : List (Act ε)} {n : ℕ}
    (h : ∃ s, (machine ε).Run (AtMost n) State.new as s ∧ ¬ Logs CountOk s) :
    ∃ s, (machine ε).Run Machine.free State.new as s ∧ ¬ Logs CountOk s := by
  obtain ⟨s, hrun, hlog⟩ := h
  exact ⟨s, hrun.mono fun _ _ _ => trivial, hlog⟩

/-- Some interleaving with at most `65535` steals in each scope goes wrong. -/
theorem exists_wrap (ε : Type) : ∃ as, ∃ s : State ε,
    (machine ε).Run (AtMost 65535) State.new as s ∧ ¬ Logs CountOk s :=
  ⟨_, wraps_decrement rfl rfl⟩

/-! ## The bound -/

/-- **The counters do not wrap below `65535` steals.** Along every interleaving with at most `n`
steals in each scope, the shortcut is taken only without steals and a decrement returns one only
after the parent has subtracted; and `65534` is the largest such `n`. -/
theorem countOk_iff (ε : Type) (n : ℕ) :
    (∀ as (s : State ε), (machine ε).Run (AtMost n) State.new as s → Logs CountOk s) ↔
      n ≤ 65534 := by
  constructor
  · intro h
    by_contra hn
    obtain ⟨as, s, hrun, hlog⟩ := exists_wrap ε
    apply hlog
    exact h as s (hrun.mono fun _ _ hle => hle.mono (Nat.lt_of_not_le hn))
  · intro hn as s hrun
    exact (countOk_run (hrun.mono fun _ _ hle => hle.mono hn)).2

/-- With `65535` steals the conclusion of `final_await_suspend` is wrong, and with `65536`
that of `await_ready`. -/
theorem counters_wrap :
    (∃ s : State ℕ, (machine ℕ).Run Machine.free State.new
      (stolenForks ℕ 65535 ++ joins ℕ 65534 ++ [.finish 65534, .child 65534]) s ∧
      ¬ Logs CountOk s) ∧
    ∃ s : State ℕ, (machine ℕ).Run Machine.free State.new (stolenForks ℕ 65536 ++ [.join]) s ∧
      ¬ Logs CountOk s :=
  ⟨exists_free (wraps_decrement rfl rfl), exists_free (wraps_shortcut rfl)⟩

end Libfork.Join
