import Libfork.IntrusiveList.Invariant

/-!
# Every submission is delivered once, in order

* `InOrder` — what holds in every state: the function has been given the first nodes of the order
  of the compare-exchanges, and the owner only ever accesses one of the others.
* `Delivers`, `BatchEnds` — what a later call of `try_pop_all` and the walk after it do, whatever
  the other threads do meanwhile.
* **`delivered_of_run`** — all three, along every interleaving.

Source: `list.hpp`, `push`, `try_pop_all`, `for_each_elem`.
-/

namespace Libfork.IntrusiveList

open Libfork.Found

variable {T : Type} {s s' t : State T} {b c : List ℕ} {k : ℕ}

/-! ## The statement -/

/-- **In order.** -/
structure InOrder (s : State T) : Prop where
  /-- Nodes are passed to the function in the order of the successful compare-exchanges, with the
  data they had then, and none is passed twice. Those that wait are distinct nodes, nobody may
  write to them, and the owner accesses no other node. -/
  fifo : ∃ rest, s.pushed = s.handed ++ rest ∧ (rest.map Prod.fst).Nodup ∧
    (∀ n, s.place n = .linked ↔ n ∈ rest.map Prod.fst) ∧
    ∀ n, s.owner.touches = some n → (n, s.mData n) ∈ rest
  /-- A finished walk has passed on everything that was detached. -/
  idle : s.owner = .idle → s.handed = s.taken

/-- A call of `try_pop_all` that starts after `s`, once its walk has ended, has passed on
everything that was pushed in `s`. -/
def Delivers (s : State T) : Prop :=
  ∀ as t, (machine T).Run Machine.free s as t → s.pops < t.pops → t.owner = .idle →
    s.pushed <+: t.handed

/-- A step of the owner. -/
def Act.isOwner : Act T → Bool
  | .owner => true
  | .elsewhere .. => false
  | .push .. => false
  | .pusher .. => false

/-- The batch that the owner is busy with ends after at most `k` steps of its own, however many
steps the other threads take in between. -/
def BatchEnds (s : State T) (k : ℕ) : Prop :=
  ∀ as t, (machine T).Run Machine.free s as t → k ≤ as.countP Act.isOwner →
    ∃ bs cs m, as = bs ++ cs ∧ (machine T).Run Machine.free s bs m ∧
      (machine T).Run Machine.free m cs t ∧ m.owner = .idle

/-! ## In order -/

/-- Every interleaving keeps the invariant. -/
theorem inv_run {as : List (Act T)} (hs : Inv s) (h : (machine T).Run Machine.free s as t) :
    Inv t :=
  h.invariant (fun _ _ _ hinv _ hstep => hinv.step hstep) hs

/-- A list that is held together is in order. -/
theorem Listed.inOrder (h : Listed s b c k) : InOrder s := by
  have hrest : ((b ++ c.reverse).map s.entry).map Prod.fst = b ++ c.reverse := by
    rw [List.map_map]
    exact List.map_id (b ++ c.reverse)
  constructor
  · refine ⟨(b ++ c.reverse).map s.entry, ?_, ?_, ?_, ?_⟩
    · rw [h.pushed, h.taken, List.map_append, List.append_assoc]
    · rw [hrest]
      exact h.nodup
    · intro n
      rw [hrest]
      exact h.linked n
    · intro n hn
      exact List.mem_map.mpr ⟨n, List.mem_append_left _ (h.batch.touches_mem hn), rfl⟩
  · intro hidle
    have hb := h.batch
    rw [hidle] at hb
    obtain ⟨rfl, -⟩ := hb
    rw [h.taken, List.map_nil, List.append_nil]

/-! ## A later call delivers -/

/-- What a step does to the order of the compare-exchanges and to what is detached. -/
theorem taken_step {a : Act T} (h : Inv s) (hstep : (machine T).step s a = some s') :
    (s.pushed <+: s'.pushed) ∧
      (s'.pops = s.pops ∧ s'.taken = s.taken ∨ s'.pops = s.pops + 1 ∧ s'.taken = s.pushed) := by
  have haside : Aside s s' → (s.pushed <+: s'.pushed) ∧ (s'.pops = s.pops ∧ s'.taken = s.taken ∨
      s'.pops = s.pops + 1 ∧ s'.taken = s.pushed) := by
    intro ha
    obtain ⟨hpushed, htaken, -, hpops⟩ := ha.ghosts
    exact ⟨hpushed ▸ List.prefix_rfl, Or.inl ⟨hpops, htaken⟩⟩
  cases a with
  | elsewhere n next data => exact haside (Aside.elsewhere hstep)
  | push t n => exact haside (Aside.push hstep)
  | pusher t spurious =>
      rcases (pushStep_cases hstep).aside h.pushing with ha | ⟨n, -, rfl⟩
      · exact haside ha
      · exact ⟨List.prefix_append _ _, Or.inl ⟨rfl, rfl⟩⟩
  | owner =>
      obtain rfl : ownerStep s = s' := Option.some.inj hstep
      unfold ownerStep
      split
      · exact ⟨List.prefix_rfl, Or.inr ⟨rfl, rfl⟩⟩
      all_goals exact ⟨List.prefix_rfl, Or.inl ⟨rfl, rfl⟩⟩

/-- What was pushed at some point is detached by the next exchange. -/
theorem taken_run {P : List (ℕ × T)} {j : ℕ} {as : List (Act T)} (hs : Inv s)
    (hP : P <+: s.pushed) (hj : j < s.pops → P <+: s.taken) (hle : j ≤ s.pops)
    (h : (machine T).Run Machine.free s as t) : j < t.pops → P <+: t.taken := by
  have hinv : (Inv t ∧ P <+: t.pushed ∧ (j < t.pops → P <+: t.taken) ∧ j ≤ t.pops) := by
    refine h.invariant (P := fun s => Inv s ∧ P <+: s.pushed ∧ (j < s.pops → P <+: s.taken) ∧
      j ≤ s.pops) ?_ ⟨hs, hP, hj, hle⟩
    rintro s a s' ⟨hs, hP, hj, hle⟩ - hstep
    obtain ⟨hpushed, hpops⟩ := taken_step hs hstep
    refine ⟨hs.step hstep, hP.trans hpushed, ?_, ?_⟩
    · rcases hpops with ⟨hpops, htaken⟩ | ⟨-, htaken⟩
      · rw [hpops, htaken]
        exact hj
      · intro _
        rw [htaken]
        exact hP
    · rcases hpops with ⟨hpops, -⟩ | ⟨hpops, -⟩
      · rw [hpops]
        exact hle
      · rw [hpops]
        exact Nat.le_succ_of_le hle
  exact hinv.2.2.1

/-- What has been pushed is delivered, or is still in the list. -/
theorem Inv.delivers (hs : Inv s) : Delivers s := by
  intro as t hrun hpops hidle
  obtain ⟨⟨b, c, k, hl⟩, -⟩ := inv_run hs hrun
  rw [hl.inOrder.idle hidle]
  exact taken_run hs List.prefix_rfl (fun hlt => absurd hlt (Nat.lt_irrefl _)) (Nat.le_refl _)
    hrun hpops

/-! ## A batch ends -/

/-- The owner's remaining steps bound its batch: its own steps use them up, and the others leave
them as they are. -/
theorem Listed.batchEnds (h : Listed s b c k) (hs : Inv s) : BatchEnds s k := by
  intro as t hrun hcount
  induction as generalizing s b c k with
  | nil =>
      obtain rfl : s = t := hrun
      have hk : k = 0 := Nat.le_zero.mp hcount
      exact ⟨[], [], s, rfl, rfl, rfl, h.batch.idle_iff.mpr hk⟩
  | cons a as ih =>
      by_cases hk : k = 0
      · exact ⟨[], a :: as, s, rfl, rfl, hrun, h.batch.idle_iff.mpr hk⟩
      obtain ⟨hok, s', hstep, hrun⟩ := hrun
      have hnext : ∃ b' c' k', Listed s' b' c' k' ∧ k' ≤ as.countP Act.isOwner := by
        by_cases ha : a.isOwner = true
        · obtain rfl : a = .owner := by
            cases a with
            | owner => rfl
            | _ => cases ha
          obtain rfl : ownerStep s = s' := Option.some.inj hstep
          obtain ⟨b', h'⟩ := h.owner hk
          rw [List.countP_cons_of_pos ha] at hcount
          exact ⟨b', c, k - 1, h', Nat.sub_le_of_le_add hcount⟩
        · have hne : a ≠ .owner := by
            rintro rfl
            exact ha rfl
          obtain ⟨c', h'⟩ := h.other hs.pushing hne hstep
          rw [List.countP_cons_of_neg ha] at hcount
          exact ⟨b, c', k, h', hcount⟩
      obtain ⟨b', c', k', h', hcount'⟩ := hnext
      obtain ⟨bs, cs, m, rfl, hbs, hcs, hidle⟩ := ih h' (hs.step hstep) hrun hcount'
      exact ⟨a :: bs, cs, m, rfl, ⟨hok, s', hstep, hbs⟩, hcs, hidle⟩

/-! ## The result -/

/-- **Every submission is delivered once, in order.** Whatever the threads, the owner, and those
who reuse the nodes it has handed out do, and in whatever order. -/
theorem delivered_of_run (next : ℕ → Option ℕ) (data : ℕ → T) (as : List (Act T)) (s : State T)
    (h : (machine T).Run Machine.free (State.new next data) as s) :
    InOrder s ∧ Delivers s ∧ ∃ k, BatchEnds s k := by
  have hs := inv_run (inv_new next data) h
  obtain ⟨b, c, k, hl⟩ := hs.listed
  exact ⟨hl.inOrder, hs.delivers, k, hl.batchEnds hs⟩

/-- The thread `0` reads the node `0` as the head. The owner detaches it and passes it to the
function, which constructs another node in its place and pushes that; then the thread's
compare-exchange succeeds, and both nodes are delivered, each once. -/
theorem delivered_of_run_aba :
    ∃ s : State ℕ, (machine ℕ).Run Machine.free (State.new (fun _ => none) fun n => n)
        [.push 1 0, .pusher 1 false, .pusher 1 false, .pusher 1 false,
          .push 0 1, .pusher 0 false, .pusher 0 false,
          .owner, .owner, .owner, .owner, .owner, .owner, .owner,
          .elsewhere 0 none 7, .push 2 0, .pusher 2 false, .pusher 2 false, .pusher 2 false,
          .pusher 0 false,
          .owner, .owner, .owner, .owner, .owner, .owner, .owner, .owner, .owner, .owner,
          .owner] s ∧
      s.handed = [(0, 0), (0, 7), (1, 1)] ∧
      (InOrder s ∧ Delivers s ∧ ∃ k, BatchEnds s k) := by
  have h : ((machine ℕ).exec Machine.free (State.new (fun _ => none) fun n => n)
      [.push 1 0, .pusher 1 false, .pusher 1 false, .pusher 1 false,
        .push 0 1, .pusher 0 false, .pusher 0 false,
        .owner, .owner, .owner, .owner, .owner, .owner, .owner,
        .elsewhere 0 none 7, .push 2 0, .pusher 2 false, .pusher 2 false, .pusher 2 false,
        .pusher 0 false,
        .owner, .owner, .owner, .owner, .owner, .owner, .owner, .owner, .owner, .owner,
        .owner]).map State.handed = some [(0, 0), (0, 7), (1, 1)] := by
    decide
  obtain ⟨s, hs, hhanded⟩ := Option.map_eq_some_iff.mp h
  have hrun := Machine.run_iff_exec.mpr hs
  exact ⟨s, hrun, hhanded, delivered_of_run _ _ _ s hrun⟩

end Libfork.IntrusiveList
