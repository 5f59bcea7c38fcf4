import Libfork.Found.Chain
import Libfork.IntrusiveList.Model
import Mathlib.Data.List.Nodup

/-!
# The chains of the submission list

* `Batch` — the nodes the owner holds, in the order it will pass them to the function, at every
  point of the reversal and of the walk.
* `Listed` — these and the nodes reachable from the head are all the linked ones, each once, and
  they account for everything pushed and not yet handed to the function.
* `Pushing` — a call of `push` has its node for itself, and links it to the head it compares.
* **`Inv.step`** — every step keeps them.

Source: `list.hpp`, class `intrusive_list`.
-/

namespace Libfork.IntrusiveList

open Libfork.Found

variable {T : Type} {s s' : State T} {b c : List ℕ} {k t n : ℕ}

/-! ## The invariant -/

/-- The owner holds the nodes `b`, the next one to pass to the function first, and has `k` steps
to go to the end of its batch. While it reverses, `last` leads to the nodes that are still in the
order of the compare-exchanges, latest first, and `first` to those already turned round. -/
def Batch (next : ℕ → Option ℕ) : OwnerPc → List ℕ → ℕ → Prop
  | .idle, b, k => b = [] ∧ k = 0
  | .reverse last first, b, k => ∃ r f, Chain next last r ∧ Chain next first f ∧
      b = r.reverse ++ f ∧ k = 4 * r.length + 2 * f.length + 2
  | .relink last tmp first, b, k => ∃ r f, Chain next last r ∧ Chain next first f ∧
      b = r.reverse ++ tmp :: f ∧ k = 4 * r.length + 2 * f.length + 5
  | .walk root, b, k => Chain next root b ∧ k = 2 * b.length + 1
  | .invoke root nx, b, k => ∃ w, Chain next nx w ∧ b = root :: w ∧ k = 2 * w.length + 2

/-- The owner holds `b`, with `k` steps to go, and the head leads to `c`. -/
structure Listed (s : State T) (b c : List ℕ) (k : ℕ) : Prop where
  chain : Chain s.mNext s.mHead c
  batch : Batch s.mNext s.owner b k
  nodup : (b ++ c.reverse).Nodup
  linked : ∀ n, s.place n = .linked ↔ n ∈ b ++ c.reverse
  taken : s.taken = s.handed ++ b.map s.entry
  pushed : s.pushed = s.taken ++ c.reverse.map s.entry

/-- What the calls of `push` rely on. -/
structure Pushing (s : State T) : Prop where
  /-- The node of a call is in nobody else's hands. -/
  own : ∀ t n, (s.pusher t).newNode = some n → s.place n = .pushing
  /-- Two calls have two nodes. -/
  inj : ∀ t u n, (s.pusher t).newNode = some n → (s.pusher u).newNode = some n → t = u
  /-- The node is linked to the head that the compare-exchange expects. -/
  link : ∀ t n stale, s.pusher t = .cas n stale → s.mNext n = stale

/-- The invariant of the list. -/
structure Inv (s : State T) : Prop where
  listed : ∃ b c k, Listed s b c k
  pushing : Pushing s

/-- The list is empty at first. -/
theorem inv_new (next : ℕ → Option ℕ) (data : ℕ → T) : Inv (State.new next data) := by
  constructor
  · refine ⟨[], [], 0, rfl, ⟨rfl, rfl⟩, List.nodup_nil, ?_, rfl, rfl⟩
    intro n
    simp [State.new]
  · constructor
    · intro t n h
      cases h
    · intro t u n h
      cases h
    · intro t n stale h
      cases h

/-! ## Steps that leave the linked nodes alone -/

/-- The owner's nodes do not depend on the links of others. -/
theorem Batch.congr {next next' : ℕ → Option ℕ} {pc : OwnerPc} (h : Batch next pc b k)
    (heq : ∀ n ∈ b, next' n = next n) : Batch next' pc b k := by
  cases pc with
  | idle => exact h
  | reverse last first =>
      obtain ⟨r, f, hr, hf, rfl, hk⟩ := h
      refine ⟨r, f, hr.congr fun n hn => heq n ?_, hf.congr fun n hn => heq n ?_, rfl, hk⟩
      · simp [hn]
      · simp [hn]
  | relink last tmp first =>
      obtain ⟨r, f, hr, hf, rfl, hk⟩ := h
      refine ⟨r, f, hr.congr fun n hn => heq n ?_, hf.congr fun n hn => heq n ?_, rfl, hk⟩
      · simp [hn]
      · simp [hn]
  | walk root => exact ⟨h.1.congr heq, h.2⟩
  | invoke root nx =>
      obtain ⟨w, hw, rfl, hk⟩ := h
      exact ⟨w, hw.congr fun n hn => heq n (List.mem_cons_of_mem _ hn), rfl, hk⟩

/-- What a step of a thread other than the owner leaves as it is, unless it links a node. -/
structure Aside (s s' : State T) : Prop where
  head : s'.mHead = s.mHead
  owner : s'.owner = s.owner
  next : ∀ n, s.place n = .linked → s'.mNext n = s.mNext n
  data : ∀ n, s.place n = .linked → s'.mData n = s.mData n
  linked : ∀ n, s'.place n = .linked ↔ s.place n = .linked
  ghosts : s'.pushed = s.pushed ∧ s'.taken = s.taken ∧ s'.handed = s.handed ∧ s'.pops = s.pops

/-- Such a step keeps the chains. -/
theorem Listed.aside (h : Listed s b c k) (ha : Aside s s') : Listed s' b c k := by
  have hmem : ∀ n, n ∈ b ++ c.reverse → s.place n = .linked := fun n hn => (h.linked n).mpr hn
  have hb : ∀ n ∈ b, s.place n = .linked := fun n hn => hmem n (List.mem_append_left _ hn)
  have hc : ∀ n ∈ c.reverse, s.place n = .linked := fun n hn => hmem n (List.mem_append_right _ hn)
  have hentry : ∀ n, s.place n = .linked → s'.entry n = s.entry n := by
    intro n hn
    rw [State.entry, State.entry, ha.data n hn]
  obtain ⟨hpushed, htaken, hhanded, -⟩ := ha.ghosts
  constructor
  · rw [ha.head]
    exact h.chain.congr fun n hn => ha.next n (hc n (List.mem_reverse.mpr hn))
  · rw [ha.owner]
    exact h.batch.congr fun n hn => ha.next n (hb n hn)
  · exact h.nodup
  · intro n
    rw [ha.linked, h.linked]
  · rw [htaken, hhanded, h.taken, List.map_congr_left fun n hn => hentry n (hb n hn)]
  · rw [hpushed, htaken, h.pushed, List.map_congr_left fun n hn => hentry n (hc n hn)]

/-- Moving a node between the hands of threads that do not have it linked. -/
theorem linked_update {place : ℕ → Place} {p : Place} (hn : place n ≠ .linked)
    (hp : p ≠ .linked) (m : ℕ) : Function.update place n p m = .linked ↔ place m = .linked := by
  by_cases hm : m = n
  · subst hm
    rw [Function.update_self]
    exact iff_of_false hp hn
  · rw [Function.update_of_ne hm]

/-- A write to a node that is not linked. -/
theorem update_linked {β : Type} {f : ℕ → β} (hn : s.place n ≠ .linked) (x : β) (m : ℕ)
    (hm : s.place m = .linked) : Function.update f n x m = f m := by
  apply Function.update_of_ne
  rintro rfl
  exact hn hm

/-- Somebody else's writes. -/
theorem elsewhere_cases {next : Option ℕ} {data : T} (h : elsewhere s n next data = some s') :
    s.place n = .outside ∧ s' = { s with
      mNext := Function.update s.mNext n next
      mData := Function.update s.mData n data } := by
  unfold elsewhere at h
  split at h
  · rename_i hplace
    exact ⟨hplace, (Option.some.inj h).symm⟩
  · cases h

/-- What is written elsewhere does not touch the list. -/
theorem Aside.elsewhere {next : Option ℕ} {data : T} (h : elsewhere s n next data = some s') :
    Aside s s' := by
  obtain ⟨hplace, rfl⟩ := elsewhere_cases h
  have hn : s.place n ≠ .linked := by simp [hplace]
  exact ⟨rfl, rfl, update_linked hn next, update_linked hn data, fun _ => Iff.rfl,
    rfl, rfl, rfl, rfl⟩

/-- What a call of `push` requires and does. -/
theorem pushCall_cases (h : pushCall s t n = some s') :
    s.pusher t = .idle ∧ s.place n = .outside ∧ s.mNext n = none ∧ s' = { s with
      pusher := Function.update s.pusher t (.load n)
      place := Function.update s.place n .pushing } := by
  unfold pushCall at h
  split at h
  · rename_i hpc hplace hnext
    exact ⟨hpc, hplace, hnext, (Option.some.inj h).symm⟩
  · cases h

/-- Nor does the call of `push`. -/
theorem Aside.push (h : pushCall s t n = some s') : Aside s s' := by
  obtain ⟨-, hplace, -, rfl⟩ := pushCall_cases h
  have hn : s.place n ≠ .linked := by simp [hplace]
  exact ⟨rfl, rfl, fun _ _ => rfl, fun _ _ => rfl, linked_update hn (by simp), rfl, rfl, rfl, rfl⟩

/-! ## The calls of push -/

/-- Steps that leave the pushed nodes to their threads. -/
theorem Pushing.aside (h : Pushing s) (hpusher : s'.pusher = s.pusher)
    (hplace : ∀ n, s.place n = .pushing → s'.place n = .pushing)
    (hnext : ∀ n, s.place n = .pushing → s'.mNext n = s.mNext n) : Pushing s' := by
  constructor
  · intro t n ht
    rw [hpusher] at ht
    exact hplace n (h.own t n ht)
  · intro t u n ht hu
    rw [hpusher] at ht hu
    exact h.inj t u n ht hu
  · intro t n stale ht
    rw [hpusher] at ht
    rw [hnext n (h.own t n (by rw [ht]; rfl))]
    exact h.link t n stale ht

/-- The pushes go on while something is written elsewhere. -/
theorem Pushing.elsewhere {next : Option ℕ} {data : T} (h : Pushing s)
    (hstep : IntrusiveList.elsewhere s n next data = some s') : Pushing s' := by
  obtain ⟨hplace, rfl⟩ := elsewhere_cases hstep
  refine h.aside rfl (fun _ hm => hm) ?_
  intro m hm
  apply Function.update_of_ne
  rintro rfl
  rw [hplace] at hm
  cases hm

/-- A call that goes on with the node it has, or takes one that nobody has. -/
theorem Pushing.goto (h : Pushing s) {pc : PushPc} {place : ℕ → Place} {next : ℕ → Option ℕ}
    (hother : ∀ u m, u ≠ t → (s.pusher u).newNode = some m →
      pc.newNode ≠ some m ∧ place m = .pushing ∧ next m = s.mNext m)
    (hown : ∀ m, pc.newNode = some m → place m = .pushing)
    (hlink : ∀ m stale, pc = .cas m stale → next m = stale)
    (hpusher : s'.pusher = Function.update s.pusher t pc) (hplace : s'.place = place)
    (hnext : s'.mNext = next) : Pushing s' := by
  have hself : s'.pusher t = pc := by rw [hpusher, Function.update_self]
  have hne : ∀ u, u ≠ t → s'.pusher u = s.pusher u := by
    intro u hu
    rw [hpusher, Function.update_of_ne hu]
  constructor
  · intro u m hm
    rw [hplace]
    by_cases hu : u = t
    · subst hu
      rw [hself] at hm
      exact hown m hm
    · rw [hne u hu] at hm
      exact (hother u m hu hm).2.1
  · intro u v m hum hvm
    by_cases hu : u = t
    · by_cases hv : v = t
      · rw [hu, hv]
      · rw [hne v hv] at hvm
        rw [hu, hself] at hum
        exact absurd hum (hother v m hv hvm).1
    · rw [hne u hu] at hum
      by_cases hv : v = t
      · rw [hv, hself] at hvm
        exact absurd hvm (hother u m hu hum).1
      · rw [hne v hv] at hvm
        exact h.inj u v m hum hvm
  · intro u m stale hm
    rw [hnext]
    by_cases hu : u = t
    · subst hu
      rw [hself] at hm
      exact hlink m stale hm
    · rw [hne u hu] at hm
      rw [(hother u m hu (by rw [hm]; rfl)).2.2]
      exact h.link u m stale hm

/-- They go on while another one is called. -/
theorem Pushing.push (h : Pushing s) (hstep : pushCall s t n = some s') : Pushing s' := by
  obtain ⟨-, hplace, -, rfl⟩ := pushCall_cases hstep
  have hne : ∀ u m, (s.pusher u).newNode = some m → m ≠ n := by
    rintro u m hm rfl
    have := h.own u m hm
    rw [hplace] at this
    cases this
  refine h.goto (t := t) ?_ ?_ ?_ rfl rfl rfl
  · intro u m _ hm
    refine ⟨?_, ?_, rfl⟩
    · rintro hnm
      exact hne u m hm (Option.some.inj hnm).symm
    · exact (Function.update_of_ne (hne u m hm) ..).trans (h.own u m hm)
  · intro m hm
    obtain rfl := Option.some.inj hm
    exact Function.update_self ..
  · intro m stale hm
    cases hm

/-- What one access of `push` does. -/
inductive PushStep (s : State T) (t : ℕ) : State T → Prop
  | load (n : ℕ) (hpc : s.pusher t = .load n) :
      PushStep s t { s with pusher := Function.update s.pusher t (.link n s.mHead) }
  | link (n : ℕ) (stale : Option ℕ) (hpc : s.pusher t = .link n stale) :
      PushStep s t { s with
        mNext := Function.update s.mNext n stale
        pusher := Function.update s.pusher t (.cas n stale) }
  | fail (n : ℕ) (stale : Option ℕ) (hpc : s.pusher t = .cas n stale) :
      PushStep s t { s with pusher := Function.update s.pusher t (.link n s.mHead) }
  | succeed (n : ℕ) (hpc : s.pusher t = .cas n s.mHead) :
      PushStep s t { s with
        mHead := some n
        place := Function.update s.place n .linked
        pusher := Function.update s.pusher t .idle
        pushed := s.pushed ++ [s.entry n] }

/-- An access of `push` is one of the steps. -/
theorem pushStep_cases {spurious : Bool} (h : pushStep s t spurious = some s') :
    PushStep s t s' := by
  unfold pushStep at h
  split at h
  · cases h
  · rename_i n hpc
    obtain rfl := Option.some.inj h
    exact .load n hpc
  · rename_i n stale hpc
    obtain rfl := Option.some.inj h
    exact .link n stale hpc
  · rename_i n stale hpc
    split at h
    · rename_i hcas
      obtain rfl := Option.some.inj h
      exact .succeed n (hcas.1 ▸ hpc)
    · obtain rfl := Option.some.inj h
      exact .fail n stale hpc

/-- A call that goes on with its node. -/
theorem Pushing.goto_own (h : Pushing s) {pc : PushPc} (hpc : (s.pusher t).newNode = some n)
    (hnew : pc.newNode = some n) (hlink : ∀ m stale, pc = .cas m stale → s'.mNext m = stale)
    (hpusher : s'.pusher = Function.update s.pusher t pc) (hplace : s'.place = s.place)
    (hnext : ∀ m, m ≠ n → s'.mNext m = s.mNext m) : Pushing s' := by
  have hne : ∀ u m, u ≠ t → (s.pusher u).newNode = some m → m ≠ n := by
    rintro u m hu hm rfl
    exact hu (h.inj u t m hm hpc)
  refine h.goto ?_ ?_ hlink hpusher hplace rfl
  · intro u m hu hm
    refine ⟨?_, h.own u m hm, hnext m (hne u m hu hm)⟩
    rintro hm'
    rw [hnew] at hm'
    exact hne u m hu hm (Option.some.inj hm').symm
  · intro m hm
    rw [hnew] at hm
    exact h.own t m (by rw [hpc, hm])

/-- The pushes go on by a step of one of them. -/
theorem Pushing.pusher (h : Pushing s) (hstep : PushStep s t s') : Pushing s' := by
  cases hstep with
  | load n hpc =>
      refine h.goto_own (n := n) (by rw [hpc]; rfl) rfl ?_ rfl rfl (fun _ _ => rfl)
      intro m stale hm
      cases hm
  | link n stale hpc =>
      refine h.goto_own (n := n) (by rw [hpc]; rfl) rfl ?_ rfl rfl ?_
      · rintro m stale' ⟨⟩
        exact Function.update_self ..
      · intro m hm
        exact Function.update_of_ne hm ..
  | fail n stale hpc =>
      refine h.goto_own (n := n) (by rw [hpc]; rfl) rfl ?_ rfl rfl (fun _ _ => rfl)
      intro m stale hm
      cases hm
  | succeed n hpc =>
      have hpc' : (s.pusher t).newNode = some n := by rw [hpc]; rfl
      refine h.goto (t := t) ?_ ?_ ?_ rfl rfl rfl
      · intro u m hu hm
        refine ⟨by simp [PushPc.newNode], ?_, rfl⟩
        have hmn : m ≠ n := by
          rintro rfl
          exact hu (h.inj u t m hm hpc')
        exact (Function.update_of_ne hmn ..).trans (h.own u m hm)
      · intro m hm
        cases hm
      · intro m stale hm
        cases hm

/-- A node that a call of `push` has is not linked. -/
theorem Pushing.not_linked (h : Pushing s) (hpc : (s.pusher t).newNode = some n) :
    s.place n ≠ .linked := by
  rw [h.own t n hpc]
  simp

/-- A successful compare-exchange puts its node before the others: whatever the head was when
`stale_head` was read, it is what the node's link points to now. -/
theorem Listed.succeed (h : Listed s b c k) (hp : Pushing s) (hpc : s.pusher t = .cas n s.mHead) :
    Listed { s with
      mHead := some n
      place := Function.update s.place n .linked
      pusher := Function.update s.pusher t .idle
      pushed := s.pushed ++ [s.entry n] } b (n :: c) k := by
  have hn : n ∉ b ++ c.reverse := by
    rw [← h.linked]
    exact hp.not_linked (by rw [hpc]; rfl)
  have hsplit : b ++ (n :: c).reverse = (b ++ c.reverse) ++ [n] := by simp
  constructor
  · refine ⟨rfl, ?_⟩
    rw [show s.mNext n = s.mHead from hp.link t n s.mHead hpc]
    exact h.chain
  · exact h.batch
  · rw [hsplit]
    apply List.nodup_append.mpr
    refine ⟨h.nodup, List.nodup_singleton n, ?_⟩
    rintro m hm m' hm' rfl
    rw [List.mem_singleton] at hm'
    exact hn (hm' ▸ hm)
  · intro m
    rw [hsplit, List.mem_append, List.mem_singleton, ← h.linked]
    by_cases hm : m = n
    · subst hm
      simp
    · simp [hm]
  · exact h.taken
  · change s.pushed ++ [s.entry n] = _
    rw [h.pushed, List.reverse_cons, List.map_append, ← List.append_assoc]
    rfl

/-- An access of `push` that links nothing. -/
theorem PushStep.aside (hp : Pushing s) (hstep : PushStep s t s') :
    Aside s s' ∨ ∃ n, s.pusher t = .cas n s.mHead ∧ s' = { s with
      mHead := some n
      place := Function.update s.place n .linked
      pusher := Function.update s.pusher t .idle
      pushed := s.pushed ++ [s.entry n] } := by
  cases hstep with
  | load n hpc =>
      left
      exact ⟨rfl, rfl, fun _ _ => rfl, fun _ _ => rfl, fun _ => Iff.rfl, rfl, rfl, rfl, rfl⟩
  | link n stale hpc =>
      left
      have hn := hp.not_linked (t := t) (n := n) (by rw [hpc]; rfl)
      exact ⟨rfl, rfl, update_linked hn stale, fun _ _ => rfl, fun _ => Iff.rfl,
        rfl, rfl, rfl, rfl⟩
  | fail n stale hpc =>
      left
      exact ⟨rfl, rfl, fun _ _ => rfl, fun _ _ => rfl, fun _ => Iff.rfl, rfl, rfl, rfl, rfl⟩
  | succeed n hpc =>
      right
      exact ⟨n, hpc, rfl⟩

/-! ## The owner -/

/-- What the owner holds decides where it goes. -/
theorem Batch.idle_iff {next : ℕ → Option ℕ} {pc : OwnerPc} (h : Batch next pc b k) :
    pc = .idle ↔ k = 0 := by
  cases pc with
  | idle => simp [h.2]
  | reverse last first =>
      obtain ⟨r, f, -, -, -, hk⟩ := h
      simp [hk]
  | relink last tmp first =>
      obtain ⟨r, f, -, -, -, hk⟩ := h
      simp [hk]
  | walk root => simp [h.2]
  | invoke root nx =>
      obtain ⟨w, -, -, hk⟩ := h
      simp [hk]

/-- The node that the owner is about to access is one of those it holds. -/
theorem Batch.touches_mem {next : ℕ → Option ℕ} {pc : OwnerPc} (h : Batch next pc b k)
    (hn : pc.touches = some n) : n ∈ b := by
  cases pc with
  | idle => cases hn
  | reverse last first =>
      obtain ⟨r, f, hr, -, rfl, -⟩ := h
      obtain rfl : last = some n := hn
      obtain ⟨r', rfl, -⟩ := hr.eq_cons
      simp
  | relink last tmp first =>
      obtain ⟨r, f, -, -, rfl, -⟩ := h
      obtain rfl := Option.some.inj hn
      simp
  | walk root =>
      obtain rfl : root = some n := hn
      obtain ⟨w, rfl, -⟩ := h.1.eq_cons
      exact List.mem_cons_self
  | invoke root nx =>
      obtain ⟨w, -, rfl, -⟩ := h
      obtain rfl := Option.some.inj hn
      exact List.mem_cons_self

/-- The owner's next call of `try_pop_all` detaches everything the head leads to. -/
theorem Listed.exchange (h : Listed s b c k) (hpc : s.owner = .idle) :
    Listed (ownerStep s) c.reverse [] (4 * c.length + 2) := by
  have hb : b = [] := by
    have := h.batch
    rw [hpc] at this
    exact this.1
  subst hb
  rw [ownerStep, hpc]
  refine ⟨rfl, ⟨c, [], h.chain, rfl, by simp, by simp⟩, ?_, ?_, ?_, ?_⟩
  · simpa using h.nodup
  · simpa using h.linked
  · change s.pushed = s.handed ++ c.reverse.map s.entry
    rw [h.pushed, h.taken, List.map_nil, List.append_nil]
  · exact (List.append_nil s.pushed).symm

/-- A step of the owner that passes nothing to the function. -/
theorem Listed.go (h : Listed s b c k) {pc : OwnerPc} {next : ℕ → Option ℕ} {k' : ℕ}
    (hnext : ∀ n ∈ c, next n = s.mNext n) (hb : Batch next pc b k') :
    Listed { s with mNext := next, owner := pc } b c k' :=
  ⟨h.chain.congr hnext, hb, h.nodup, h.linked, h.taken, h.pushed⟩

/-- The reversal moves one node over. -/
theorem Listed.relink (h : Listed s b c k) {last first : Option ℕ} {tmp : ℕ}
    (hpc : s.owner = .relink last tmp first) : Listed { s with
      mNext := Function.update s.mNext tmp first
      owner := .reverse last (some tmp) } b c (k - 1) := by
  have hbatch := h.batch
  rw [hpc] at hbatch
  obtain ⟨r, f, hr, hf, rfl, rfl⟩ := hbatch
  have hnodup := h.nodup
  simp only [List.nodup_append, List.nodup_cons, List.mem_append, List.mem_cons,
    List.mem_reverse] at hnodup
  obtain ⟨⟨-, ⟨htmpf, -⟩, hrf⟩, -, hbc⟩ := hnodup
  have htmpr : tmp ∉ r := fun hmem => hrf tmp hmem tmp (Or.inl rfl) rfl
  have htmpc : tmp ∉ c := fun hmem => hbc tmp (Or.inr (Or.inl rfl)) tmp hmem rfl
  refine h.go ?_ ⟨r, tmp :: f, hr.update htmpr first, hf.link htmpf, rfl, ?_⟩
  · intro n hn
    refine Function.update_of_ne ?_ ..
    rintro rfl
    exact htmpc hn
  · simp only [List.length_cons]
    omega

/-- The function is given the first node the owner holds. -/
theorem Listed.invoke (h : Listed s b c k) {root : ℕ} {nx : Option ℕ}
    (hpc : s.owner = .invoke root nx) : ∃ w, b = root :: w ∧ Listed { s with
      owner := .walk nx
      place := Function.update s.place root .outside
      handed := s.handed ++ [s.entry root] } w c (k - 1) := by
  have hbatch := h.batch
  rw [hpc] at hbatch
  obtain ⟨w, hw, rfl, rfl⟩ := hbatch
  have hnodup := h.nodup
  rw [List.cons_append, List.nodup_cons] at hnodup
  refine ⟨w, rfl, h.chain, ⟨hw, rfl⟩, hnodup.2, ?_, ?_, h.pushed⟩
  · intro n
    by_cases hn : n = root
    · subst hn
      simpa using hnodup.1
    · have := h.linked n
      rw [List.cons_append, List.mem_cons, or_iff_right hn] at this
      exact (by rw [Function.update_of_ne hn] : Function.update s.place root Place.outside n
        = .linked ↔ s.place n = .linked).trans this
  · change s.taken = (s.handed ++ [s.entry root]) ++ w.map s.entry
    rw [h.taken, List.map_cons, List.append_assoc, List.singleton_append]

/-- Inside a batch, every step of the owner brings its end closer. -/
theorem Listed.owner (h : Listed s b c k) (hk : k ≠ 0) :
    ∃ b', Listed (ownerStep s) b' c (k - 1) := by
  have hbatch := h.batch
  cases hpc : s.owner with
  | idle => exact absurd (hbatch.idle_iff.mp hpc) hk
  | reverse last first =>
      rw [hpc] at hbatch
      obtain ⟨r, f, hr, hf, rfl, rfl⟩ := hbatch
      refine ⟨r.reverse ++ f, ?_⟩
      cases last with
      | none =>
          obtain rfl := hr.eq_nil
          rw [ownerStep, hpc]
          exact h.go (fun _ _ => rfl) ⟨hf, by simp⟩
      | some last =>
          obtain ⟨r, rfl, hr'⟩ := hr.eq_cons
          rw [ownerStep, hpc]
          refine h.go (fun _ _ => rfl) ⟨r, f, hr', hf, by simp, ?_⟩
          simp only [List.length_cons]
          omega
  | relink last tmp first =>
      rw [ownerStep, hpc]
      exact ⟨b, h.relink hpc⟩
  | walk root =>
      rw [hpc] at hbatch
      obtain ⟨hw, rfl⟩ := hbatch
      refine ⟨b, ?_⟩
      cases root with
      | none =>
          obtain rfl := hw.eq_nil
          rw [ownerStep, hpc]
          exact h.go (fun _ _ => rfl) ⟨rfl, rfl⟩
      | some root =>
          obtain ⟨w, rfl, hw'⟩ := hw.eq_cons
          rw [ownerStep, hpc]
          refine h.go (fun _ _ => rfl) ⟨w, hw', rfl, ?_⟩
          simp only [List.length_cons]
          omega
  | invoke root nx =>
      obtain ⟨w, rfl, hw⟩ := h.invoke hpc
      rw [ownerStep, hpc]
      exact ⟨w, hw⟩

/-- The owner leaves the nodes that are being pushed to their threads. -/
theorem Pushing.owner (h : Pushing s) (hl : Listed s b c k) : Pushing (ownerStep s) := by
  have hlinked : ∀ n, s.owner.touches = some n → s.place n = .linked := by
    intro n hn
    rw [hl.linked]
    exact List.mem_append_left _ (hl.batch.touches_mem hn)
  have hne : ∀ n m, s.owner.touches = some n → s.place m = .pushing → m ≠ n := by
    rintro n m hn hm rfl
    rw [hlinked m hn] at hm
    cases hm
  cases hpc : s.owner with
  | idle =>
      rw [ownerStep, hpc]
      exact h.aside rfl (fun _ hm => hm) fun _ _ => rfl
  | reverse last first =>
      cases last <;> rw [ownerStep, hpc] <;> exact h.aside rfl (fun _ hm => hm) fun _ _ => rfl
  | relink last tmp first =>
      rw [ownerStep, hpc]
      refine h.aside rfl (fun _ hm => hm) fun m hm => ?_
      exact Function.update_of_ne (hne tmp m (by rw [hpc]; rfl) hm) ..
  | walk root =>
      cases root <;> rw [ownerStep, hpc] <;> exact h.aside rfl (fun _ hm => hm) fun _ _ => rfl
  | invoke root nx =>
      rw [ownerStep, hpc]
      refine h.aside rfl (fun m hm => ?_) fun _ _ => rfl
      exact (Function.update_of_ne (hne root m (by rw [hpc]; rfl) hm) ..).trans hm

/-! ## Every step -/

/-- What a step of somebody other than the owner does to the chains. -/
theorem Listed.other {a : Act T} (h : Listed s b c k) (hp : Pushing s) (ha : a ≠ .owner)
    (hstep : (machine T).step s a = some s') : ∃ c', Listed s' b c' k := by
  cases a with
  | elsewhere n next data => exact ⟨c, h.aside (Aside.elsewhere hstep)⟩
  | push t n => exact ⟨c, h.aside (Aside.push hstep)⟩
  | pusher t spurious =>
      rcases (pushStep_cases hstep).aside hp with haside | ⟨n, hpc, rfl⟩
      · exact ⟨c, h.aside haside⟩
      · exact ⟨n :: c, h.succeed hp hpc⟩
  | owner => exact absurd rfl ha

/-- The list is held together by every step but those of its owner. -/
theorem Listed.other_exists {a : Act T} (h : Listed s b c k) (hp : Pushing s) (ha : a ≠ .owner)
    (hstep : (machine T).step s a = some s') : ∃ b c k, Listed s' b c k := by
  obtain ⟨c', h'⟩ := h.other hp ha hstep
  exact ⟨b, c', k, h'⟩

/-- Every step keeps the invariant. -/
theorem Inv.step {a : Act T} (h : Inv s) (hstep : (machine T).step s a = some s') : Inv s' := by
  obtain ⟨⟨b, c, k, hl⟩, hp⟩ := h
  cases a with
  | elsewhere n next data => exact ⟨hl.other_exists hp (by simp) hstep, hp.elsewhere hstep⟩
  | push t n => exact ⟨hl.other_exists hp (by simp) hstep, hp.push hstep⟩
  | pusher t spurious =>
      exact ⟨hl.other_exists hp (by simp) hstep, hp.pusher (pushStep_cases hstep)⟩
  | owner =>
      obtain rfl : ownerStep s = s' := Option.some.inj hstep
      refine ⟨?_, hp.owner hl⟩
      by_cases hk : k = 0
      · exact ⟨_, _, _, hl.exchange (hl.batch.idle_iff.mpr hk)⟩
      · obtain ⟨b', hl'⟩ := hl.owner hk
        exact ⟨b', c, _, hl'⟩

end Libfork.IntrusiveList
