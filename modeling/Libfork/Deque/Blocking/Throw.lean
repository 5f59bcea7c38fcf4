import Libfork.Deque.Blocking.Linearizability

/-!
# A push that throws

`push` may throw once it has the lock: where it allocates a bigger buffer, and where it records
the old one. It has no handler and no guard, so the lock stays taken.

* `Harmless` — what a caller of a `push` that throws relies on.
* `Stuck` — the flag is set, and nobody is there to reset it.
* **`stuck_of_throw`** — every push that throws, in every interleaving, leaves the deque stuck for
  ever, with the items it had.

Source: `deque_blocking.hpp`, `push`, `lock`, `unlock`; `awaitables.hpp`,
`fork_awaitable::await_suspend`.
-/

namespace Libfork.Deque.Blocking

open Libfork.Found
open Libfork.Found.Linearize (Phase History Legal effects)

variable {α : Type} {loose : Bool} {s s' t : State α} {q : List α} {n : ℕ}

/-! ## The statement -/

/-- In this step a call of `push(val)` throws. -/
def Throws [Inhabited α] (s : State α) (val : α) (s' : State α) : Prop :=
  (machine α).step s (.owner true) = some s' ∧
    .point .owner (.push val) .threw ∈ s'.log.drop s.log.length

/-- The buffers that the deque frees in the end. -/
def BlockingDeque.owned (d : BlockingDeque α) : List ℕ := d.mBuf :: d.mGarbage

/-- The deque holds what it would hold had the pushes that threw not been attempted. If it is loose,
steals may have missed items. -/
def HoldsItems (loose : Bool) (s : State α) : Prop :=
  ∃ q, Legal (dequeSpec α loose) [] (effects s.log) q ∧ Contents s.deque q

/-- **Harmless**: the items are there, the lock is free, and the deque owns every buffer that was
allocated, once. -/
structure Harmless (s : State α) : Prop where
  items : HoldsItems true s
  free : s.deque.mFlag = 0
  once : s.deque.owned.Nodup
  owned : ∀ p, p < s.deque.next → p ∈ s.deque.owned

/-- The flag is set, and nobody is in the locked region that ends with resetting it. -/
structure Stuck (s : State α) : Prop where
  flag : s.deque.mFlag = 1
  free : ∀ c, s.holds c = false

/-! ## A stuck deque stays as it is -/

/-- `empty_relaxed` leads to a place without the lock. -/
theorem popUnless_eq (s : State α) (top bottom : ℤ) :
    ∃ pc es, popUnless s top bottom = (s.go s.deque pc).logged es ∧ pc.locked = false := by
  unfold popUnless
  split
  · exact ⟨_, _, rfl, rfl⟩
  · exact ⟨.lock .pop, [], by rw [State.logged, List.append_nil], rfl⟩

/-- What the unlocked check leads to changes no deque and takes no lock. -/
theorem stealUnless_eq [Inhabited α] (s : State α) (n : ℕ) (top bottom : ℤ) :
    ∃ pc es, stealUnless s n top bottom = (s.goThief n s.deque pc).logged es ∧
      pc.locked = false := by
  unfold stealUnless
  split
  · exact ⟨_, _, rfl, rfl⟩
  · exact ⟨.tryLock, [], by rw [State.logged, List.append_nil], rfl⟩

/-- Without the lock, and without a way to get it, the owner changes nothing. -/
theorem Stuck.owner (h : Stuck s) {fails : Bool} (hstep : ownerStep s fails = some s') :
    s'.deque = s.deque ∧ s'.holds = s.holds := by
  have hfree : s.owner.locked = false := h.free .owner
  have hheld : ¬ s.deque.mFlag = 0 := by simp [h.flag]
  have hgo : ∀ pc : OwnerPc α, pc.locked = false → (s.go s.deque pc).holds = s.holds := by
    intro pc hpc
    rw [holds_go, hpc, ← h.free .owner, Function.update_eq_self]
  unfold ownerStep at hstep
  cases hpc : s.owner with
  | idle =>
      rw [hpc] at hstep
      cases hstep
  | empty =>
      rw [hpc] at hstep
      obtain rfl := Option.some.inj hstep
      exact ⟨rfl, hgo _ rfl⟩
  | emptyBottom _ | emptyTop _ =>
      rw [hpc] at hstep
      obtain rfl := Option.some.inj hstep
      obtain ⟨pc, es, heq, hpc'⟩ := popUnless_eq s _ _
      rw [heq]
      exact ⟨rfl, hgo pc hpc'⟩
  | lock k | lockWeak k =>
      simp only [hpc, lockExchange, hheld, false_and, if_false] at hstep
      obtain rfl := Option.some.inj hstep
      exact ⟨rfl, hgo _ rfl⟩
  | lockLoad k =>
      simp only [hpc, hheld, if_false] at hstep
      obtain rfl := Option.some.inj hstep
      exact ⟨rfl, hgo _ rfl⟩
  | _ =>
      rw [hpc] at hfree
      cases hfree

/-- Nor does a thief. -/
theorem Stuck.thief [Inhabited α] (h : Stuck s) (hstep : thiefStep s n = some s') :
    s'.deque = s.deque ∧ s'.holds = s.holds := by
  have hfree : (s.thief n).locked = false := h.free (.thief n)
  have hheld : ¬ s.deque.mFlag = 0 := by simp [h.flag]
  have hgo : ∀ pc : ThiefPc α, pc.locked = false → (s.goThief n s.deque pc).holds = s.holds := by
    intro pc hpc
    rw [holds_goThief, hpc, ← h.free (.thief n), Function.update_eq_self]
  unfold thiefStep at hstep
  cases hpc : s.thief n with
  | idle =>
      rw [hpc] at hstep
      cases hstep
  | empty =>
      rw [hpc] at hstep
      obtain rfl := Option.some.inj hstep
      exact ⟨rfl, hgo _ rfl⟩
  | emptyBottom _ | emptyTop _ =>
      rw [hpc] at hstep
      obtain rfl := Option.some.inj hstep
      obtain ⟨pc, es, heq, hpc'⟩ := stealUnless_eq s n _ _
      rw [heq]
      exact ⟨rfl, hgo pc hpc'⟩
  | tryLock =>
      simp only [hpc, hheld, if_false] at hstep
      obtain rfl := Option.some.inj hstep
      exact ⟨rfl, hgo _ rfl⟩
  | _ =>
      rw [hpc] at hfree
      cases hfree

/-- Calling an operation changes nothing. -/
theorem Stuck.ownerCall (h : Stuck s) {o : Op α} {pc : OwnerPc α}
    (hstep : ownerCall s o pc = some s') (hpc : pc.locked = false) :
    s'.deque = s.deque ∧ s'.holds = s.holds := by
  obtain ⟨-, rfl⟩ := ownerCall_cases hstep
  refine ⟨rfl, (holds_go s s.deque pc).trans ?_⟩
  rw [hpc, ← h.free .owner, Function.update_eq_self]

/-- A steal may be called, and changes nothing. -/
theorem Stuck.stealCall (h : Stuck s) (hstep : stealCall s n = some s') :
    s'.deque = s.deque ∧ s'.holds = s.holds := by
  obtain ⟨-, rfl⟩ := stealCall_cases hstep
  refine ⟨rfl, (holds_goThief s n s.deque _).trans ?_⟩
  rw [ThiefPc.locked, ← h.free (.thief n), Function.update_eq_self]

/-- Nor does loading the bottom first. -/
theorem Stuck.bottomFirst (h : Stuck s) {c : Thread} (hstep : bottomFirstStep s c = some s') :
    s'.deque = s.deque ∧ s'.holds = s.holds := by
  cases c with
  | owner =>
      simp only [bottomFirstStep] at hstep
      split at hstep
      · obtain rfl := Option.some.inj hstep
        refine ⟨rfl, (holds_go s s.deque _).trans ?_⟩
        rw [OwnerPc.locked, ← h.free .owner, Function.update_eq_self]
      · cases hstep
  | thief n =>
      simp only [bottomFirstStep] at hstep
      split at hstep
      · obtain rfl := Option.some.inj hstep
        refine ⟨rfl, (holds_goThief s n s.deque _).trans ?_⟩
        rw [ThiefPc.locked, ← h.free (.thief n), Function.update_eq_self]
      · cases hstep

/-- A stuck deque is stuck for ever. -/
theorem Stuck.step [Inhabited α] (h : Stuck s) {a : Act α}
    (hstep : (machine α).step s a = some s') : Stuck s' ∧ s'.deque = s.deque := by
  have hkeep : s'.deque = s.deque ∧ s'.holds = s.holds := by
    cases a with
    | owner fails => exact h.owner hstep
    | thief n => exact h.thief hstep
    | push v => exact h.ownerCall hstep rfl
    | pop => exact h.ownerCall hstep rfl
    | steal n => exact h.stealCall hstep
    | bottomFirst c => exact h.bottomFirst hstep
  obtain ⟨hdeque, hholds⟩ := hkeep
  exact ⟨⟨by rw [hdeque, h.flag], fun c => by rw [hholds, h.free c]⟩, hdeque⟩

/-- A deque that is stuck stays so, and as it is. -/
theorem Stuck.run [Inhabited α] (h : Stuck s) {as : List (Act α)}
    (hrun : (machine α).Run Machine.free s as t) : Stuck t ∧ t.deque = s.deque := by
  refine hrun.invariant (P := fun t => Stuck t ∧ t.deque = s.deque) ?_ ⟨h, rfl⟩
  rintro t a t' ⟨ht, hdeque⟩ - hstep
  obtain ⟨ht', hdeque'⟩ := ht.step hstep
  exact ⟨ht', hdeque'.trans hdeque⟩

/-! ## The throw -/

/-- A call of `push` throws from its locked region, and leaves everything as it is. -/
theorem Throws.eq [Inhabited α] {val : α} (h : Throws s val s') :
    s.owner.locked = true ∧ s' = pushThrows s val ∧
      ∀ d q p, OwnerInv d q s.owner p → p = .pending (.push val) := by
  obtain ⟨hstep, hmem⟩ := h
  change ownerStep s true = some s' at hstep
  have hquiet : s'.log ≠ s.log := by
    intro hlog
    rw [hlog, List.drop_length] at hmem
    cases hmem
  have hlogged : ∀ es, s'.log = s.log ++ es → .point .owner (.push val) .threw ∈ es := by
    intro es hlog
    rwa [hlog, List.drop_left] at hmem
  unfold ownerStep at hstep
  cases hpc : s.owner with
  | idle =>
      rw [hpc] at hstep
      cases hstep
  | empty | pushBottom _ | pushTop _ _ | copyLoad _ _ _ _ _ | copyStore _ _ _ _ _ _
  | pushSwap _ _ _ | pushStore _ _ _ | popBottom | popTop _ | popLoad _ _ | lockLoad _ =>
      rw [hpc] at hstep
      obtain rfl := Option.some.inj hstep
      exact absurd rfl hquiet
  | emptyBottom _ | emptyTop _ =>
      simp only [hpc, popUnless] at hstep
      split at hstep
      · obtain rfl := Option.some.inj hstep
        have := hlogged _ rfl
        simp at this
      · obtain rfl := Option.some.inj hstep
        exact absurd rfl hquiet
  | lock k | lockWeak k =>
      simp only [hpc, lockExchange] at hstep
      split at hstep
      · obtain rfl := Option.some.inj hstep
        exact absurd rfl hquiet
      · obtain rfl := Option.some.inj hstep
        exact absurd rfl hquiet
  | pushBuf v bottom top =>
      simp only [hpc, if_true] at hstep
      split at hstep
      · obtain rfl := Option.some.inj hstep
        obtain rfl : v = val := by
          have := hlogged _ rfl
          simpa [eq_comm] using this
        exact ⟨rfl, rfl, fun d q p hp => hp.1⟩
      · obtain rfl := Option.some.inj hstep
        exact absurd rfl hquiet
  | pushGarbage v bottom buf bigger =>
      simp only [hpc] at hstep
      split at hstep
      · obtain rfl := Option.some.inj hstep
        obtain rfl : v = val := by
          have := hlogged _ rfl
          simpa [eq_comm] using this
        exact ⟨rfl, rfl, fun d q p hp => hp.1⟩
      · obtain rfl := Option.some.inj hstep
        exact absurd rfl hquiet
  | popBuf bottom top =>
      simp only [hpc] at hstep
      split at hstep
      · obtain rfl := Option.some.inj hstep
        exact absurd rfl hquiet
      · obtain rfl := Option.some.inj hstep
        have := hlogged _ rfl
        simp at this
  | pushPublish _ _ | popStore _ _ | unlock _ =>
      rw [hpc] at hstep
      obtain rfl := Option.some.inj hstep
      have := hlogged _ rfl
      simp at this

/-- A push that throws leaves the items, and the lock taken by nobody. -/
theorem Linked.throws [Inhabited α] (h : Linked loose s q phase) {val : α}
    (hthrow : Throws s val s') : Stuck s' ∧ HoldsItems loose s' := by
  obtain ⟨hlocked, rfl, hpending⟩ := hthrow.eq
  constructor
  · constructor
    · rcases h.lock with ⟨-, hnone⟩ | ⟨hflag, -⟩
      · have := hnone .owner
        rw [show s.holds .owner = true from hlocked] at this
        cases this
      · exact hflag
    · intro c
      change (s.go s.deque .idle).holds c = false
      rw [holds_go]
      by_cases hc : c = .owner
      · rw [hc, Function.update_self]
        rfl
      · rw [Function.update_of_ne hc]
        exact h.lock.others (c := .owner) hlocked hc
  · have hpoint := h.history.point .owner _ _ q (hpending _ _ _ h.owner) (.threw q val)
    have hret := hpoint.ret .owner .threw (Function.update_self ..)
    rw [List.append_assoc] at hret
    exact ⟨q, hret.legal, h.contents⟩

/-- Where an allocation may fail, the push throws, or nothing was to be allocated. -/
theorem throws_or_ok [Inhabited α] (halloc : s.owner.allocates = true)
    (hstep : ownerStep s true = some s') :
    (∃ val, Throws s val s') ∨ ownerStep s false = some s' := by
  have hthrows : ∀ val, s' = pushThrows s val → ∃ val, Throws s val s' := by
    rintro val rfl
    refine ⟨val, hstep, ?_⟩
    rw [pushThrows, State.logged, State.go, List.drop_left]
    exact List.mem_cons_self
  unfold ownerStep at hstep ⊢
  cases hpc : s.owner with
  | pushBuf val bottom top =>
      simp only [hpc] at hstep ⊢
      split at hstep
      · exact Or.inl (hthrows val (Option.some.inj hstep).symm)
      · rename_i hroom
        rw [if_neg hroom]
        exact Or.inr hstep
  | pushGarbage val bottom buf bigger =>
      simp only [hpc] at hstep ⊢
      split at hstep
      · exact Or.inl (hthrows val (Option.some.inj hstep).symm)
      · right
        rw [if_neg (by simp)]
        exact hstep
  | _ =>
      rw [hpc] at halloc
      cases halloc

/-- In every interleaving, the deque is as it should be until a push throws, and stuck from then
on. -/
theorem inv_or_stuck [Inhabited α] {log2 : ℕ} {mem : ℕ → ℕ → α} {as : List (Act α)}
    (h : (machine α).Run (fun _ a => loose = true ∨ TopFirst a) (State.new log2 mem) as s) :
    Inv loose s ∨ Stuck s := by
  refine h.invariant (P := fun s => Inv loose s ∨ Stuck s) ?_ (Or.inl (inv_new loose log2 mem))
  rintro s a s' (hinv | hstuck) horder hstep
  · by_cases hok : AllocOk s a
    · exact Or.inl (inv_step hinv hok horder hstep)
    · -- an allocation that may fail: the push throws, or goes on as if it could not
      obtain ⟨q, phase, hlinked⟩ := hinv
      obtain ⟨rfl, halloc⟩ : a = .owner true ∧ s.owner.allocates = true := by
        cases a with
        | owner fails =>
            obtain ⟨halloc, hfails⟩ := Classical.not_imp.mp hok
            obtain rfl : fails = true := by simpa using hfails
            exact ⟨rfl, halloc⟩
        | _ => exact absurd trivial hok
      rcases throws_or_ok halloc hstep with ⟨val, hthrow⟩ | hstep'
      · exact Or.inr (hlinked.throws hthrow).1
      · exact Or.inl (inv_owner hlinked (fun _ => rfl) hstep')
  · exact Or.inr (hstuck.step hstep).1

/-- Wherever a push throws, the deque is stuck, with the items it had. -/
theorem Throws.stuck [Inhabited α] {log2 : ℕ} {mem : ℕ → ℕ → α} {as : List (Act α)} {val : α}
    (hthrow : Throws s val s')
    (h : (machine α).Run (fun _ a => loose = true ∨ TopFirst a) (State.new log2 mem) as s) :
    Stuck s' ∧ HoldsItems loose s' := by
  rcases inv_or_stuck h with ⟨q, phase, hlinked⟩ | hstuck
  · exact hlinked.throws hthrow
  · have hlocked := hthrow.eq.1
    rw [show s.owner.locked = false from hstuck.free .owner] at hlocked
    cases hlocked

/-- A loose deque bears either order of the loads. -/
theorem run_loose [Inhabited α] {as : List (Act α)} (h : (machine α).Run Machine.free s as t) :
    (machine α).Run (fun _ a => true = true ∨ TopFirst a) s as t :=
  h.mono fun _ _ _ => Or.inl rfl

/-- The lock is not free. -/
theorem Stuck.not_harmless (h : Stuck s) : ¬ Harmless s := by
  intro hharmless
  have hfree := hharmless.free
  rw [h.flag] at hfree
  cases hfree

/-! ## The result -/

/-- **A push that throws leaves the deque stuck.** It is never harmless: the lock stays taken, and
whatever is called afterwards, in whatever order, the deque is never changed again. Only the items
are what they should be; no steal before has missed one if the thieves load the top first. -/
theorem stuck_of_throw [Inhabited α] (log2 : ℕ) (mem : ℕ → ℕ → α) (as : List (Act α))
    (s s' : State α) (val : α) (h : (machine α).Run Machine.free (State.new log2 mem) as s)
    (hthrow : Throws s val s') :
    ¬ Harmless s' ∧ HoldsItems true s' ∧
      ((machine α).Run (fun _ a => TopFirst a) (State.new log2 mem) as s → HoldsItems false s') ∧
      ∀ bs t, (machine α).Run Machine.free s' bs t → Stuck t ∧ t.deque = s'.deque := by
  obtain ⟨hstuck, hitems⟩ := hthrow.stuck (run_loose h)
  refine ⟨hstuck.not_harmless, hitems, fun htop => ?_, fun bs t hrun => hstuck.run hrun⟩
  exact (hthrow.stuck (htop.mono fun _ _ ha => Or.inr ha)).2

/-- One slot, one item in it, and the call of a second push up to where it allocates. -/
def fullPush : List (Act ℕ) :=
  [.push 5, .owner false, .owner false, .owner false, .owner false, .owner false, .owner false,
    .owner false, .push 6, .owner false, .owner false, .owner false]

/-- The push of a second item into one slot throws. -/
theorem stuck_of_throw_full :
    ∃ s s' : State ℕ,
      (machine ℕ).Run (fun _ a => TopFirst a) (State.new 0 fun _ _ => 0) fullPush s ∧
      Throws s 6 s' ∧ ¬ Harmless s' ∧ HoldsItems false s' ∧
      ∀ bs t, (machine ℕ).Run Machine.free s' bs t → Stuck t ∧ t.deque = s'.deque := by
  have h : (((machine ℕ).exec (fun _ a => TopFirst a) (State.new 0 fun _ _ => 0) fullPush).bind
      fun s => ((machine ℕ).step s (.owner true)).map fun s' => s'.log.drop s.log.length) =
      some [.point .owner (.push 6) .threw, .ret .owner .threw] := by
    decide
  obtain ⟨s, hs, h⟩ := Option.bind_eq_some_iff.mp h
  obtain ⟨s', hs', hlog⟩ := Option.map_eq_some_iff.mp h
  have hrun := Machine.run_iff_exec.mpr hs
  have hthrow : Throws s 6 s' := ⟨hs', by rw [hlog]; exact List.mem_cons_self⟩
  obtain ⟨hharm, -, hitems, hstuck⟩ :=
    stuck_of_throw _ _ _ s s' 6 (hrun.mono fun _ _ _ => trivial) hthrow
  exact ⟨s, s', hrun, hthrow, hharm, hitems hrun, hstuck⟩

/-- The push throws; a steal then reports that it was lost, although nobody has the lock. -/
theorem not_harmless_full :
    ∃ s s' t : State ℕ,
      (machine ℕ).Run Machine.free (State.new 0 fun _ _ => 0) fullPush s ∧ Throws s 6 s' ∧
      ¬ Harmless s' ∧
      (machine ℕ).Run Machine.free s' [.steal 0, .thief 0, .thief 0, .thief 0] t ∧
      (∀ c, t.holds c = false) ∧
      t.log.drop s'.log.length = [.call (.thief 0) .steal,
        .point (.thief 0) .steal (.stolen ⟨.lost, 0⟩), .ret (.thief 0) (.stolen ⟨.lost, 0⟩)] := by
  have h : (((machine ℕ).exec Machine.free (State.new 0 fun _ _ => 0) fullPush).bind fun s =>
      ((machine ℕ).step s (.owner true)).bind fun s' =>
        ((machine ℕ).exec Machine.free s' [.steal 0, .thief 0, .thief 0, .thief 0]).map fun t =>
          (s'.log.drop s.log.length, t.log.drop s'.log.length)) =
      some ([.point .owner (.push 6) .threw, .ret .owner .threw],
        [.call (.thief 0) .steal, .point (.thief 0) .steal (.stolen ⟨.lost, 0⟩),
          .ret (.thief 0) (.stolen ⟨.lost, 0⟩)]) := by
    decide
  obtain ⟨s, hs, h⟩ := Option.bind_eq_some_iff.mp h
  obtain ⟨s', hs', h⟩ := Option.bind_eq_some_iff.mp h
  obtain ⟨t, ht, h⟩ := Option.map_eq_some_iff.mp h
  obtain ⟨hlog, hlater⟩ := Prod.mk.inj h
  have hrun := Machine.run_iff_exec.mpr hs
  have hrun' := Machine.run_iff_exec.mpr ht
  have hthrow : Throws s 6 s' := ⟨hs', by rw [hlog]; exact List.mem_cons_self⟩
  obtain ⟨hstuck, -⟩ := hthrow.stuck (run_loose hrun)
  exact ⟨s, s', t, hrun, hthrow, hstuck.not_harmless, hrun', (hstuck.run hrun').1.free, hlater⟩

end Libfork.Deque.Blocking
