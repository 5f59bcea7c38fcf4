import Libfork.Deque.Blocking.Invariant

/-!
# `blocking_deque` is linearizable

* `Linked.owner`, `Linked.thief` — what a step of a thread has to show to keep the invariant: its
  place in the history, the items, its own call, the lock, and that no other call is disturbed.
* `inv_step` — every step does, as long as allocations succeed.
* **`linearizable_of_run`** — every interleaving in which the thieves load the top first is
  linearizable; a steal that reports `lost` changes nothing and finds the lock held by somebody
  else.
* `not_linearizable_lateTop` — a thief that loads the bottom first may miss the items.

A thief that finds the deque empty without the lock has loaded the top before the bottom. The top
does not go back, so the deque is empty when the bottom is loaded. The owner may load them in either
order, since the bottom is its own.

Source: `deque_blocking.hpp`, `push`, `pop`, `steal`.
-/

namespace Libfork.Deque.Blocking

open Libfork.Found
open Libfork.Found.Linearize (Phase History Linearizable)

variable {α : Type} {loose : Bool} {s s' : State α} {d' : BlockingDeque α} {q q' : List α}
  {phase : Thread → Phase (Op α) (Res α)} {p' : Phase (Op α) (Res α)} {n : ℕ}

/-! ## One step of a thread -/

/-- The owner that goes on holds the lock if it is in a locked section. -/
theorem holds_go (s : State α) (d' : BlockingDeque α) (pc : OwnerPc α) :
    (s.go d' pc).holds = Function.update s.holds .owner pc.locked := by
  funext c
  cases c with
  | owner => rw [Function.update_self]; rfl
  | thief n => rw [Function.update_of_ne (by simp)]; rfl

/-- So does a thief. -/
theorem holds_goThief (s : State α) (n : ℕ) (d' : BlockingDeque α) (pc : ThiefPc α) :
    (s.goThief n d' pc).holds = Function.update s.holds (.thief n) pc.locked := by
  funext c
  cases c with
  | owner => rw [Function.update_of_ne (by simp)]; rfl
  | thief m =>
      by_cases hm : m = n
      · subst hm
        rw [Function.update_self]
        exact congrArg ThiefPc.locked (Function.update_self ..)
      · rw [Function.update_of_ne (by simpa using hm)]
        exact congrArg ThiefPc.locked (Function.update_of_ne hm ..)

namespace Linked

/-- While the owner has the lock, the thieves only rely on the top not going back. -/
theorem thieves_unlocked (h : Linked loose s q phase) (hlocked : s.owner.locked = true)
    (htop : s.deque.mTop ≤ d'.mTop) (n : ℕ) : ThiefInv loose d' (s.thief n) (phase (.thief n)) := by
  have hn : s.holds (.thief n) = false := h.lock.others (c := .owner) hlocked (by simp)
  exact (h.thief n).unlocked hn htop

/-- While a thief has the lock, the others only rely on the top not going back. -/
theorem others_unlocked (h : Linked loose s q phase) (hlocked : (s.thief n).locked = true)
    (htop : s.deque.mTop ≤ d'.mTop) (hbottom : d'.mBottom = s.deque.mBottom) :
    OwnerInv d' q' s.owner (phase .owner) ∧
      ∀ m, m ≠ n → ThiefInv loose d' (s.thief m) (phase (.thief m)) := by
  constructor
  · have howner : s.holds .owner = false := h.lock.others (c := .thief n) hlocked (by simp)
    exact h.owner.unlocked howner htop hbottom
  · intro m hm
    have hfree : s.holds (.thief m) = false := h.lock.others (c := .thief n) hlocked (by simpa)
    exact (h.thief m).unlocked hfree htop

/-- A step of the owner. -/
theorem ownerStep (h : Linked loose s q phase) {pc : OwnerPc α}
    {es : List (Linearize.Event Thread (Op α) (Res α))}
    (hhist : History (dequeSpec α loose) [] (s.log ++ es) q' (Function.update phase .owner p'))
    (hc : Contents d' q') (howner : OwnerInv d' q' pc p')
    (hlock : LockStep s.deque.mFlag s.owner.locked d'.mFlag pc.locked)
    (hothers : ∀ n, ThiefInv loose d' (s.thief n) (phase (.thief n))) :
    Inv loose ((s.go d' pc).logged es) := by
  refine ⟨q', _, hhist, hc, ?_, ?_, ?_⟩
  · change Lock d'.mFlag (s.go d' pc).holds
    rw [holds_go]
    exact h.lock.step (c := .owner) hlock
  · rw [Function.update_self]
    exact howner
  · intro n
    rw [Function.update_of_ne (by simp)]
    exact hothers n

/-- A step of the owner that the history does not show. -/
theorem ownerQuiet (h : Linked loose s q phase) {pc : OwnerPc α} (hc : Contents d' q)
    (howner : OwnerInv d' q pc (phase .owner))
    (hlock : LockStep s.deque.mFlag s.owner.locked d'.mFlag pc.locked)
    (hothers : ∀ n, ThiefInv loose d' (s.thief n) (phase (.thief n))) :
    Inv loose (s.go d' pc) := by
  refine ⟨q, phase, h.history, hc, ?_, howner, hothers⟩
  change Lock d'.mFlag (s.go d' pc).holds
  rw [holds_go]
  exact h.lock.step (c := .owner) hlock

/-- A step of the owner that only reads. -/
theorem ownerReads (h : Linked loose s q phase) {pc : OwnerPc α}
    (howner : OwnerInv s.deque q pc (phase .owner)) (hlocked : pc.locked = s.owner.locked) :
    Inv loose (s.go s.deque pc) :=
  h.ownerQuiet h.contents howner (hlocked ▸ .none _ _) h.thief

/-- A step of the owner in its locked region that writes. -/
theorem ownerWrites (h : Linked loose s q phase) {pc : OwnerPc α} (hlocked : s.owner.locked = true)
    (hc : Contents d' q) (howner : OwnerInv d' q pc (phase .owner)) (hpc : pc.locked = true)
    (hflag : d'.mFlag = s.deque.mFlag) (htop : d'.mTop = s.deque.mTop) :
    Inv loose (s.go d' pc) := by
  refine h.ownerQuiet hc howner ?_ (h.thieves_unlocked hlocked (Int.le_of_eq htop.symm))
  rw [hflag, hlocked, hpc]
  exact .none _ _

/-- A step of the thief `n`. -/
theorem thiefStep (h : Linked loose s q phase) {pc : ThiefPc α}
    {es : List (Linearize.Event Thread (Op α) (Res α))}
    (hhist : History (dequeSpec α loose) [] (s.log ++ es) q' (Function.update phase (.thief n) p'))
    (hc : Contents d' q') (hthief : ThiefInv loose d' pc p')
    (hlock : LockStep s.deque.mFlag (s.thief n).locked d'.mFlag pc.locked)
    (hothers : OwnerInv d' q' s.owner (phase .owner) ∧
      ∀ m, m ≠ n → ThiefInv loose d' (s.thief m) (phase (.thief m))) :
    Inv loose ((s.goThief n d' pc).logged es) := by
  refine ⟨q', _, hhist, hc, ?_, ?_, ?_⟩
  · change Lock d'.mFlag (s.goThief n d' pc).holds
    rw [holds_goThief]
    exact h.lock.step (c := .thief n) hlock
  · rw [Function.update_of_ne (by simp)]
    exact hothers.1
  · intro m
    change ThiefInv loose d' (Function.update s.thief n pc m) _
    by_cases hm : m = n
    · subst hm
      rw [Function.update_self, Function.update_self]
      exact hthief
    · rw [Function.update_of_ne hm, Function.update_of_ne (by simpa using hm)]
      exact hothers.2 m hm

/-- A step of the thief `n` that the history does not show. -/
theorem thiefQuiet (h : Linked loose s q phase) {pc : ThiefPc α} (hc : Contents d' q)
    (hthief : ThiefInv loose d' pc (phase (.thief n)))
    (hlock : LockStep s.deque.mFlag (s.thief n).locked d'.mFlag pc.locked)
    (hothers : OwnerInv d' q s.owner (phase .owner) ∧
      ∀ m, m ≠ n → ThiefInv loose d' (s.thief m) (phase (.thief m))) :
    Inv loose (s.goThief n d' pc) := by
  have hhist : History (dequeSpec α loose) [] (s.log ++ []) q
      (Function.update phase (.thief n) (phase (.thief n))) := by
    rw [List.append_nil, Function.update_eq_self]
    exact h.history
  have hinv := h.thiefStep hhist hc hthief hlock hothers
  rwa [State.logged, List.append_nil] at hinv

/-- A step of the thief `n` that only reads. -/
theorem thiefReads (h : Linked loose s q phase) {pc : ThiefPc α}
    (hthief : ThiefInv loose s.deque pc (phase (.thief n)))
    (hlocked : pc.locked = (s.thief n).locked) : Inv loose (s.goThief n s.deque pc) :=
  h.thiefQuiet h.contents hthief (hlocked ▸ .none _ _) ⟨h.owner, fun m _ => h.thief m⟩

end Linked

/-! ## The owner -/

/-- The accesses that allocate. -/
def OwnerPc.allocates : OwnerPc α → Bool
  | .pushBuf _ _ _ => true
  | .pushGarbage _ _ _ _ => true
  | _ => false

/-- Allocations succeed. -/
def AllocOk (s : State α) : Act α → Prop
  | .owner fails => s.owner.allocates = true → fails = false
  | _ => True

instance (s : State α) (a : Act α) : Decidable (AllocOk s a) := by
  cases a <;> unfold AllocOk <;> infer_instance

/-- The items do not depend on the flag. -/
theorem Contents.flag {d : BlockingDeque α} (h : Contents d q) (flag : ℤ) :
    Contents { d with mFlag := flag } q :=
  h.congr rfl rfl rfl rfl (Nat.le_refl _)

/-- A compare-exchange of `lock`. -/
theorem inv_lockExchange (h : Linked loose s q phase) {k : Locker α}
    (hlocked : s.owner.locked = false)
    (hp : phase .owner = .pending k.op) (fails : Bool) : Inv loose (lockExchange s k fails) := by
  unfold lockExchange
  split
  · rename_i hfree
    refine h.ownerQuiet (h.contents.flag 1) ?_ ?_ fun n => (h.thief n).flag 1
    · cases k <;> exact hp
    · rw [hfree.1, hlocked]
      cases k <;> exact .acquire
  · exact h.ownerReads hp hlocked.symm

/-- The loop of `resize` goes on, or has copied every item. -/
theorem ownerInv_copyNext {d : BlockingDeque α} {val : α} {ptr n : ℕ} {p : Phase (Op α) (Res α)}
    (hp : p = .pending (.push val)) (hc : Contents d q) (h : Copied d q ptr n)
    (hn : n ≤ q.length) :
    OwnerInv d q (copyNext val d.mBottom d.mBuf ptr (d.mTop + n)) p := by
  have hbottom := hc.bottom
  unfold copyNext
  split
  · exact ⟨hp, rfl, rfl, n, by omega, rfl, h⟩
  · obtain rfl : n = q.length := by omega
    exact ⟨hp, rfl, h⟩

/-- The copying is done under the lock. -/
theorem copyNext_locked (val : α) (bottom : ℤ) (buf ptr : ℕ) (i : ℤ) :
    (copyNext val bottom buf ptr i).locked = true := by
  unfold copyNext
  split <;> rfl

/-- What the owner knows where it is. -/
theorem Linked.ownerAt (h : Linked loose s q phase) {pc : OwnerPc α} (hpc : s.owner = pc) :
    OwnerInv s.deque q pc (phase .owner) := hpc ▸ h.owner

/-- `empty_relaxed` has loaded both indices in a `pop`. -/
theorem inv_popUnless (h : Linked loose s q phase) {top bottom : ℤ}
    (hlocked : s.owner.locked = false) (hp : phase .owner = .pending .pop)
    (hempty : top ≥ bottom → s.deque.mTop ≥ s.deque.mBottom) :
    Inv loose (popUnless s top bottom) := by
  unfold popUnless
  split
  · rename_i hge
    obtain rfl := h.contents.eq_nil (hempty hge)
    exact h.ownerStep (h.history.point_ret .owner _ hp .popEmpty) h.contents rfl
      (by rw [hlocked]; exact .none _ _) h.thief
  · exact h.ownerReads hp hlocked.symm

/-- Every access of the owner keeps the invariant, if no allocation fails. -/
theorem inv_owner (h : Linked loose s q phase) {fails : Bool}
    (hok : s.owner.allocates = true → fails = false) (hstep : ownerStep s fails = some s') :
    Inv loose s' := by
  have hc := h.contents
  unfold ownerStep at hstep
  cases hpc : s.owner with
  | idle =>
      rw [hpc] at hstep
      cases hstep
  | empty =>
      rw [hpc] at hstep
      obtain rfl := Option.some.inj hstep
      exact h.ownerReads ⟨h.ownerAt hpc, Int.le_refl _⟩ (by rw [hpc]; rfl)
  | emptyBottom top =>
      rw [hpc] at hstep
      obtain rfl := Option.some.inj hstep
      obtain ⟨hp, htop⟩ := h.ownerAt hpc
      exact inv_popUnless h (by rw [hpc]; rfl) hp fun hge => Int.le_trans hge htop
  | emptyTop bottom =>
      rw [hpc] at hstep
      obtain rfl := Option.some.inj hstep
      -- only the owner moves the bottom
      obtain ⟨hp, rfl⟩ := h.ownerAt hpc
      exact inv_popUnless h (by rw [hpc]; rfl) hp fun hge => hge
  | lock k =>
      rw [hpc] at hstep
      obtain rfl := Option.some.inj hstep
      exact inv_lockExchange h (by rw [hpc]; rfl) (h.ownerAt hpc) false
  | lockLoad k =>
      rw [hpc] at hstep
      obtain rfl := Option.some.inj hstep
      have hp := h.ownerAt hpc
      split
      · exact h.ownerReads hp (by rw [hpc]; rfl)
      · exact h.ownerReads hp (by rw [hpc])
  | lockWeak k =>
      rw [hpc] at hstep
      obtain rfl := Option.some.inj hstep
      exact inv_lockExchange h (by rw [hpc]; rfl) (h.ownerAt hpc) fails
  | pushBottom val =>
      rw [hpc] at hstep
      obtain rfl := Option.some.inj hstep
      exact h.ownerReads ⟨h.ownerAt hpc, rfl⟩ (by rw [hpc]; rfl)
  | pushTop val bottom =>
      rw [hpc] at hstep
      obtain rfl := Option.some.inj hstep
      obtain ⟨hp, hbottom⟩ := h.ownerAt hpc
      exact h.ownerReads ⟨hp, hbottom, rfl⟩ (by rw [hpc]; rfl)
  | pushBuf val bottom top =>
      obtain ⟨hp, rfl, rfl⟩ := h.ownerAt hpc
      obtain rfl : fails = false := hok (by rw [hpc, OwnerPc.allocates])
      have hbottom := hc.bottom
      simp only [hpc, Bool.false_eq_true, if_false] at hstep
      split at hstep
      · obtain rfl := Option.some.inj hstep
        obtain ⟨hc', hcopied⟩ := hc.allocate
        have hown := ownerInv_copyNext hp hc' hcopied (Nat.zero_le _)
        rw [Int.natCast_zero, Int.add_zero] at hown
        exact h.ownerWrites (by rw [hpc]; rfl) hc' hown (copyNext_locked ..) rfl rfl
      · rename_i hroom
        obtain rfl := Option.some.inj hstep
        refine h.ownerReads ⟨hp, rfl, rfl, ?_⟩ (by rw [hpc]; rfl)
        change ¬ ((s.deque.buffer.capacity : ℤ) < _) at hroom
        omega
  | copyLoad val bottom buf ptr i =>
      rw [hpc] at hstep
      obtain rfl := Option.some.inj hstep
      obtain ⟨hp, hbottom, rfl, hcopied⟩ := h.ownerAt hpc
      exact h.ownerReads ⟨hp, hbottom, rfl, rfl, hcopied⟩ (by rw [hpc]; rfl)
  | copyStore val bottom buf ptr i loaded =>
      rw [hpc] at hstep
      obtain rfl := Option.some.inj hstep
      obtain ⟨hp, rfl, rfl, rfl, n, hn, rfl, hcopied⟩ := h.ownerAt hpc
      obtain ⟨hc', hcopied'⟩ := hcopied.store hc hn
      have hown := ownerInv_copyNext hp hc' hcopied' hn
      rw [Int.natCast_succ, ← Int.add_assoc] at hown
      exact h.ownerWrites (by rw [hpc]; rfl) hc' hown (copyNext_locked ..) rfl rfl
  | pushGarbage val bottom buf bigger =>
      obtain ⟨hp, hbottom, hcopied⟩ := h.ownerAt hpc
      obtain rfl : fails = false := hok (by rw [hpc, OwnerPc.allocates])
      simp only [hpc, Bool.false_eq_true, and_false, if_false] at hstep
      obtain rfl := Option.some.inj hstep
      exact h.ownerWrites (by rw [hpc]; rfl) (hc.congr rfl rfl rfl rfl (Nat.le_refl _))
        ⟨hp, hbottom, hcopied.ne, hcopied.fresh, hcopied.capacity, hcopied.items⟩ rfl rfl rfl
  | pushSwap val bottom bigger =>
      rw [hpc] at hstep
      obtain rfl := Option.some.inj hstep
      obtain ⟨hp, hbottom, hcopied⟩ := h.ownerAt hpc
      obtain ⟨hc', hroom⟩ := hcopied.swap hc
      exact h.ownerWrites (by rw [hpc]; rfl) hc' ⟨hp, hbottom, rfl, hroom⟩ rfl rfl rfl
  | pushStore val bottom buf =>
      rw [hpc] at hstep
      obtain rfl := Option.some.inj hstep
      obtain ⟨hp, rfl, rfl, hroom⟩ := h.ownerAt hpc
      obtain ⟨hc', hval⟩ := hc.store hroom val
      have hbuffer : (s.deque.store s.deque.mBuf s.deque.mBottom val).buffer =
          s.deque.buffer.store s.deque.mBottom val := Function.update_self ..
      have hroom' : q.length <
          (s.deque.store s.deque.mBuf s.deque.mBottom val).buffer.capacity := by
        rw [hbuffer]
        exact hroom
      exact h.ownerWrites (by rw [hpc]; rfl) hc' ⟨hp, rfl, hroom', hval⟩ rfl rfl rfl
  | pushPublish val bottom =>
      rw [hpc] at hstep
      obtain rfl := Option.some.inj hstep
      obtain ⟨hp, rfl, hroom, hval⟩ := h.ownerAt hpc
      refine h.ownerStep (h.history.point .owner _ _ _ hp (.push q val)) (hc.push hroom hval) rfl
        ?_ (h.thieves_unlocked (by rw [hpc]; rfl) (Int.le_refl _))
      rw [hpc]
      exact .none _ _
  | popBottom =>
      rw [hpc] at hstep
      obtain rfl := Option.some.inj hstep
      exact h.ownerReads ⟨h.ownerAt hpc, rfl⟩ (by rw [hpc]; rfl)
  | popTop bottom =>
      rw [hpc] at hstep
      obtain rfl := Option.some.inj hstep
      obtain ⟨hp, hbottom⟩ := h.ownerAt hpc
      exact h.ownerReads ⟨hp, hbottom, rfl⟩ (by rw [hpc]; rfl)
  | popBuf bottom top =>
      obtain ⟨hp, hbottom, rfl⟩ := h.ownerAt hpc
      simp only [hpc] at hstep
      split at hstep
      · rename_i hle
        obtain rfl := Option.some.inj hstep
        exact h.ownerReads ⟨hp, hbottom, hle, rfl⟩ (by rw [hpc]; rfl)
      · obtain rfl := Option.some.inj hstep
        obtain rfl := hc.eq_nil (by omega)
        refine h.ownerStep (h.history.point .owner _ _ _ hp .popEmpty) hc rfl ?_ h.thief
        rw [hpc]
        exact .none _ _
  | popStore bottom buf =>
      rw [hpc] at hstep
      obtain rfl := Option.some.inj hstep
      obtain ⟨hp, rfl, hle, rfl⟩ := h.ownerAt hpc
      obtain ⟨q', hq, hc'⟩ := hc.pop hle
      have hpop : DequeStep loose q .pop
          (.popped (some (s.deque.buffer.load (s.deque.mBottom - 1)))) q' := by
        rw [hq]
        exact .pop ..
      refine h.ownerStep (h.history.point .owner _ _ _ hp hpop) hc' rfl ?_
        (h.thieves_unlocked (by rw [hpc]; rfl) (Int.le_refl _))
      rw [hpc]
      exact .none _ _
  | popLoad bottom buf =>
      rw [hpc] at hstep
      obtain rfl := Option.some.inj hstep
      have hp : phase .owner = .done (.popped (some ((s.deque.heap buf).load bottom))) :=
        h.ownerAt hpc
      exact h.ownerReads hp (by rw [hpc]; rfl)
  | unlock r =>
      rw [hpc] at hstep
      obtain rfl := Option.some.inj hstep
      have hp : phase .owner = .done r := h.ownerAt hpc
      refine h.ownerStep (h.history.ret .owner r hp) (hc.flag 0) rfl ?_
        fun n => (h.thief n).flag 0
      rw [hpc]
      exact .release _

/-! ## The thieves -/

/-- What a thief knows where it is. -/
theorem Linked.thiefAt (h : Linked loose s q phase) {pc : ThiefPc α} (hpc : s.thief n = pc) :
    ThiefInv loose s.deque pc (phase (.thief n)) := hpc ▸ h.thief n

/-- `empty_relaxed` has loaded both indices in a `steal`. -/
theorem inv_stealUnless [Inhabited α] (h : Linked loose s q phase) {top bottom : ℤ}
    (hlocked : (s.thief n).locked = false) (hp : phase (.thief n) = .pending .steal)
    (hempty : top ≥ bottom → DequeStep loose q .steal (.stolen (noItem .empty)) q) :
    Inv loose (stealUnless s n top bottom) := by
  unfold stealUnless
  split
  · rename_i hge
    exact h.thiefStep (h.history.point_ret (.thief n) _ hp (hempty hge)) h.contents rfl
      (by rw [hlocked]; exact .none _ _) ⟨h.owner, fun m _ => h.thief m⟩
  · exact h.thiefReads hp hlocked.symm

/-- Every access of a thief keeps the invariant. -/
theorem inv_thief [Inhabited α] (h : Linked loose s q phase) (hstep : thiefStep s n = some s') :
    Inv loose s' := by
  have hc := h.contents
  have hsame : OwnerInv s.deque q s.owner (phase .owner) ∧
      ∀ m, m ≠ n → ThiefInv loose s.deque (s.thief m) (phase (.thief m)) :=
    ⟨h.owner, fun m _ => h.thief m⟩
  have hflag : ∀ flag, OwnerInv { s.deque with mFlag := flag } q s.owner (phase .owner) ∧
      ∀ m, m ≠ n → ThiefInv loose { s.deque with mFlag := flag } (s.thief m) (phase (.thief m)) :=
    fun flag => ⟨h.owner.flag flag, fun m _ => (h.thief m).flag flag⟩
  unfold thiefStep at hstep
  cases hpc : s.thief n with
  | idle =>
      rw [hpc] at hstep
      cases hstep
  | empty =>
      rw [hpc] at hstep
      obtain rfl := Option.some.inj hstep
      exact h.thiefReads ⟨h.thiefAt hpc, Int.le_refl _⟩ (by rw [hpc]; rfl)
  | emptyBottom top =>
      rw [hpc] at hstep
      obtain rfl := Option.some.inj hstep
      obtain ⟨hp, htop⟩ := h.thiefAt hpc
      refine inv_stealUnless h (by rw [hpc]; rfl) hp fun hge => ?_
      obtain rfl := hc.eq_nil (Int.le_trans hge htop)
      exact .stealEmpty _
  | emptyTop bottom =>
      rw [hpc] at hstep
      obtain rfl := Option.some.inj hstep
      obtain ⟨hp, hloose⟩ := h.thiefAt hpc
      exact inv_stealUnless h (by rw [hpc]; rfl) hp fun _ => .missed hloose q _
  | tryLock =>
      have hp := h.thiefAt hpc
      simp only [hpc] at hstep
      split at hstep
      · rename_i hfree
        obtain rfl := Option.some.inj hstep
        refine h.thiefQuiet (hc.flag 1) hp ?_ (hflag 1)
        rw [hfree, hpc]
        exact .acquire
      · obtain rfl := Option.some.inj hstep
        exact h.thiefStep (h.history.point_ret (.thief n) _ hp (.lost q _)) hc rfl
          (by rw [hpc]; exact .none _ _) hsame
  | top =>
      rw [hpc] at hstep
      obtain rfl := Option.some.inj hstep
      exact h.thiefReads ⟨h.thiefAt hpc, rfl⟩ (by rw [hpc]; rfl)
  | bottom top =>
      rw [hpc] at hstep
      obtain rfl := Option.some.inj hstep
      obtain ⟨hp, htop⟩ := h.thiefAt hpc
      exact h.thiefReads ⟨hp, htop, rfl⟩ (by rw [hpc]; rfl)
  | buf top bottom =>
      obtain ⟨hp, htop, rfl⟩ := h.thiefAt hpc
      simp only [hpc] at hstep
      split at hstep
      · rename_i hlt
        obtain rfl := Option.some.inj hstep
        exact h.thiefReads ⟨hp, htop, hlt, rfl⟩ (by rw [hpc]; rfl)
      · obtain rfl := Option.some.inj hstep
        obtain rfl := hc.eq_nil (by omega)
        refine h.thiefStep (h.history.point (.thief n) _ _ _ hp (.stealEmpty _)) hc rfl ?_ hsame
        rw [hpc]
        exact .none _ _
  | load top buf =>
      rw [hpc] at hstep
      obtain rfl := Option.some.inj hstep
      obtain ⟨hp, htop, hlt, rfl⟩ := h.thiefAt hpc
      exact h.thiefReads ⟨hp, htop, hlt, rfl⟩ (by rw [hpc]; rfl)
  | store top val =>
      rw [hpc] at hstep
      obtain rfl := Option.some.inj hstep
      obtain ⟨hp, rfl, hlt, rfl⟩ := h.thiefAt hpc
      obtain ⟨q', hq, hc'⟩ := hc.steal hlt
      have hsteal :
          DequeStep loose q .steal (.stolen ⟨.none, s.deque.buffer.load s.deque.mTop⟩) q' := by
        rw [hq]
        exact .steal ..
      refine h.thiefStep (h.history.point (.thief n) _ _ _ hp hsteal) hc' rfl ?_
        (h.others_unlocked (by rw [hpc]; rfl) (Int.le_of_lt (Int.lt_succ _)) rfl)
      rw [hpc]
      exact .none _ _
  | unlock r =>
      rw [hpc] at hstep
      obtain rfl := Option.some.inj hstep
      have hp : phase (.thief n) = .done (.stolen r) := h.thiefAt hpc
      refine h.thiefStep (h.history.ret (.thief n) _ hp) (hc.flag 0) rfl ?_ (hflag 0)
      rw [hpc]
      exact .release _

/-! ## The calls -/

/-- The owner calls where it is idle. -/
theorem ownerCall_cases {o : Op α} {pc : OwnerPc α} (h : ownerCall s o pc = some s') :
    s.owner = .idle ∧ s' = (s.go s.deque pc).logged [.call .owner o] := by
  unfold ownerCall at h
  split at h
  · rename_i hpc
    exact ⟨hpc, (Option.some.inj h).symm⟩
  · cases h

/-- A thief calls where it is idle. -/
theorem stealCall_cases (h : stealCall s n = some s') :
    s.thief n = .idle ∧
      s' = (s.goThief n s.deque .empty).logged [.call (.thief n) .steal] := by
  unfold stealCall at h
  split at h
  · rename_i hpc
    exact ⟨hpc, (Option.some.inj h).symm⟩
  · cases h

/-- A call of the owner keeps the invariant. -/
theorem inv_ownerCall (h : Linked loose s q phase) {o : Op α} {pc : OwnerPc α}
    (hstep : ownerCall s o pc = some s') (hpc : OwnerInv s.deque q pc (.pending o))
    (hlocked : pc.locked = false) : Inv loose s' := by
  obtain ⟨hidle, rfl⟩ := ownerCall_cases hstep
  have hp : phase .owner = .out := h.ownerAt hidle
  refine h.ownerStep (h.history.call .owner o hp) h.contents hpc ?_ h.thief
  rw [hidle, hlocked]
  exact .none _ _

/-- So does a call of a thief. -/
theorem inv_stealCall (h : Linked loose s q phase) (hstep : stealCall s n = some s') :
    Inv loose s' := by
  obtain ⟨hidle, rfl⟩ := stealCall_cases hstep
  have hp : phase (.thief n) = .out := h.thiefAt hidle
  refine h.thiefStep (h.history.call (.thief n) .steal hp) h.contents rfl ?_
    ⟨h.owner, fun m _ => h.thief m⟩
  rw [hidle]
  exact .none _ _

/-- A thief loads the top before the bottom. -/
def TopFirst : Act α → Prop
  | .bottomFirst (.thief _) => False
  | _ => True

instance : DecidablePred (@TopFirst α) := fun a => by
  unfold TopFirst
  split <;> infer_instance

/-- A call that loads the bottom first is in `empty_relaxed`. -/
theorem inv_bottomFirst (h : Linked loose s q phase) {c : Thread}
    (horder : loose = true ∨ TopFirst (.bottomFirst c : Act α))
    (hstep : bottomFirstStep s c = some s') : Inv loose s' := by
  cases c with
  | owner =>
      simp only [bottomFirstStep] at hstep
      split at hstep
      · rename_i hpc
        obtain rfl := Option.some.inj hstep
        exact h.ownerReads ⟨h.ownerAt hpc, rfl⟩ (by rw [hpc]; rfl)
      · cases hstep
  | thief n =>
      simp only [bottomFirstStep] at hstep
      split at hstep
      · rename_i hpc
        obtain rfl := Option.some.inj hstep
        exact h.thiefReads ⟨h.thiefAt hpc, horder.resolve_right id⟩ (by rw [hpc]; rfl)
      · cases hstep

/-- Every step keeps the invariant. -/
theorem inv_step [Inhabited α] (h : Inv loose s) {a : Act α} (hok : AllocOk s a)
    (horder : loose = true ∨ TopFirst a) (hstep : (machine α).step s a = some s') :
    Inv loose s' := by
  obtain ⟨q, phase, h⟩ := h
  cases a with
  | owner fails => exact inv_owner h hok hstep
  | thief n => exact inv_thief h hstep
  | push v => exact inv_ownerCall h hstep rfl rfl
  | pop => exact inv_ownerCall h hstep rfl rfl
  | steal n => exact inv_stealCall h hstep
  | bottomFirst c => exact inv_bottomFirst h horder hstep

/-! ## The result -/

/-- Where a steal takes effect as `lost`, it changes nothing, and another thread is in its locked
region. -/
def LostJustified [Inhabited α] (s : State α) : Prop :=
  ∀ n s' r, (machine α).step s (.thief n) = some s' →
    .point (.thief n) .steal (.stolen r) ∈ s'.log.drop s.log.length → r.code = .lost →
    s'.deque = s.deque ∧ ∃ c, c ≠ .thief n ∧ s.holds c = true

/-- A steal that finds the deque empty without the lock is not lost. -/
theorem stealUnless_lost [Inhabited α] (s : State α) (n : ℕ) (top bottom : ℤ) :
    ∃ es, (stealUnless s n top bottom).log = s.log ++ es ∧ ∀ r : StealT α,
      .point (.thief n) .steal (.stolen r) ∈ es → r.code ≠ .lost := by
  unfold stealUnless
  split
  · refine ⟨_, rfl, fun r hr => ?_⟩
    obtain rfl : r = noItem .empty := by simpa using hr
    simp [noItem]
  · exact ⟨[], (List.append_nil _).symm, fun r hr => by cases hr⟩

/-- A step of a thief that takes effect as `lost` is a failed `try_lock`. -/
theorem thiefStep_lost [Inhabited α] (hstep : thiefStep s n = some s') :
    ∃ es, s'.log = s.log ++ es ∧ ∀ r : StealT α,
      .point (.thief n) .steal (.stolen r) ∈ es → r.code = .lost →
        s.thief n = .tryLock ∧ s.deque.mFlag ≠ 0 ∧ s'.deque = s.deque := by
  have hquiet : s'.log = s.log → ∃ es, s'.log = s.log ++ es ∧ ∀ r : StealT α,
      .point (.thief n) .steal (.stolen r) ∈ es → r.code = .lost →
        s.thief n = .tryLock ∧ s.deque.mFlag ≠ 0 ∧ s'.deque = s.deque := by
    intro hlog
    refine ⟨[], by rw [hlog, List.append_nil], fun r hr => ?_⟩
    cases hr
  unfold thiefStep at hstep
  cases hpc : s.thief n with
  | idle =>
      rw [hpc] at hstep
      cases hstep
  | empty | top | bottom top | load top buf =>
      rw [hpc] at hstep
      obtain rfl := Option.some.inj hstep
      exact hpc ▸ hquiet rfl
  | emptyBottom _ | emptyTop _ =>
      rw [hpc] at hstep
      obtain rfl := Option.some.inj hstep
      obtain ⟨es, hlog, hes⟩ := stealUnless_lost s n _ _
      exact ⟨es, hlog, fun r hr hlost => absurd hlost (hes r hr)⟩
  | tryLock =>
      simp only [hpc] at hstep
      split at hstep
      · obtain rfl := Option.some.inj hstep
        exact hpc ▸ hquiet rfl
      · rename_i hflag
        obtain rfl := Option.some.inj hstep
        exact ⟨_, rfl, fun r _ _ => ⟨rfl, hflag, rfl⟩⟩
  | buf top bottom =>
      simp only [hpc] at hstep
      split at hstep
      · obtain rfl := Option.some.inj hstep
        exact hpc ▸ hquiet rfl
      · obtain rfl := Option.some.inj hstep
        refine ⟨_, rfl, fun r hr hlost => ?_⟩
        obtain rfl : r = noItem .empty := by simpa using hr
        cases hlost
  | store top val =>
      rw [hpc] at hstep
      obtain rfl := Option.some.inj hstep
      refine ⟨_, rfl, fun r hr hlost => ?_⟩
      obtain rfl : r = ⟨.none, val⟩ := by simpa using hr
      cases hlost
  | unlock r =>
      rw [hpc] at hstep
      obtain rfl := Option.some.inj hstep
      refine ⟨_, rfl, fun r hr hlost => ?_⟩
      simp at hr

/-- A steal is lost only to somebody who has the lock. -/
theorem lostJustified [Inhabited α] (h : Inv loose s) : LostJustified s := by
  obtain ⟨q, phase, h⟩ := h
  intro n s' r hstep hmem hlost
  obtain ⟨es, hlog, hes⟩ := thiefStep_lost hstep
  rw [hlog, List.drop_left] at hmem
  obtain ⟨hpc, hflag, hdeque⟩ := hes r hmem hlost
  obtain ⟨c, hc⟩ := h.lock.held hflag
  refine ⟨hdeque, c, ?_, hc⟩
  rintro rfl
  have hlocked : (s.thief n).locked = true := hc
  rw [hpc] at hlocked
  cases hlocked

/-- Allocations succeed, and the thieves load the top before the bottom. -/
def Ordered (s : State α) (a : Act α) : Prop := AllocOk s a ∧ TopFirst a

instance (s : State α) (a : Act α) : Decidable (Ordered s a) := inferInstanceAs (Decidable (_ ∧ _))

/-- **`blocking_deque` is linearizable**, and a steal is lost only to a call that holds the lock.
Whatever the capacity, the memory its buffers are allocated in, and the interleaving, as long as
allocations succeed and the `empty_relaxed` of a `steal` loads `m_top` before `m_bottom`. The owner
may load them in either order. -/
theorem linearizable_of_run [Inhabited α] (log2 : ℕ) (mem : ℕ → ℕ → α) (as : List (Act α))
    (s : State α) (h : (machine α).Run Ordered (State.new log2 mem) as s) :
    Linearizable (dequeSpec α false) [] s.log ∧ LostJustified s := by
  have hinv : Inv false s :=
    h.invariant (fun _ _ _ hs hok hstep => inv_step hs hok.1 (Or.inr hok.2) hstep)
      (inv_new false log2 mem)
  refine ⟨?_, lostJustified hinv⟩
  obtain ⟨q, phase, hlinked⟩ := hinv
  exact hlinked.history.linearizable

/-- One slot, two items: the second push replaces the buffer while a thief finds the lock taken.
Then the owner, loading the bottom first, pops the newer item, a thief steals the older one, and
another finds the deque empty although the owner has the lock. -/
theorem linearizable_of_run_resize :
    ∃ s : State ℕ, (machine ℕ).Run Ordered (State.new 0 fun _ _ => 0)
        [.push 5, .owner false, .owner false, .owner false, .owner false, .owner false,
          .owner false, .owner false,
          .push 6, .steal 0, .thief 0, .thief 0, .owner false, .thief 0, .owner false,
          .owner false, .owner false, .owner false, .owner false, .owner false, .owner false,
          .owner false, .owner false, .owner false,
          .pop, .bottomFirst .owner, .owner false, .owner false, .owner false, .owner false,
          .owner false, .owner false, .owner false, .owner false,
          .steal 1, .thief 1, .thief 1, .thief 1, .thief 1, .thief 1, .thief 1, .thief 1,
          .thief 1, .thief 1,
          .push 7, .owner false, .owner false, .steal 2, .thief 2, .thief 2] s ∧
      Linearize.effects s.log = [(.push 5, .pushed), (.steal, .stolen ⟨.lost, 0⟩),
        (.push 6, .pushed), (.pop, .popped (some 6)), (.steal, .stolen ⟨.none, 5⟩),
        (.steal, .stolen ⟨.empty, 0⟩)] ∧
      Linearizable (dequeSpec ℕ false) [] s.log ∧ LostJustified s := by
  have h : ((machine ℕ).exec Ordered (State.new 0 fun _ _ => 0)
      [.push 5, .owner false, .owner false, .owner false, .owner false, .owner false,
        .owner false, .owner false,
        .push 6, .steal 0, .thief 0, .thief 0, .owner false, .thief 0, .owner false,
        .owner false, .owner false, .owner false, .owner false, .owner false, .owner false,
        .owner false, .owner false, .owner false,
        .pop, .bottomFirst .owner, .owner false, .owner false, .owner false, .owner false,
        .owner false, .owner false, .owner false, .owner false,
        .steal 1, .thief 1, .thief 1, .thief 1, .thief 1, .thief 1, .thief 1, .thief 1,
        .thief 1, .thief 1,
        .push 7, .owner false, .owner false, .steal 2, .thief 2, .thief 2]).map
      (fun s => Linearize.effects s.log) =
      some [(.push 5, .pushed), (.steal, .stolen ⟨.lost, 0⟩),
        (.push 6, .pushed), (.pop, .popped (some 6)), (.steal, .stolen ⟨.none, 5⟩),
        (.steal, .stolen ⟨.empty, 0⟩)] := by
    decide
  obtain ⟨s, hs, heffects⟩ := Option.map_eq_some_iff.mp h
  have hrun := Machine.run_iff_exec.mpr hs
  exact ⟨s, hrun, heffects, linearizable_of_run _ _ _ s hrun⟩

/-! ## The bottom first -/

/-- A thief loads the bottom; then the owner pushes a second item and another thief steals the first
one; and the top that the thief loads now is the bottom that it knows. -/
def lateTop : List (Act ℕ) :=
  .push 5 :: List.replicate 7 (.owner false) ++ [.steal 0, .bottomFirst (.thief 0)] ++
    .push 6 :: List.replicate 7 (.owner false) ++ .steal 1 :: List.replicate 9 (.thief 1) ++
    [.thief 0]

/-- The calls and returns of this run. -/
def lateTopSeen : List (Linearize.Event Thread (Op ℕ) (Res ℕ)) :=
  [.call .owner (.push 5), .ret .owner .pushed, .call (.thief 0) .steal,
    .call .owner (.push 6), .ret .owner .pushed,
    .call (.thief 1) .steal, .ret (.thief 1) (.stolen ⟨.none, 5⟩),
    .ret (.thief 0) (.stolen ⟨.empty, 0⟩)]

/-- Where the owner and two thieves stand, while nobody else is in a call. -/
structure Only (o a b : Phase (Op ℕ) (Res ℕ)) (p : Thread → Phase (Op ℕ) (Res ℕ)) : Prop where
  owner : p .owner = o
  first : p (.thief 0) = a
  second : p (.thief 1) = b
  other : ∀ n, p (.thief (n + 2)) = .out

/-- The steal of the first thief has taken effect, and not because the deque was empty. -/
def Answered (p : Thread → Phase (Op ℕ) (Res ℕ)) : Prop :=
  ∃ r : StealT ℕ, p (.thief 0) = .done (.stolen r) ∧ r.code ≠ .empty

/-- Or it has not taken effect, the deque has items, and `R` holds of the others. -/
def Unanswered (R : List ℕ → Phase (Op ℕ) (Res ℕ) → Phase (Op ℕ) (Res ℕ) → Prop) (l : List ℕ)
    (p : Thread → Phase (Op ℕ) (Res ℕ)) : Prop :=
  Answered p ∨ ∃ o b, Only o (.pending .steal) b p ∧ l ≠ [] ∧ R l o b

/-- A push of `v` onto `l` has taken effect or not. -/
def Pushing (v : ℕ) (l l' : List ℕ) (o : Phase (Op ℕ) (Res ℕ)) : Prop :=
  o = .pending (.push v) ∧ l' = l ∨ o = .done .pushed ∧ l' = l ++ [v] ∨ o = .done .threw ∧ l' = l

/-- A steal of `v` from before `l` has taken effect or not. -/
def Stealing (v : ℕ) (l l' : List ℕ) (b : Phase (Op ℕ) (Res ℕ)) : Prop :=
  b = .pending .steal ∧ l' = v :: l ∨ b = .done (.stolen ⟨.none, v⟩) ∧ l' = l ∨
    (∃ x, b = .done (.stolen ⟨.lost, x⟩)) ∧ l' = v :: l

section lateTop

open Linearize (Forces Silent)

variable {o a b x x' : Phase (Op ℕ) (Res ℕ)} {p : Thread → Phase (Op ℕ) (Res ℕ)} {l l' : List ℕ}
  {R R' : List ℕ → Phase (Op ℕ) (Res ℕ) → Phase (Op ℕ) (Res ℕ) → Prop} {c : Thread} {op : Op ℕ}
  {r : Res ℕ} {v : ℕ}

/-- A call that is pending is one of the three. -/
theorem Only.of_pending (h : Only o a b p) (hc : p c = .pending op) :
    c = .owner ∧ o = .pending op ∨ c = .thief 0 ∧ a = .pending op ∨
      c = .thief 1 ∧ b = .pending op := by
  rcases c with _ | _ | _ | n
  · exact Or.inl ⟨rfl, h.owner.symm.trans hc⟩
  · exact Or.inr (Or.inl ⟨rfl, h.first.symm.trans hc⟩)
  · exact Or.inr (Or.inr ⟨rfl, h.second.symm.trans hc⟩)
  · cases (h.other n).symm.trans hc

/-- The owner moves on. -/
theorem Only.moveOwner (h : Only o a b p) (x : Phase (Op ℕ) (Res ℕ)) :
    Only x a b (Function.update p .owner x) :=
  ⟨Function.update_self .., h.first, h.second, h.other⟩

/-- The first thief moves on. -/
theorem Only.moveFirst (h : Only o a b p) (x : Phase (Op ℕ) (Res ℕ)) :
    Only o x b (Function.update p (.thief 0) x) :=
  ⟨h.owner, Function.update_self .., h.second, h.other⟩

/-- The second thief moves on. -/
theorem Only.moveSecond (h : Only o a b p) (x : Phase (Op ℕ) (Res ℕ)) :
    Only o a x (Function.update p (.thief 1) x) :=
  ⟨h.owner, h.first, Function.update_self .., h.other⟩

/-- An answer stays what it is. -/
theorem Answered.move (h : Answered p) (hc : c ≠ .thief 0) (x : Phase (Op ℕ) (Res ℕ)) :
    Answered (Function.update p c x) := by
  obtain ⟨r, hr, hne⟩ := h
  exact ⟨r, by rw [Function.update_of_ne hc.symm, hr], hne⟩

/-- The push takes effect. -/
theorem Pushing.step (h : Pushing v l l' (.pending op)) {l'' : List ℕ}
    (hstep : DequeStep false l' op r l'') : Pushing v l l'' (.done r) := by
  obtain ⟨heq, rfl⟩ | ⟨heq, -⟩ | ⟨heq, -⟩ := h
  · cases heq
    cases hstep with
    | push => exact Or.inr (Or.inl ⟨rfl, rfl⟩)
    | threw => exact Or.inr (Or.inr ⟨rfl, rfl⟩)
  · cases heq
  · cases heq

/-- The steal takes effect. -/
theorem Stealing.step (h : Stealing v l l' (.pending op)) {l'' : List ℕ}
    (hstep : DequeStep false l' op r l'') : Stealing v l l'' (.done r) := by
  obtain ⟨heq, hl⟩ | ⟨heq, -⟩ | ⟨⟨_, heq⟩, -⟩ := h
  · cases heq
    cases hstep with
    | steal w q =>
        obtain ⟨rfl, rfl⟩ := List.cons.inj hl
        exact Or.inr (Or.inl ⟨rfl, rfl⟩)
    | stealEmpty => cases hl
    | lost => exact Or.inr (Or.inr ⟨⟨_, rfl⟩, hl⟩)
    | missed hloose => cases hloose
  · cases heq
  · cases heq

/-- A push that has returned has pushed. -/
theorem Pushing.returned (h : Pushing v l l' (.done .pushed)) : l' = l ++ [v] := by
  obtain ⟨heq, -⟩ | ⟨-, hl⟩ | ⟨heq, -⟩ := h
  · cases heq
  · exact hl
  · cases heq

/-- A steal that has returned has stolen. -/
theorem Stealing.returned (h : Stealing v l l' (.done (.stolen ⟨.none, v⟩))) : l' = l := by
  obtain ⟨heq, -⟩ | ⟨-, hl⟩ | ⟨⟨_, heq⟩, -⟩ := h
  · cases heq
  · exact hl
  · cases heq

/-- A steal from a deque with items does not report that it is empty. -/
theorem DequeStep.code_ne_empty (h : DequeStep false l .steal r l') (hl : l ≠ []) :
    ∃ x : StealT ℕ, r = .stolen x ∧ x.code ≠ .empty := by
  cases h with
  | steal => exact ⟨_, rfl, by simp⟩
  | stealEmpty => exact absurd rfl hl
  | lost => exact ⟨_, rfl, by simp⟩
  | missed hloose => cases hloose

/-- Nothing can take effect while nobody is in a call. -/
theorem silent_only : Silent (dequeSpec ℕ false) fun l' p => l' = l ∧ Only .out .out .out p := by
  rintro _ p c op r l' ⟨-, honly⟩ hc -
  rcases honly.of_pending hc with ⟨-, h⟩ | ⟨-, h⟩ | ⟨-, h⟩ <;> cases h

/-- **While the deque has items**, the first thief is not told that it is empty. -/
theorem silent_unanswered
    (howner : ∀ l op r l' b, R l (.pending op) b → DequeStep false l op r l' →
      l' ≠ [] ∧ R l' (.done r) b)
    (hsecond : ∀ l op r l' o, R l o (.pending op) → DequeStep false l op r l' →
      l' ≠ [] ∧ R l' o (.done r)) : Silent (dequeSpec ℕ false) (Unanswered R) := by
  rintro l p c op r l' (hanswer | ⟨o, b, honly, hl, hR⟩) hc hstep
  · refine Or.inl (hanswer.move ?_ _)
    rintro rfl
    obtain ⟨x, hx, -⟩ := hanswer
    cases hx.symm.trans hc
  · rcases honly.of_pending hc with ⟨rfl, rfl⟩ | ⟨rfl, heq⟩ | ⟨rfl, rfl⟩
    · obtain ⟨hl', hR'⟩ := howner l op r l' b hR hstep
      exact Or.inr ⟨_, _, honly.moveOwner _, hl', hR'⟩
    · cases heq
      obtain ⟨x, rfl, hx⟩ := DequeStep.code_ne_empty hstep hl
      exact Or.inl ⟨x, Function.update_self .., hx⟩
    · obtain ⟨hl', hR'⟩ := hsecond l op r l' o hR hstep
      exact Or.inr ⟨_, _, honly.moveSecond _, hl', hR'⟩

/-- The owner calls or returns. -/
theorem Unanswered.owner (h : Unanswered R l p) (hx : p .owner = x)
    (hR : ∀ l b, R l x b → R' l x' b) : Unanswered R' l (Function.update p .owner x') := by
  obtain hanswer | ⟨o, b, honly, hl, hR₀⟩ := h
  · exact Or.inl (hanswer.move (by simp) _)
  · obtain rfl := honly.owner.symm.trans hx
    exact Or.inr ⟨_, _, honly.moveOwner _, hl, hR l b hR₀⟩

/-- The second thief calls or returns. -/
theorem Unanswered.second (h : Unanswered R l p) (hx : p (.thief 1) = x)
    (hR : ∀ l o, R l o x → R' l o x') : Unanswered R' l (Function.update p (.thief 1) x') := by
  obtain hanswer | ⟨o, b, honly, hl, hR₀⟩ := h
  · exact Or.inl (hanswer.move (by simp) _)
  · obtain rfl := honly.second.symm.trans hx
    exact Or.inr ⟨_, _, honly.moveSecond _, hl, hR l o hR₀⟩

/-- Nothing can take effect while nobody else is in a call. -/
theorem silent_alone : Silent (dequeSpec ℕ false)
    (Unanswered fun l' o b => l' = l ∧ o = .out ∧ b = .out) := by
  apply silent_unanswered
  · rintro _ _ _ _ _ ⟨-, h, -⟩ -
    cases h
  · rintro _ _ _ _ _ ⟨-, -, h⟩ -
    cases h

/-- The second push takes effect while the first thief waits. -/
theorem silent_pushing : Silent (dequeSpec ℕ false)
    (Unanswered fun l o b => b = .out ∧ Pushing 6 [5] l o) := by
  apply silent_unanswered
  · rintro _ op r l' b ⟨hb, hpushing⟩ hstep
    have hafter := hpushing.step hstep
    refine ⟨?_, hb, hafter⟩
    obtain ⟨-, rfl⟩ | ⟨-, rfl⟩ | ⟨-, rfl⟩ := hafter <;> simp
  · rintro _ _ _ _ _ ⟨h, -⟩ -
    cases h

/-- The second steal takes effect while the first thief waits. -/
theorem silent_stealing : Silent (dequeSpec ℕ false)
    (Unanswered fun l o b => o = .out ∧ Stealing 5 [6] l b) := by
  apply silent_unanswered
  · rintro _ _ _ _ _ ⟨h, -⟩ -
    cases h
  · rintro _ op r l' o ⟨ho, hstealing⟩ hstep
    have hafter := hstealing.step hstep
    refine ⟨?_, ho, hafter⟩
    obtain ⟨-, rfl⟩ | ⟨-, rfl⟩ | ⟨-, rfl⟩ := hafter <;> simp

/-- The first push takes effect. -/
theorem silent_push : Silent (dequeSpec ℕ false)
    fun l p => ∃ o, Only o .out .out p ∧ Pushing 5 [] l o := by
  rintro l p c op r l' ⟨o, honly, hpushing⟩ hc hstep
  rcases honly.of_pending hc with ⟨rfl, rfl⟩ | ⟨-, h⟩ | ⟨-, h⟩
  · exact ⟨_, honly.moveOwner _, hpushing.step hstep⟩
  · cases h
  · cases h

/-- **The first thief cannot return what it does**, wherever the operations take effect. -/
theorem lateTop_forces : Forces (dequeSpec ℕ false) [] lateTopSeen fun _ _ => False := by
  have hnew : Forces (dequeSpec ℕ false) [] ([] : List (Linearize.Event Thread (Op ℕ) (Res ℕ)))
      fun l p => l = [] ∧ Only .out .out .out p :=
    .new ⟨rfl, rfl, rfl, rfl, fun _ => rfl⟩ silent_only
  have hpush := hnew.call .owner (.push 5)
    (Q := fun l p => ∃ o, Only o .out .out p ∧ Pushing 5 [] l o)
    (fun l p h _ => ⟨_, h.2.moveOwner _, Or.inl ⟨rfl, h.1⟩⟩) silent_push
  have hpushed := hpush.ret .owner .pushed (Q := fun l p => l = [5] ∧ Only .out .out .out p)
    (fun l p ⟨o, honly, h⟩ hp => ⟨(honly.owner.symm.trans hp ▸ h).returned, honly.moveOwner _⟩)
    silent_only
  have hsteal := hpushed.call (.thief 0) .steal
    (Q := Unanswered fun l o b => l = [5] ∧ o = .out ∧ b = .out)
    (fun l p h _ => Or.inr ⟨_, _, h.2.moveFirst _, by simp [h.1], h.1, rfl, rfl⟩) silent_alone
  have hpush' := hsteal.call .owner (.push 6)
    (Q := Unanswered fun l o b => b = .out ∧ Pushing 6 [5] l o)
    (fun l p h hp => h.owner hp fun l b h => ⟨h.2.2, Or.inl ⟨rfl, h.1⟩⟩) silent_pushing
  have hpushed' := hpush'.ret .owner .pushed
    (Q := Unanswered fun l o b => l = [5, 6] ∧ o = .out ∧ b = .out)
    (fun l p h hp => h.owner hp fun l b h => ⟨h.2.returned, rfl, h.1⟩) silent_alone
  have hsteal' := hpushed'.call (.thief 1) .steal
    (Q := Unanswered fun l o b => o = .out ∧ Stealing 5 [6] l b)
    (fun l p h hp => h.second hp fun l o h => ⟨h.2.1, Or.inl ⟨rfl, h.1⟩⟩) silent_stealing
  have hstolen := hsteal'.ret (.thief 1) (.stolen ⟨.none, 5⟩)
    (Q := Unanswered fun l o b => l = [6] ∧ o = .out ∧ b = .out)
    (fun l p h hp => h.second hp fun l o h => ⟨h.2.returned, h.1, rfl⟩) silent_alone
  refine hstolen.ret (.thief 0) (.stolen ⟨.empty, 0⟩) ?_ fun _ _ _ _ _ _ h => h.elim
  -- the first thief has another answer, or none yet
  rintro l p (⟨r, hr, hne⟩ | ⟨o, b, honly, -⟩) hp
  · cases hr.symm.trans hp
    exact hne rfl
  · cases honly.first.symm.trans hp

end lateTop

/-- **With the bottom loaded first** a steal reports that the deque is empty, although no choice of
instants for these calls and returns has it empty during that steal. -/
theorem not_linearizable_lateTop :
    ∃ s : State ℕ, (machine ℕ).Run AllocOk (State.new 1 fun _ _ => 0) lateTop s ∧
      s.log.filter Linearize.Event.visible = lateTopSeen ∧
      ∀ log, log.filter Linearize.Event.visible = s.log.filter Linearize.Event.visible →
        ¬ Linearizable (dequeSpec ℕ false) [] log := by
  have h : ((machine ℕ).exec AllocOk (State.new 1 fun _ _ => 0) lateTop).map
      (fun s => s.log.filter Linearize.Event.visible) = some lateTopSeen := by
    decide
  obtain ⟨s, hs, hseen⟩ := Option.map_eq_some_iff.mp h
  exact ⟨s, Machine.run_iff_exec.mpr hs, hseen,
    fun log hlog => lateTop_forces.not_linearizable (hlog.trans hseen)⟩

end Libfork.Deque.Blocking
