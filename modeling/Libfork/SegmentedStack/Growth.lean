import Libfork.SegmentedStack.Correct
import Mathlib.Data.Nat.Log

/-!
# The stacklets grow geometrically

* `Doubles` — every stacklet has at least twice the capacity of the one before it, and so has the
  cached one. A stacklet is put after another one by `next_stacklet` only; a cached stacklet that
  is used again is after the same one as before.
* `Act.Exact` — the calls whose sizes, and the doubled capacity if there is one, are not too large
  for a `size_t`.
* **`growth_of_run`** — the capacities double along the chain, the number of stacklets is
  logarithmic in the largest capacity, and the cached stacklet is at most 8 times as large as the
  top one.

Source: `stack.hpp`, `stack::allocate`, `stack::deallocate`, `next_stacklet`.
-/

namespace Libfork.SegmentedStack

open Libfork.Found

variable {s s' : Stack} {st : Store} {t t' : State} {a b c p ptr : ℕ} {bs here under : List Block}
  {below : List ℕ} {ext : Size} {got : Option ℕ} {e : Stack}

/-! ## The statement -/

/-- The capacity of the stacklet at `a`, as a number. -/
def Stack.capacityAt (s : Stack) (a : ℕ) : ℕ := (s.store.stacklet a).capacity.toNat

/-- The capacities double along the chain, and to the cached stacklet. -/
def Doubles (s : Stack) : Prop :=
  ∀ a c, s.InUse a → (s.store.stacklet a).mNext = some c → 2 * s.capacityAt a ≤ s.capacityAt c

/-- A block of `n` bytes, and a stacklet twice as large as the top one where it is needed, are not
too large to be counted in a `size_t`. -/
def Stack.Exact (s : Stack) (n : ℕ) (ext : Size) : Prop :=
  n + 96 ≤ 2 ^ 64 ∧ (s.Grows ext → 2 * s.fib.capacity.toNat < 2 ^ 64)

/-- The calls without an overflow. -/
def Act.Exact (t : State) : Act → Prop
  | .allocate size _ => t.stack.Exact size.toNat (extSize size)
  | .coNew count elem _ _ =>
      t.stack.Exact (count.toNat * elem.toNat) (extSize (count * elem))
  | .deallocate _ => True

instance (s : Stack) (n : ℕ) (ext : Size) : Decidable (s.Exact n ext) :=
  inferInstanceAs (Decidable (_ ∧ ((_ ∧ _) → _)))

instance (t : State) : DecidablePred (Act.Exact t)
  | .allocate _ _ => inferInstanceAs (Decidable (t.stack.Exact _ _))
  | .coNew _ _ _ _ => inferInstanceAs (Decidable (t.stack.Exact _ _))
  | .deallocate _ => inferInstanceAs (Decidable True)

/-- An exact request is bounded. -/
theorem Act.Exact.bounded {act : Act} (h : act.Exact t) : act.Bounded := by
  cases act with
  | allocate size got => exact h.1
  | coNew count elem got throws => exact h.1
  | deallocate ptr => trivial

/-! ## Moves that attach nothing -/

/-- No stacklet is attached to another, and the top moves down the chain at most. -/
structure Shrinks (s s' : Stack) : Prop where
  prev : ∀ a, (s'.store.stacklet a).mPrev = (s.store.stacklet a).mPrev
  next : ∀ a c, (s'.store.stacklet a).mNext = some c → (s.store.stacklet a).mNext = some c
  capacity : ∀ a, s'.capacityAt a = s.capacityAt a
  top : s.InUse s'.mFib

/-- A stack shrinks to itself. -/
theorem Shrinks.refl (s : Stack) : Shrinks s s :=
  ⟨fun _ => rfl, fun _ _ h => h, fun _ => rfl, .top⟩

/-- What is in use after the stack shrinks was in use before. -/
theorem Shrinks.inUse (h : Shrinks s s') (ha : s'.InUse a) : s.InUse a := by
  induction ha with
  | top => exact h.top
  | prev _ hprev ih =>
    rw [h.prev] at hprev
    exact .prev ih hprev

/-- Shrinking twice is shrinking. -/
theorem Shrinks.trans {s'' : Stack} (h : Shrinks s s') (h' : Shrinks s' s'') : Shrinks s s'' := by
  constructor
  · intro a
    rw [h'.prev, h.prev]
  · intro a c hnext
    exact h.next a c (h'.next a c hnext)
  · intro a
    rw [h'.capacity, h.capacity]
  · exact h.inUse h'.top

/-- Capacities still double after the stack shrinks. -/
theorem Doubles.shrinks (h : Doubles s) (hs : Shrinks s s') : Doubles s' := by
  intro a c ha hnext
  rw [hs.capacity, hs.capacity]
  exact h a c (hs.inUse ha) (hs.next a c hnext)

/-- Setting the pointer drops no stacklet. -/
theorem shrinks_setSp (s : Stack) (ptr : ℕ) : Shrinks s (s.setSp ptr) := by
  have hsame : ∀ a, ∃ sp,
      (s.setSp ptr).store.stacklet a = { s.store.stacklet a with mSp := sp } := by
    intro a
    by_cases ha : a = s.mFib
    · subst ha
      exact ⟨ptr, setSp_stacklet_self⟩
    · exact ⟨_, setSp_stacklet_of_ne ha⟩
  constructor
  · intro a
    obtain ⟨sp, hsp⟩ := hsame a
    rw [hsp]
  · intro a c hnext
    obtain ⟨sp, hsp⟩ := hsame a
    rw [hsp] at hnext
    exact hnext
  · intro a
    obtain ⟨sp, hsp⟩ := hsame a
    unfold Stack.capacityAt
    rw [hsp]
    rfl
  · exact .top

/-- Dropping the spare drops nothing that is in use. -/
theorem shrinks_dropNext (s : Stack) : Shrinks s ⟨s.store.setNext s.mFib none, s.mFib⟩ := by
  have hsame : ∀ a, (s.store.setNext s.mFib none).stacklet a = s.store.stacklet a ∨
      (s.store.setNext s.mFib none).stacklet a = { s.store.stacklet a with mNext := none } := by
    intro a
    by_cases ha : a = s.mFib
    · subst ha
      exact Or.inr setNext_stacklet_self
    · exact Or.inl (setNext_stacklet_of_ne ha)
  constructor
  · intro a
    rcases hsame a with heq | heq <;> rw [heq]
  · intro a c hnext
    rcases hsame a with heq | heq
    · rw [heq] at hnext
      exact hnext
    · rw [heq] at hnext
      cases hnext
  · intro a
    unfold Stack.capacityAt
    rcases hsame a with heq | heq
    · rw [heq]
    · rw [heq]
      rfl
  · exact .top

/-- Going down drops the top stacklet. -/
theorem shrinks_stepDown (s : Stack) : Shrinks s s.stepDown := by
  unfold Stack.stepDown
  split
  · exact .refl s
  · rename_i prev hprev
    have hdrop := shrinks_dropNext s
    exact ⟨hdrop.prev, hdrop.next, hdrop.capacity, .prev .top hprev⟩

/-- Trimming drops the spare at most. -/
theorem shrinks_trim (s : Stack) : Shrinks s s.trim := by
  rcases trim_cases s with ⟨heq, -⟩ | heq
  · rw [heq]
    exact .refl s
  · rw [heq]
    exact shrinks_dropNext s

/-- `deallocate` drops the top stacklet and the spare at most. -/
theorem shrinks_deallocate (s : Stack) (ptr : ℕ) : Shrinks s (s.deallocate ptr) := by
  unfold Stack.deallocate
  simp only
  have hset := shrinks_setSp s ptr
  split
  · exact hset.trans ((shrinks_stepDown _).trans (shrinks_trim _))
  · exact hset

/-! ## Moves that attach a stacklet -/

/-- A stacklet that is put on top of the one at `s.mFib` is in use, as are those beneath. -/
theorem inUse_above (hprev : (s'.store.stacklet s'.mFib).mPrev = some s.mFib)
    (hsame : ∀ a, s.InUse a → (s'.store.stacklet a).mPrev = (s.store.stacklet a).mPrev)
    (ha : s'.InUse a) : a = s'.mFib ∨ s.InUse a := by
  induction ha with
  | top => exact Or.inl rfl
  | @prev a b _ hb ih =>
    right
    rcases ih with rfl | ih
    · rw [hprev] at hb
      cases hb
      exact .top
    · rw [hsame a ih] at hb
      exact .prev ih hb

/-- A new stacklet has twice the capacity of the top one. -/
theorem le_capacity_grown (h : Ready s here under below) (hext : ext.toNat + 96 ≤ 2 ^ 64)
    (hdouble : 2 * s.fib.capacity.toNat < 2 ^ 64) :
    2 * s.fib.capacity.toNat + 48 ≤ (request (s.growth ext)).toNat := by
  have hrequest := le_request (h.growth_le hext)
  have htwo : (2 * s.fib.capacity).toNat = 2 * s.fib.capacity.toNat := by
    rw [BitVec.toNat_mul]
    exact Nat.mod_eq_of_lt hdouble
  have hgrowth : 2 * s.fib.capacity.toNat ≤ (s.growth ext).toNat := by
    unfold Stack.growth
    rw [← htwo]
    split
    · rename_i hlt
      exact Nat.le_of_lt (BitVec.lt_def.mp hlt)
    · exact Nat.le_refl _
  omega

/-- Where there is a cached stacklet, twice the capacity of the top one is not too large. -/
theorem Doubles.lt_of_cached (hd : Doubles s)
    (hexact : s.Grows ext → 2 * s.fib.capacity.toNat < 2 ^ 64) (hfull : s.fib.unused < ext) :
    2 * s.fib.capacity.toNat < 2 ^ 64 := by
  cases hcached : s.cached ext with
  | none => exact hexact ⟨hfull, hcached⟩
  | some c =>
    obtain ⟨hnext, -⟩ := Option.filter_eq_some_iff.mp hcached
    have hle : 2 * s.fib.capacity.toNat ≤ s.capacityAt c := hd s.mFib c .top hnext
    exact Nat.lt_of_le_of_lt hle (BitVec.isLt _)

/-- The stacklet after one beneath the top is the top, or beneath it. -/
theorem Under.next_mem (h : Under st a below bs) (hb : b ∈ below)
    (hnext : (st.stacklet b).mNext = some c) : c ∈ a :: below := by
  induction below generalizing a bs with
  | nil => cases hb
  | cons d rest ih =>
    obtain ⟨-, hd, here, under, -, -, -, hrest⟩ := h
    rcases List.mem_cons.mp hb with rfl | hb
    · rw [hd] at hnext
      cases hnext
      exact List.mem_cons_self
    · exact List.mem_cons_of_mem _ (ih hrest hb)

/-- The stack just before a block is taken from it. -/
theorem Entered.doubles (he : Entered s ext got e) (h : Inv s here under below) (hd : Doubles s)
    (hext : ext.toNat + 96 ≤ 2 ^ 64) (hexact : s.Grows ext → 2 * s.fib.capacity.toNat < 2 ^ 64)
    (hgrants : ∀ p ∈ got, s.store.heap.Admits p (request (s.growth ext)).toNat 16) :
    Doubles e := by
  cases he with
  | top hroom => exact hd
  | cached c hfull hnext hroom =>
    intro a d ha hd'
    obtain ⟨hprev, hnone, -⟩ := h.ahead c hnext
    have habove : a = c ∨ s.InUse a :=
      @inUse_above s { s with mFib := c } a hprev (fun _ _ => rfl) ha
    rcases habove with rfl | ha
    · exact absurd hd' (by simp [hnone])
    · exact hd a d ha hd'
  | grown p hfull hgot =>
    have hp := hgrants p hgot
    have hready := h.toReady
    have hne : ∀ a ∈ s.reach below, a ≠ p := fun a ha => hready.ne_new hp ha
    have hself : (s.store.nextStacklet (s.growth ext) (some s.mFib) (some p)).2.stacklet p =
        ⟨p + 48, p + 48, p + (request (s.growth ext)).toNat, some s.mFib, none⟩ :=
      nextStacklet_self _
    have hfib : (s.store.nextStacklet (s.growth ext) (some s.mFib) (some p)).2.stacklet s.mFib =
        { s.fib with mNext := some p } := nextStacklet_prev (hne _ Ready.top_mem)
    have hother : ∀ b, b ≠ p → b ≠ s.mFib →
        (s.store.nextStacklet (s.growth ext) (some s.mFib) (some p)).2.stacklet b =
          s.store.stacklet b := fun b hb hb' => nextStacklet_of_ne hb hb'
    have hmem : ∀ a ∈ s.mFib :: below, a ≠ p := by
      intro a ha
      rcases List.mem_cons.mp ha with rfl | ha
      · exact hne _ Ready.top_mem
      · exact hne a (Ready.below_mem ha)
    have hcap : ∀ b ∈ s.mFib :: below, Stack.capacityAt
        ⟨(s.store.nextStacklet (s.growth ext) (some s.mFib) (some p)).2, p⟩ b =
          s.capacityAt b := by
      intro b hb
      unfold Stack.capacityAt
      by_cases hbf : b = s.mFib
      · subst hbf
        simp only [hfib]
        rfl
      · simp only [hother b (hmem b hb) hbf]
    have hprev : ∀ a, s.InUse a →
        ((s.store.nextStacklet (s.growth ext) (some s.mFib) (some p)).2.stacklet a).mPrev =
          (s.store.stacklet a).mPrev := by
      intro a ha
      by_cases haf : a = s.mFib
      · subst haf
        rw [hfib]
        rfl
      · rw [hother a (hmem a (hready.inUse_iff.mp ha)) haf]
    intro a d ha hd'
    rcases inUse_above (s := s) (by simp only [hself]) hprev ha with rfl | ha
    · simp only [hself] at hd'
      cases hd'
    · have hin := hready.inUse_iff.mp ha
      rw [hcap a hin]
      by_cases haf : a = s.mFib
      · subst haf
        simp only [hfib] at hd'
        cases hd'
        have hgrown := le_capacity_grown hready hext (hd.lt_of_cached hexact hfull)
        have hlt := (request (s.growth ext)).isLt
        have hnew : Stack.capacityAt
            ⟨(s.store.nextStacklet (s.growth ext) (some s.mFib) (some p)).2, p⟩ p =
              (request (s.growth ext)).toNat - 48 := by
          unfold Stack.capacityAt Stacklet.capacity
          simp only [hself]
          rw [toNat_ofInt_sub (by omega) (by omega)]
          omega
        have htop : s.capacityAt s.mFib = s.fib.capacity.toNat := rfl
        rw [hnew, htop]
        omega
      · simp only [hother a (hmem a hin) haf] at hd'
        have hbelow : a ∈ below := (List.mem_cons.mp hin).resolve_left haf
        rw [hcap d (hready.beneath.next_mem hbelow hd')]
        exact hd a d ha hd'

/-! ## Runs -/

/-- `allocate` keeps the capacities doubling. -/
theorem doubles_allocate {size : Size} (h : Inv s here under below) (hd : Doubles s)
    (hexact : s.Exact size.toNat (extSize size)) (hgrants : s.Grants size got) :
    Doubles (s.allocate size got).2 := by
  rcases allocate_cases s size got with ⟨heq, -⟩ | ⟨e, he, -, heq⟩
  · rw [heq]
    exact hd
  · rw [heq]
    exact (he.doubles h hd (extSize_le hexact.1) hexact.2 hgrants).shrinks (shrinks_setSp e _)

/-- So does `co_new`. -/
theorem doubles_coNew {count elem : Size} {throws : Bool} {frame : ℕ} (h : Inv s here under below)
    (hd : Doubles s) (hexact : s.Exact (count.toNat * elem.toNat) (extSize (count * elem)))
    (hgrants : s.Grants (count * elem) got) :
    Doubles (s.coNew frame count elem got throws).2.1 := by
  have hext : (extSize (count * elem)).toNat + 96 ≤ 2 ^ 64 := by
    apply extSize_le
    rw [toNat_mul_of_lt hexact.1]
    exact hexact.1
  rcases coNew_eq s frame count elem got throws with ⟨-, -, -, heq⟩ | ⟨e, he, -, heq⟩
  · rw [heq]
    exact hd
  · have hentered := he.doubles h hd hext hexact.2 hgrants
    rw [heq]
    split
    · exact hentered.shrinks (shrinks_deallocate e _)
    · exact hentered.shrinks (shrinks_setSp e _)

/-- What is handed out does not change the stack that is left. -/
@[simp] theorem took_stack (t : State) (n : ℕ) (r : Option ℕ × Stack) :
    (t.took n r).stack = r.2 := by
  obtain ⟨ptr, stack⟩ := r
  cases ptr <;> rfl

/-- One call keeps the doubling. -/
theorem doubles_step {act : Act} (h : t.Holds) (hd : Doubles t.stack) (hexact : act.Exact t)
    (hstep : machine.step t act = some t') : Doubles t'.stack := by
  obtain ⟨here, under, below, hinv, -⟩ := h
  unfold machine at hstep
  cases act with
  | allocate size got =>
    simp only [State.step] at hstep
    split at hstep
    · rename_i hgrants
      cases hstep
      rw [took_stack]
      exact doubles_allocate hinv hd hexact hgrants
    · cases hstep
  | coNew count elem got throws =>
    simp only [State.step] at hstep
    split at hstep
    · rename_i hgrants
      cases hstep
      rw [took_stack]
      exact doubles_coNew hinv hd hexact hgrants
    · cases hstep
  | deallocate ptr =>
    simp only [State.step] at hstep
    unfold State.gave at hstep
    split at hstep
    · cases hstep
    · split at hstep
      · cases hstep
        exact hd.shrinks (shrinks_deallocate t.stack ptr)
      · cases hstep

/-- A new stack has one stacklet. -/
theorem doubles_new (hp : Rooted p) : Doubles (Stack.new p) := by
  intro a c ha hnext
  obtain rfl : a = p := List.mem_singleton.mp ((inv_new hp).inUse_iff.mp ha)
  have hself : (Stack.new a).store.stacklet a = _ := nextStacklet_self none
  rw [hself] at hnext
  cases hnext

/-! ## What follows -/

/-- The root is so much smaller than a stacklet as there are stacklets beneath this. -/
theorem Doubles.root (hd : Doubles s) (h : Under s.store a below bs) (ha : s.InUse a) :
    ∃ root ∈ a :: below, (s.store.stacklet root).mPrev = none ∧
      s.capacityAt root * 2 ^ below.length ≤ s.capacityAt a := by
  induction below generalizing a bs with
  | nil => exact ⟨a, List.mem_cons_self, h.1, by simp⟩
  | cons b rest ih =>
    obtain ⟨hprev, hnext, here, under, -, -, -, hrest⟩ := h
    have hb : s.InUse b := .prev ha hprev
    obtain ⟨root, hmem, hroot, hle⟩ := ih hrest hb
    refine ⟨root, List.mem_cons_of_mem _ hmem, hroot, ?_⟩
    calc s.capacityAt root * 2 ^ (rest.length + 1)
        = 2 * (s.capacityAt root * 2 ^ rest.length) := by
          rw [Nat.pow_succ, ← Nat.mul_assoc, Nat.mul_comm]
      _ ≤ 2 * s.capacityAt b := Nat.mul_le_mul_left 2 hle
      _ ≤ s.capacityAt a := hd b a hb hnext

/-- How the stacklets of a stack stand to each other. -/
structure Geometric (s : Stack) : Prop where
  /-- Every stacklet in use has at least twice the capacity of the one before it, and so has the
  cached one. -/
  doubles : ∀ a c, s.InUse a → (s.store.stacklet a).mNext = some c →
    2 * s.capacityAt a ≤ s.capacityAt c
  /-- The stacklets in use are few. -/
  count : ∃ chain : List ℕ, chain.Nodup ∧ (∀ a, a ∈ chain ↔ s.InUse a) ∧
    ∃ root ∈ chain, (s.store.stacklet root).mPrev = none ∧
      ∀ C, (∀ a ∈ chain, s.capacityAt a ≤ C) →
        chain.length ≤ 1 + Nat.log 2 (C / s.capacityAt root)
  /-- There is one more at most, and it is not too large. -/
  cached : ∀ c, s.fib.mNext = some c → (s.store.stacklet c).mNext = none ∧
    s.capacityAt c ≤ 8 * s.capacityAt s.mFib

/-- Where capacities double, there are few stacklets. -/
theorem Inv.geometric (h : Inv s here under below) (hd : Doubles s) : Geometric s := by
  constructor
  case doubles => exact hd
  case count =>
    obtain ⟨root, hmem, hroot, hle⟩ := hd.root h.beneath .top
    refine ⟨s.mFib :: below, h.below_nodup, fun a => h.inUse_iff.symm, root, hmem, hroot, ?_⟩
    intro C hC
    obtain ⟨n, hn⟩ := h.placed_of_inUse hmem
    have hpos : 0 < s.capacityAt root := by
      have hcap : s.capacityAt root = n - 48 := hn.toNat_capacity
      have hroom := hn.room
      omega
    have hpow : 2 ^ below.length ≤ C / s.capacityAt root := by
      rw [Nat.le_div_iff_mul_le hpos, Nat.mul_comm]
      exact hle.trans (hC s.mFib List.mem_cons_self)
    rw [List.length_cons, Nat.add_comm]
    exact Nat.add_le_add_left (Nat.le_log_of_pow_le (by decide) hpow) 1
  case cached =>
    intro c hc
    refine ⟨(h.ahead c hc).2.1, ?_⟩
    have hguard := BitVec.le_def.mp (BitVec.not_lt.mp (h.guarded c hc))
    have height : (8 : Size).toNat = 8 := rfl
    rw [BitVec.toNat_mul, height] at hguard
    exact hguard.trans (Nat.mod_le _ _)

/-- **The stacklets grow geometrically, and one is cached at most.** In every state that
last-in-first-out calls without an overflow lead to. -/
theorem growth_of_run {acts : List Act} (hp : Rooted p)
    (hrun : machine.Run Act.Exact (State.new p) acts t) : Geometric t.stack := by
  have hnew : machine.Run Act.Sized (State.new p) [] (State.new p) := rfl
  obtain ⟨⟨here, under, below, hinv, -⟩, hd⟩ := hrun.invariant
    (P := fun t => t.Holds ∧ Doubles t.stack)
    (fun t act t' h hexact hstep =>
      ⟨holds_step h.1 hexact.bounded.sized hstep, doubles_step h.1 h.2 hexact hstep⟩)
    ⟨holds_run hp hnew, doubles_new hp⟩
  exact hinv.geometric hd

/-- Three stacklets, the last of which is cached in the end. -/
theorem growth_of_run_cached :
    ∃ t, machine.Run Act.Exact (State.new 4096)
        [.allocate 100 none, .allocate 5000 (some 16384), .allocate 9000 (some 65536),
          .deallocate 65584] t ∧
      t.stack.mFib = 16384 ∧ t.stack.fib.mNext = some 65536 ∧ Geometric t.stack := by
  have h : (machine.exec Act.Exact (State.new 4096)
      [.allocate 100 none, .allocate 5000 (some 16384), .allocate 9000 (some 65536),
        .deallocate 65584]).map (fun t => (t.stack.mFib, t.stack.fib.mNext)) =
      some (16384, some 65536) := by
    decide +kernel
  obtain ⟨t, ht, heq⟩ := Option.map_eq_some_iff.mp h
  have hrun := Machine.run_iff_exec.mpr ht
  obtain ⟨hfib, hnext⟩ := Prod.mk.inj heq
  exact ⟨t, hrun, hfib, hnext, growth_of_run (by decide) hrun⟩

end Libfork.SegmentedStack
