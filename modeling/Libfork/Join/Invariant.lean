import Libfork.Join.Model
import Mathlib.Data.List.Nodup

/-!
# The invariants of the join protocol

* `Counts` — the two counters: a child is *outstanding* once the continuation has been stolen from
  under it and until it decrements, `m_steal` is the number of steals, and `m_join` counts the
  outstanding children, from `k_u16_max` down before the parent's subtraction and to zero after
  it. It holds while a scope has at most `65534` steals.
* `Captures` — the exception: who won the flag has built the pointer or is about to.
-/

namespace Libfork.Join

open Libfork.Found

variable {ε : Type}

/-! ## Reading the log of a scope -/

namespace Event

def isSteal : Event ε → Bool
  | steal _ => true
  | _ => false

def isDecrement : Event ε → Bool
  | decrement _ _ => true
  | _ => false

def isResume : Event ε → Bool
  | resume _ _ _ => true
  | _ => false

/-- Whether the counters have to do with the event. -/
def counted : Event ε → Bool
  | steal _ => true
  | decrement _ _ => true
  | subtract => true
  | resume _ _ _ => true
  | _ => false

/-- The exception, if the event is a capture. -/
def captured : Event ε → Option ε
  | capture e _ => some e
  | _ => none

/-- The exception, if the event is a capture that found the flag clear. -/
def won : Event ε → Option ε
  | capture e false => some e
  | _ => none

/-- The exception, if the join throws. -/
def thrown : Event ε → Option ε
  | throw e => some e
  | _ => none

end Event

/-- The number of steals. -/
def steals (l : List (Event ε)) : ℕ := l.countP Event.isSteal

/-- The number of decrements. -/
def decrements (l : List (Event ε)) : ℕ := l.countP Event.isDecrement

/-- How often the code after the join was started. -/
def resumes (l : List (Event ε)) : ℕ := l.countP Event.isResume

/-- The events that have to do with the counters. -/
def tally (l : List (Event ε)) : List (Event ε) := l.filter Event.counted

/-- The exceptions captured. -/
def captures (l : List (Event ε)) : List ε := l.filterMap Event.captured

/-- The exceptions whose capture won the flag exchange. -/
def winners (l : List (Event ε)) : List ε := l.filterMap Event.won

/-- The exceptions thrown by the join. -/
def throws (l : List (Event ε)) : List ε := l.filterMap Event.thrown

section logs

variable (l : List (Event ε)) (e : Event ε)

/-- The steals, with one more event. -/
@[simp] theorem steals_snoc : steals (l ++ [e]) = steals l + if e.isSteal then 1 else 0 := by
  simp [steals, List.countP_append, List.countP_cons]

/-- The decrements. -/
@[simp] theorem decrements_snoc :
    decrements (l ++ [e]) = decrements l + if e.isDecrement then 1 else 0 := by
  simp [decrements, List.countP_append, List.countP_cons]

/-- The resumptions. -/
@[simp] theorem resumes_snoc : resumes (l ++ [e]) = resumes l + if e.isResume then 1 else 0 := by
  simp [resumes, List.countP_append, List.countP_cons]

/-- The captures. -/
@[simp] theorem captures_snoc : captures (l ++ [e]) = captures l ++ e.captured.toList := by
  cases h : e.captured <;> simp [captures, h]

/-- The winners. -/
@[simp] theorem winners_snoc : winners (l ++ [e]) = winners l ++ e.won.toList := by
  cases h : e.won <;> simp [winners, h]

/-- The throws. -/
@[simp] theorem throws_snoc : throws (l ++ [e]) = throws l ++ e.thrown.toList := by
  cases h : e.thrown <;> simp [throws, h]

/-- An event that the counters have nothing to do with. -/
theorem tally_snoc_of_not_counted (h : e.counted = false) : tally (l ++ [e]) = tally l := by
  simp [tally, List.filter_append, h]

/-- The tally has all the steals. -/
theorem steals_tally : steals (tally l) = steals l := by
  unfold steals tally
  rw [List.countP_filter]
  refine List.countP_congr fun x _ => ?_
  cases x <;> simp [Event.isSteal, Event.counted]

/-- It has all the decrements. -/
theorem decrements_tally : decrements (tally l) = decrements l := by
  unfold decrements tally
  rw [List.countP_filter]
  refine List.countP_congr fun x _ => ?_
  cases x <;> simp [Event.isDecrement, Event.counted]

/-- It has all the resumptions. -/
theorem resumes_tally : resumes (tally l) = resumes l := by
  unfold resumes tally
  rw [List.countP_filter]
  refine List.countP_congr fun x _ => ?_
  cases x <;> simp [Event.isResume, Event.counted]

variable {e} in
/-- An event that is no steal does not count as one. -/
theorem steals_snoc_of_not (h : e.isSteal = false) : steals (l ++ [e]) = steals l := by
  rw [steals_snoc, h]
  rfl

variable {e} in
/-- One that is no decrement does not count as one. -/
theorem decrements_snoc_of_not (h : e.isDecrement = false) :
    decrements (l ++ [e]) = decrements l := by
  rw [decrements_snoc, h]
  rfl

variable {l e}

/-- Whatever counts is in the tally. -/
theorem mem_tally (h : e.counted = true) : e ∈ tally l ↔ e ∈ l := by
  unfold tally
  rw [List.mem_filter]
  exact and_iff_left h

/-- With no steals there is no steal. -/
theorem not_mem_of_steals_eq_zero (h : steals l = 0) (c : ℕ) : .steal c ∉ l := by
  intro hmem
  have := List.countP_eq_zero.mp h _ hmem
  simp [Event.isSteal] at this

end logs

/-! ## The counters -/

/-- Where the frame stands, as far as the counters are concerned. -/
inductive Phase
  /-- In the scope, up to the parent's subtraction. -/
  | scope
  /-- A steal has not been counted yet. -/
  | stolen
  /-- The parent has subtracted and waits. -/
  | suspended
  /-- The code after the join runs. -/
  | after
deriving DecidableEq, Repr

def ParentPc.phase : ParentPc ε → Phase
  | .stolen => .stolen
  | .suspended => .suspended
  | .resumed => .after
  | .rethrow => .after
  | .clear => .after
  | _ => .scope

/-- While a child runs the parent is in its scope. -/
theorem ParentPc.phase_of_runs {pc : ParentPc ε} {c : ℕ} (h : pc.runs = some c) :
    pc.phase = .scope := by
  cases pc <;> first | rfl | cases h

/-- The frame's code of the scope is over. -/
def Phase.closed : Phase → Bool
  | .suspended => true
  | .after => true
  | _ => false

/-- What the counters are, after `steals` steals and `decs` decrements, with `out` outstanding
children. -/
def Phase.Counters (f : Frame ε) (steals decs out : ℕ) : Phase → Prop
  | .scope => f.mSteal.toNat = steals ∧ f.mJoin.toNat + decs = 65535
  | .stolen => f.mSteal.toNat + 1 = steals ∧ f.mJoin.toNat + decs = 65535
  | .suspended => f.mJoin.toNat = out
  | .after => f.mSteal = 0 ∧ f.mJoin = kU16Max ∧ out = 0

/-- The child will still access the frame. -/
def ChildPc.live : ChildPc ε → Bool
  | .working => true
  | .exchange _ => true
  | .construct _ => true
  | .sub => true
  | _ => false

/-- The child has not reached its final suspend point. -/
def ChildPc.inCode : ChildPc ε → Bool
  | .working => true
  | .exchange _ => true
  | .construct _ => true
  | _ => false

/-- A child in its code is live. -/
theorem ChildPc.live_of_inCode {pc : ChildPc ε} (h : pc.inCode = true) : pc.live = true := by
  cases pc <;> first | rfl | cases h

/-- The continuation was stolen from under the child, which has not decremented yet. -/
def State.Outstanding (s : State ε) (c : ℕ) : Prop :=
  (s.child c).live = true ∧ s.parent.runs ≠ some c

/-- **The counters are right.** -/
structure Counts (s : State ε) : Prop where
  runs_code : ∀ c, s.parent.runs = some c → (s.child c).inCode = true
  bound : steals s.now ≤ 65534
  out : ∃ out : List ℕ, out.Nodup ∧ (∀ c, c ∈ out ↔ s.Outstanding c) ∧
    out.length + decrements s.now = steals s.now ∧
    s.parent.phase.Counters s.frame (steals s.now) (decrements s.now) out.length
  stolen : ∀ c, .steal c ∈ s.now → s.Outstanding c ∨ ∃ old, .decrement c old ∈ s.now
  winner : ∀ c, s.child c = .won → s.parent.phase = .suspended ∧ s.frame.mJoin = 0 ∧
    .decrement c 1 ∈ s.now ∧ ∀ c', s.child c' = .won → c' = c
  waiting : s.parent.phase = .suspended → .subtract ∈ s.now ∧
    (s.frame.mJoin = 0 → ∃ c, s.child c = .won)
  resumed : resumes s.now = if s.parent.phase = .after then 1 else 0

/-! ## The exception -/

/-- The exception that the frame's code is about to construct. -/
def ParentPc.builds : ParentPc ε → Option ε
  | .construct e => some e
  | _ => none

/-- The exception that the child is about to construct. -/
def ChildPc.builds : ChildPc ε → Option ε
  | .construct e => some e
  | _ => none

/-- The exception that a thread is about to construct; the threads are the frame's own code and
the children. -/
def State.builds (s : State ε) : Option ℕ → Option ε
  | none => s.parent.builds
  | some c => (s.child c).builds

/-- The flag and the pointer, while the join has not thrown. -/
inductive Cell (f : Frame ε) (builds : Option ℕ → Option ε) (l : List (Event ε)) : Prop
  /-- No exception was captured. -/
  | clear (hflag : f.mExcept = false) (heptr : f.mEptr = .raw) (hnone : captures l = [])
      (hwon : winners l = []) (hidle : ∀ th, builds th = none)
  /-- The thread `th` has won the flag and not constructed the pointer yet. -/
  | building (e : ε) (th : Option ℕ) (hflag : f.mExcept = true) (heptr : f.mEptr = .raw)
      (hwon : winners l = [e]) (hth : builds th = some e)
      (hidle : ∀ th', th' ≠ th → builds th' = none)
  /-- The pointer is constructed. -/
  | built (e : ε) (hflag : f.mExcept = true) (heptr : f.mEptr = .holds e) (hwon : winners l = [e])
      (hidle : ∀ th, builds th = none)

/-- **The exception is right.** -/
structure Captures (s : State ε) : Prop where
  cell : s.parent ≠ .clear → throws s.now = [] ∧ Cell s.frame s.builds s.now
  flag : s.parent = .rethrow → s.frame.mExcept = true
  thrown : s.parent = .clear → ∃ e, winners s.now = [e] ∧ throws s.now = [e]
  sound : .readInvalid ∉ s.now ∧ .pass ∉ s.now

end Libfork.Join
