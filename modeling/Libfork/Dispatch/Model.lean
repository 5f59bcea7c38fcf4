import Libfork.Join.Model

/-!
# Dispatching a child

What `co_await dispatch<Tag, Mod>(ret, fun)(args...)` is turned into, and what the awaiting
expression does once it is resumed. The dispatches run on the machine of one frame: the children
capture, and thieves take the continuation, while an expression waits.

* `awaitTransform` — which awaitable is made for a tag, a modifier and a return address.
* `Awaitable.awaitResume` — what the expression does then.
* `State.awaits` — ghost: what became of every awaiting expression.

A return address stashes exceptions or it does not; nothing else of it matters here. The awaitables
also assert that they have given the child away, which they have done when they suspended.

Source: `promise.hpp`, `await_transform`, `unhandled_exception`, `final_suspend`;
`awaitables.hpp`; `tag.hpp`.
-/

namespace Libfork.Dispatch

open Libfork.Found Libfork.Join

/-! ## Tags and modifiers -/

/-- Source: `tag.hpp`, enum `tag` -/
inductive Tag
  | root
  | call
  | fork
deriving DecidableEq, Repr

/-- Source: `tag.hpp`, namespace `modifier` -/
inductive Modifier
  | none
  | sync
  | syncOutside
  | eagerThrow
  | eagerThrowOutside
deriving DecidableEq, Repr

/-- Source: `tag.hpp`, `valid_modifier_impl` -/
def modifierFor : Tag → Modifier → Bool
  | _, .none => true
  | .fork, .sync => true
  | .fork, .syncOutside => true
  | .call, .eagerThrow => true
  | .call, .eagerThrowOutside => true
  | _, _ => false

/-- Source: `tag.hpp`, enum `region` -/
inductive Region
  | unknown
  | outside
  | inside
  | openingFork
deriving DecidableEq, Repr

/-! ## The awaitables -/

/-- Source: `awaitables.hpp` -/
inductive Awaitable
  | fork
  | syncFork (childThrows : Bool) (R : Region) (stealsPre : BitVec 16)
  | call
  | eagerCall (R : Region)
deriving DecidableEq, Repr

/-- `none` where the code does not compile. Source: `promise.hpp`, `await_transform` -/
def awaitTransform {ε : Type} (self : Frame ε) (stashExceptionInReturn : Bool) (tag : Tag)
    (mod : Modifier) : Option Awaitable :=
  let throwing := stashExceptionInReturn
  if modifierFor tag mod then
    match tag with
    | .root => none
    | .call =>
        if throwing ∧ mod = .eagerThrow then some (.eagerCall .unknown)
        else if throwing ∧ mod = .eagerThrowOutside then some (.eagerCall .outside)
        else some .call
    | .fork => match mod with
        | .none => some .fork
        | .sync => some (.syncFork throwing .unknown self.loadSteals)
        | .syncOutside => some (.syncFork throwing .openingFork self.loadSteals)
        | _ => none
  else none

/-- What an awaiting expression does. -/
inductive Result (ε : Type)
  /-- Returns nothing. -/
  | void
  /-- Returns whether the child completed synchronously. -/
  | ready (sync : Bool)
  /-- Throws the exception the frame held. -/
  | throws (e : ε)
  /-- Throws `exception_before_join`. -/
  | throwsBeforeJoin
  /-- An assertion does not hold. -/
  | assertFails
deriving DecidableEq, Repr

/-- The expression throws. -/
def Result.thrown {ε : Type} : Result ε → Bool
  | .throws _ => true
  | .throwsBeforeJoin => true
  | _ => false

section resume

variable {ε : Type}

/-- Goes on as `r` if the frame holds no exception. The caller owns the frame, so no other access
comes in between. Source: `frame.hpp`, `unsafe_rethrow_if_exception`, `rethrow` -/
def unsafeRethrowIfException (f : Frame ε) (r : Result ε) : Result ε × Frame ε :=
  if f.mExcept then
    match f.mEptr with
    | .holds e => (.throws e, { f with mEptr := .raw, mExcept := false })
    | .null => (.assertFails, f)
    | .raw => (.assertFails, f)
  else (r, f)

/-- Goes on as `r` if the frame's flag is not set. -/
def throwIfAtomicHasException (f : Frame ε) (r : Result ε) : Result ε × Frame ε :=
  if f.mExcept then (.throwsBeforeJoin, f) else (r, f)

/-- Source: `awaitables.hpp`, the overloads of `await_resume` -/
def Awaitable.awaitResume (self : Frame ε) : Awaitable → Result ε × Frame ε
  | .fork => (.void, self)
  | .call => (.void, self)
  | .syncFork childThrows R stealsPre =>
      let stealsPost := self.loadSteals
      if stealsPost = stealsPre then
        if childThrows then
          if R = .openingFork then
            if stealsPost = 0 then unsafeRethrowIfException self (.ready true)
            else (.assertFails, self)
          else if stealsPost = 0 then unsafeRethrowIfException self (.ready true)
          else throwIfAtomicHasException self (.ready true)
        else (.ready true, self)
      else (.ready false, self)
  | .eagerCall R =>
      if R = .outside then
        if self.loadSteals = 0 then unsafeRethrowIfException self .void else (.assertFails, self)
      else if self.loadSteals = 0 then unsafeRethrowIfException self .void
      else throwIfAtomicHasException self .void

/-- The assertions hold. Source: `promise.hpp`, `final_suspend` -/
def finalSuspend (self : Frame ε) : Bool :=
  self.loadSteals = 0 ∧ self.loadJoins = kU16Max ∧ self.mExcept = false

end resume

/-! ## The machine -/

/-- How a child was dispatched. -/
structure Address where
  tag : Tag
  mod : Modifier
  /-- The return address stashes exceptions. -/
  stash : Bool
deriving DecidableEq, Repr

/-- What became of an awaiting expression. -/
structure Await (ε : Type) where
  address : Address
  /-- The exception with which the child's coroutine exited, by then. -/
  raised : Option ε
  /-- The child was finished by the worker that dispatched it, the continuation not stolen. -/
  synchronous : Bool
  result : Result ε
deriving DecidableEq, Repr

/-- The frame with its children, and the expression it waits in. -/
structure State (ε : Type) where
  scope : Join.State ε
  /-- The awaitable, and its child. -/
  awaiting : Option (Awaitable × ℕ)
  address : ℕ → Address
  /-- The exception with which a child's coroutine has exited. -/
  raised : ℕ → Option ε
  /-- Ghost: the child resumed the expression that dispatched it. -/
  synchronous : ℕ → Bool
  /-- Ghost: the expressions that have been resumed. -/
  awaits : List (Await ε)
  /-- The frame, when its coroutine reached its final suspend point. -/
  final : Option (Frame ε)

/-- A frame that is about to run its code. -/
def State.new {ε : Type} : State ε where
  scope := Join.State.new
  awaiting := none
  address := fun _ => ⟨.call, .none, false⟩
  raised := fun _ => none
  synchronous := fun _ => false
  awaits := []
  final := none

/-- Who takes the next step, and what it starts. -/
inductive Act (ε : Type)
  /-- The code awaits `dispatch<tag, mod>` of the child `c`. -/
  | dispatch (a : Address) (c : ℕ)
  /-- The code goes on after the expression it waited in. -/
  | resume
  /-- The code calls `stash_exception` while handling `e`. -/
  | stash (e : ε)
  /-- The code awaits a join. -/
  | join
  /-- The code ends. -/
  | coReturn
  /-- The child `c` exits with the exception `e`. -/
  | raise (c : ℕ) (e : ε)
  /-- The child `c` reaches its final suspend point. -/
  | finish (c : ℕ)
  /-- A thief takes the continuation from the deque. -/
  | steal
  /-- The frame's code goes on with the access it is at. -/
  | parent
  /-- The child `c` goes on with the access it is at. -/
  | child (c : ℕ)
deriving DecidableEq, Repr

section steps

variable {ε : Type}

namespace State

variable (s : State ε)

/-- The scope takes a step. -/
def take (a : Join.Act ε) : Option (State ε) :=
  ((Join.machine ε).step s.scope a).map fun scope => { s with scope := scope }

/-- The code is not waiting in an expression, and has not ended. -/
def free : Bool := s.awaiting.isNone && s.final.isNone

/-- The code waits for the new child `c`, dispatched as `a`. -/
def wait (a : Address) (awaitable : Awaitable) (c : ℕ) : State ε :=
  { s with
    awaiting := some (awaitable, c)
    address := Function.update s.address c a
    raised := Function.update s.raised c none
    synchronous := Function.update s.synchronous c false }

/-- Source: `promise.hpp`, `await_transform`; `awaitables.hpp`, `await_suspend` -/
def dispatch (a : Address) (c : ℕ) : Option (State ε) :=
  if s.free then
    match awaitTransform s.scope.frame a.stash a.tag a.mod with
    | none => none
    | some awaitable => match a.tag with
        | .root => none
        | .call => (s.wait a awaitable c).take (.call c)
        | .fork => (s.wait a awaitable c).take (.fork c)
  else none

/-- The record of the expression that waited for the child `c`. -/
def await (c : ℕ) (r : Result ε) : Await ε := ⟨s.address c, s.raised c, s.synchronous c, r⟩

/-- Source: `awaitables.hpp`, `await_resume` -/
def resume : Option (State ε) :=
  match s.awaiting, s.scope.parent with
  | some (awaitable, c), .running =>
      let (r, frame) := awaitable.awaitResume s.scope.frame
      some { s with
        scope := { s.scope with frame := frame }
        awaiting := none
        awaits := s.awaits ++ [s.await c r] }
  | _, _ => none

/-- Source: `promise.hpp`, `unhandled_exception` -/
def unhandledException (c : ℕ) (e : ε) : Option (State ε) :=
  let s' := { s with raised := Function.update s.raised c (some e) }
  if (s.address c).stash then some s' else s'.take (.capture c e)

/-- The child `c` reaches its final suspend point. -/
def finish (c : ℕ) : Option (State ε) :=
  let sync : Bool := s.scope.parent.runs = some c
  { s with synchronous := Function.update s.synchronous c sync }.take (.finish c)

end State

/-- The machine of a frame whose children are dispatched. -/
def machine (ε : Type) : Machine (State ε) (Act ε) where
  step s
    | .dispatch a c => s.dispatch a c
    | .resume => s.resume
    | .stash e => if s.free then s.take (.stash e) else none
    | .join => if s.free then s.take .join else none
    | .coReturn => match s.scope.parent with
        | .running => if s.free then some { s with final := some s.scope.frame } else none
        | _ => none
    | .raise c e => match s.scope.child c, s.raised c with
        | .working, none => s.unhandledException c e
        | _, _ => none
    | .finish c => s.finish c
    | .steal => s.take .steal
    | .parent => s.take .parent
    | .child c => s.take (.child c)

end steps

end Libfork.Dispatch
