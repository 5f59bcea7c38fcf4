import Libfork.Found.IdealDeque

/-!
# What the deques have in common

Source: `deque_common.hpp`.
-/

namespace Libfork.Deque

open Libfork.Found

/-- Source: `deque_common.hpp`, `err` -/
inductive Err
  | none
  | lost
  | empty
deriving DecidableEq, Repr

/-- What `steal` returns; `val` is `T{}` unless `code` is `none`.
Source: `deque_common.hpp`, `steal_t` -/
structure StealT (α : Type) where
  code : Err
  val : α
deriving DecidableEq, Repr

/-- The threads, as claimants of occurrences. -/
inductive Thread
  | owner
  | thief (n : ℕ)
deriving DecidableEq, Repr

/-- `pop` takes from the back, `steal` from the front. -/
def Thread.side : Thread → Side
  | .owner => .back
  | .thief _ => .front

end Libfork.Deque
