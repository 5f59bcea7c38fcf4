import Libfork.Found.Machine
import Mathlib.Data.List.Basic
import Mathlib.Logic.Function.Basic

/-!
# The submission list

Any number of threads push nodes to one `intrusive_list`, and its owner pops all of them and
walks the batch. Every access to `m_head` and to a link `m_next` is one step of the machine, and
the steps of the threads and of the owner interleave in any order.

* `State` — the memory of the nodes, the head of the list, and where each thread stands.
* `Place.outside` — the nodes that are none of this list's business. Their memory may change in
  any way: a node that the owner has handed to the function may be destroyed, constructed again
  in its place and pushed to this or another list, and all this while the owner goes on. A call
  of the function is a step that gives the node away; what the function does with it, a push to
  this list included, are steps of their own.
* `State.pushed`, `State.taken`, `State.handed`, `State.pops` — ghosts: the nodes and their data
  in the order of the successful compare-exchanges, those that an exchange of the owner has
  detached, those passed to the function, and the number of calls of `try_pop_all`.

Source: `list.hpp`, class `intrusive_list`.
-/

namespace Libfork.IntrusiveList

open Libfork.Found

/-! ## The threads -/

/-- Who may access a node. -/
inductive Place
  /-- Not in this list: not constructed, or destroyed, or part of something else. -/
  | outside
  /-- The argument of a call of `push` that has not returned. -/
  | pushing
  /-- Pushed, and not yet passed to the function. -/
  | linked
deriving DecidableEq, Repr

/-- The next access of a call of `push(new_node)`. -/
inductive PushPc
  | idle
  /-- `stale_head = m_head.load()`. -/
  | load (newNode : ℕ)
  /-- `new_node->m_next = stale_head`. -/
  | link (newNode : ℕ) (staleHead : Option ℕ)
  /-- `m_head.compare_exchange_weak(stale_head, new_node)`. -/
  | cas (newNode : ℕ) (staleHead : Option ℕ)
deriving DecidableEq, Repr

/-- The node that a call of `push` is about. -/
def PushPc.newNode : PushPc → Option ℕ
  | .idle => none
  | .load n => some n
  | .link n _ => some n
  | .cas n _ => some n

/-- The next access of the owner. -/
inductive OwnerPc
  /-- Before a call of `try_pop_all`: `m_head.exchange(nullptr)`. -/
  | idle
  /-- `while (last)`, then `last->m_next`. -/
  | reverse (last first : Option ℕ)
  /-- `tmp->m_next = first`, `last` having moved on. -/
  | relink (last : Option ℕ) (tmp : ℕ) (first : Option ℕ)
  /-- `while (root)`, then `root->m_next`. -/
  | walk (root : Option ℕ)
  /-- `std::invoke(func, root->m_data)`. -/
  | invoke (root : ℕ) (next : Option ℕ)
deriving DecidableEq, Repr

/-- The node that the owner is about to access. -/
def OwnerPc.touches : OwnerPc → Option ℕ
  | .idle => none
  | .reverse last _ => last
  | .relink _ tmp _ => some tmp
  | .walk root => root
  | .invoke root _ => some root

/-- The list, the nodes, the threads, and the ghosts. `T` is the data of a node. -/
structure State (T : Type) where
  mHead : Option ℕ
  mNext : ℕ → Option ℕ
  mData : ℕ → T
  place : ℕ → Place
  pusher : ℕ → PushPc
  owner : OwnerPc
  /-- Ghost: what the compare-exchanges have linked. -/
  pushed : List (ℕ × T)
  /-- Ghost: what the exchanges have detached. -/
  taken : List (ℕ × T)
  /-- Ghost: what the function was given. -/
  handed : List (ℕ × T)
  /-- Ghost: how often the owner has called `try_pop_all`. -/
  pops : ℕ

/-- An empty list in a memory that holds anything. -/
def State.new {T : Type} (next : ℕ → Option ℕ) (data : ℕ → T) : State T where
  mHead := none
  mNext := next
  mData := data
  place := fun _ => .outside
  pusher := fun _ => .idle
  owner := .idle
  pushed := []
  taken := []
  handed := []
  pops := 0

/-- Who takes the next step, and what it starts. -/
inductive Act (T : Type)
  /-- Somebody writes to a node that is not in the list, or constructs it. -/
  | elsewhere (n : ℕ) (next : Option ℕ) (data : T)
  /-- The thread `t` calls `push(new_node)`. -/
  | push (t newNode : ℕ)
  /-- The thread `t` goes on; a compare-exchange may fail spuriously. -/
  | pusher (t : ℕ) (spurious : Bool)
  /-- The owner calls `try_pop_all`, or goes on. -/
  | owner
deriving DecidableEq, Repr

/-! ## The steps -/

section steps

variable {T : Type}

/-- A node with its data, as the ghosts log it. -/
def State.entry (s : State T) (n : ℕ) : ℕ × T := (n, s.mData n)

/-- `push` is called with an unlinked node. Source: `list.hpp`, `push`, the assertion -/
def pushCall (s : State T) (t newNode : ℕ) : Option (State T) :=
  match s.pusher t, s.place newNode, s.mNext newNode with
  | .idle, .outside, none => some { s with
      pusher := Function.update s.pusher t (.load newNode)
      place := Function.update s.place newNode .pushing }
  | _, _, _ => none

/-- One access of `push`. A compare-exchange that fails leaves the head it saw in `stale_head`.
Source: `list.hpp`, `push` -/
def pushStep (s : State T) (t : ℕ) (spurious : Bool) : Option (State T) :=
  match s.pusher t with
  | .idle => none
  | .load n => some { s with pusher := Function.update s.pusher t (.link n s.mHead) }
  | .link n stale => some { s with
      mNext := Function.update s.mNext n stale
      pusher := Function.update s.pusher t (.cas n stale) }
  | .cas n stale =>
      if s.mHead = stale ∧ spurious = false then some { s with
        mHead := some n
        place := Function.update s.place n .linked
        pusher := Function.update s.pusher t .idle
        pushed := s.pushed ++ [s.entry n] }
      else some { s with pusher := Function.update s.pusher t (.link n s.mHead) }

/-- One access of the owner. Source: `list.hpp`, `try_pop_all`, then `for_each_elem` on the list
that it returns -/
def ownerStep (s : State T) : State T :=
  match s.owner with
  | .idle => { s with
      mHead := none
      owner := .reverse s.mHead none
      taken := s.pushed
      pops := s.pops + 1 }
  | .reverse none first => { s with owner := .walk first }
  | .reverse (some last) first => { s with owner := .relink (s.mNext last) last first }
  | .relink last tmp first => { s with
      mNext := Function.update s.mNext tmp first
      owner := .reverse last (some tmp) }
  | .walk none => { s with owner := .idle }
  | .walk (some root) => { s with owner := .invoke root (s.mNext root) }
  | .invoke root next => { s with
      owner := .walk next
      place := Function.update s.place root .outside
      handed := s.handed ++ [s.entry root] }

/-- Somebody writes to a node that is not in the list. -/
def elsewhere (s : State T) (n : ℕ) (next : Option ℕ) (data : T) : Option (State T) :=
  match s.place n with
  | .outside => some { s with
      mNext := Function.update s.mNext n next
      mData := Function.update s.mData n data }
  | _ => none

/-- The machine of one list. -/
def machine (T : Type) : Machine (State T) (Act T) where
  step s
    | .elsewhere n next data => elsewhere s n next data
    | .push t newNode => pushCall s t newNode
    | .pusher t spurious => pushStep s t spurious
    | .owner => some (ownerStep s)

end steps

end Libfork.IntrusiveList
