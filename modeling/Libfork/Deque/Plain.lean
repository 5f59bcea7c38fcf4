import Libfork.Deque.Common
import Libfork.Found.Object
import Mathlib.Data.Nat.Find
import Mathlib.Order.Bounds.Basic
import Mathlib.Algebra.Ring.Nat

/-!
# The plain double-ended list

What a deque is for, used by one thread: pushes and pops at one end, steals at the other.

* `Request`, `Reply` — the public calls of a deque and what they return.
* `Plain` — the items, and the largest number of them that there has been.
* **`Plain.isLeast_capacity`** — the capacity is the initial one times the smallest power of two
  that holds the largest number of items.
-/

namespace Libfork.Deque

open Libfork.Found

variable {α : Type}

/-- The calls of a deque. -/
inductive Request (α : Type)
  | push (val : α)
  | pop
  | steal
  | size
  | ssize
  | empty
  | capacity
deriving DecidableEq, Repr

/-- What a call returns. -/
inductive Reply (α : Type)
  | pushed
  | popped (val : Option α)
  | stolen (r : StealT α)
  | size (n : ℕ)
  | ssize (n : ℤ)
  | empty (b : Bool)
  | capacity (n : ℤ)
deriving DecidableEq, Repr

/-- A list of items, the oldest first. -/
structure Plain (α : Type) where
  items : List α
  /-- The largest number of items that there has been. -/
  most : ℕ
deriving DecidableEq, Repr

namespace Plain

/-- A list with no items. -/
def new : Plain α := ⟨[], 0⟩

/-- Doubling makes room at last. -/
theorem exists_growth (log2 most : ℕ) : ∃ k, most ≤ 2 ^ log2 * 2 ^ k := by
  refine ⟨most, Nat.le_trans (Nat.le_of_lt Nat.lt_two_pow_self) ?_⟩
  exact Nat.le_mul_of_pos_left _ (Nat.two_pow_pos _)

/-- The initial capacity, doubled until the largest number of items fits. -/
def capacity (log2 : ℕ) (p : Plain α) : ℕ := 2 ^ log2 * 2 ^ Nat.find (exists_growth log2 p.most)

/-- **The capacity** is the initial one times a power of two, and the smallest such number that
holds the largest number of items. -/
theorem isLeast_capacity (log2 : ℕ) (p : Plain α) :
    IsLeast {c | (∃ k, c = 2 ^ log2 * 2 ^ k) ∧ p.most ≤ c} (p.capacity log2) := by
  constructor
  · exact ⟨⟨_, rfl⟩, Nat.find_spec (exists_growth log2 p.most)⟩
  · rintro c ⟨⟨k, rfl⟩, hle⟩
    have hk : Nat.find (exists_growth log2 p.most) ≤ k := Nat.find_min' _ hle
    exact Nat.mul_le_mul_left _ (Nat.pow_le_pow_right Nat.two_pos hk)

/-- A new youngest item. -/
def push (p : Plain α) (val : α) : Plain α := ⟨p.items ++ [val], max p.most (p.items.length + 1)⟩

variable {log2 : ℕ} {p : Plain α} {val : α}

/-- The capacity does not change while there is room. -/
theorem capacity_push (hroom : p.items.length < p.capacity log2) :
    (p.push val).capacity log2 = p.capacity log2 := by
  obtain ⟨hmem, hle⟩ := isLeast_capacity log2 p
  refine (isLeast_capacity log2 (p.push val)).unique ⟨⟨hmem.1, Nat.max_le.mpr ⟨hmem.2, hroom⟩⟩, ?_⟩
  rintro c ⟨hc, hmost⟩
  exact hle ⟨hc, Nat.le_trans (Nat.le_max_left _ _) hmost⟩

/-- It doubles when there is none. -/
theorem capacity_push_full (hfull : p.items.length = p.capacity log2) :
    (p.push val).capacity log2 = 2 * p.capacity log2 := by
  obtain ⟨⟨⟨k, hk⟩, hmost⟩, hle⟩ := isLeast_capacity log2 p
  have hpos : 0 < p.capacity log2 := Nat.mul_pos (Nat.two_pow_pos _) (Nat.two_pow_pos _)
  have hdouble : ∀ j, 2 ^ log2 * 2 ^ (j + 1) = 2 * (2 ^ log2 * 2 ^ j) := by
    intro j
    rw [Nat.pow_succ', Nat.mul_left_comm]
  refine (isLeast_capacity log2 (p.push val)).unique ⟨⟨⟨k + 1, by rw [hk, hdouble]⟩, ?_⟩, ?_⟩
  · exact Nat.max_le.mpr ⟨by omega, by omega⟩
  · rintro c ⟨⟨j, rfl⟩, hpush⟩
    have hlt : p.capacity log2 < 2 ^ log2 * 2 ^ j := by
      have hsucc := Nat.le_trans (Nat.le_max_right p.most (p.items.length + 1)) hpush
      omega
    have hkj : k < j := by
      by_contra hge
      have hpow := Nat.mul_le_mul_left (2 ^ log2)
        (Nat.pow_le_pow_right Nat.two_pos (Nat.not_lt.mp hge))
      omega
    have hpow := Nat.mul_le_mul_left (2 ^ log2) (Nat.pow_le_pow_right Nat.two_pos hkj)
    rw [hdouble] at hpow
    omega

/-- The oldest item, if there is one. -/
def steal [Inhabited α] (p : Plain α) : StealT α × Plain α :=
  match p.items with
  | [] => (⟨.empty, default⟩, p)
  | val :: rest => (⟨.none, val⟩, ⟨rest, p.most⟩)

/-- The deque as a list whose ends are used. -/
def object (log2 : ℕ) [Inhabited α] : Object (Plain α) (Request α) (Reply α) where
  call p
    | .push val => some (.pushed, p.push val)
    | .pop => some (.popped p.items.getLast?, ⟨p.items.dropLast, p.most⟩)
    | .steal => some (.stolen p.steal.1, p.steal.2)
    | .size => some (.size p.items.length, p)
    | .ssize => some (.ssize p.items.length, p)
    | .empty => some (.empty p.items.isEmpty, p)
    | .capacity => some (.capacity (p.capacity log2), p)

/-- Every request is answered. -/
theorem exists_call (log2 : ℕ) [Inhabited α] (p : Plain α) (q : Request α) :
    ∃ x, (object log2).call p q = some x := by
  cases q <;> exact ⟨_, rfl⟩

end Plain

end Libfork.Deque
