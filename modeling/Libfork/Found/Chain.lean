import Mathlib.Data.List.Basic
import Mathlib.Logic.Function.Basic
import Mathlib.Tactic.Common

/-!
# Singly linked chains in a memory of links

* `Chain next h l` — following `next` from `h` visits the nodes `l` and then ends.
* **`Chain.congr`**, **`Chain.update`** — a chain only depends on the links of its own nodes.

Nothing here is about a particular program.
-/

namespace Libfork.Found

variable {ν : Type*} {next next' : ν → Option ν} {h : Option ν} {l : List ν} {n : ν}

/-- Following `next` from `h` visits the nodes `l` and then ends. -/
def Chain (next : ν → Option ν) : Option ν → List ν → Prop
  | h, [] => h = none
  | h, n :: l => h = some n ∧ Chain next (next n) l

/-- The empty chain. -/
@[simp] theorem chain_nil : Chain next h [] ↔ h = none := Iff.rfl

/-- A chain begins with its head. -/
@[simp] theorem chain_cons :
    Chain next h (n :: l) ↔ h = some n ∧ Chain next (next n) l := Iff.rfl

/-- A chain that starts nowhere is empty. -/
theorem Chain.eq_nil (hc : Chain next none l) : l = [] := by
  cases l with
  | nil => rfl
  | cons n l => exact absurd hc.1 (by simp)

/-- A chain that starts at a node goes on from its link. -/
theorem Chain.eq_cons (hc : Chain next (some n) l) :
    ∃ l', l = n :: l' ∧ Chain next (next n) l' := by
  cases l with
  | nil => exact absurd hc (by simp)
  | cons m l =>
      obtain ⟨hm, hl⟩ := hc
      obtain rfl := Option.some.inj hm
      exact ⟨l, rfl, hl⟩

/-- A chain only depends on the links of its own nodes. -/
theorem Chain.congr (hc : Chain next h l) (heq : ∀ n ∈ l, next' n = next n) :
    Chain next' h l := by
  induction l generalizing h with
  | nil => exact hc
  | cons n l ih =>
      obtain ⟨hn, hl⟩ := hc
      refine ⟨hn, ?_⟩
      rw [heq n List.mem_cons_self]
      exact ih hl fun m hm => heq m (List.mem_cons_of_mem n hm)

variable [DecidableEq ν]

/-- A write to a node that is not on the chain. -/
theorem Chain.update (hc : Chain next h l) (hn : n ∉ l) (x : Option ν) :
    Chain (Function.update next n x) h l := by
  apply hc.congr
  intro m hm
  apply Function.update_of_ne
  rintro rfl
  exact hn hm

/-- A node whose link is written to point at a chain it is not on. -/
theorem Chain.link (hc : Chain next h l) (hn : n ∉ l) :
    Chain (Function.update next n h) (some n) (n :: l) := by
  refine ⟨rfl, ?_⟩
  rw [Function.update_self]
  exact hc.update hn h

end Libfork.Found
