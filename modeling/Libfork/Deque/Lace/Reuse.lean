import Libfork.Deque.Lace.Ring

/-!
# The slots of `lace_deque` used again

`steal` reads its slot after it has moved the top, when the owner may take the slot for free.

* **`stolen_of_run`** — a `steal` returns the value pushed at the index it claimed, under every
  interleaving in which no `push` changes the slot of an item that a thief has claimed and not
  read yet; and every item is delivered exactly once, if the fast path of `pop` stays inside the
  slots as well.
* **`not_stolen_after_reuse`** — with one slot, the `push` after a compare-exchange changes what
  the `steal` returns.

Source: `deque_lace.hpp`, `steal`, `push`.
-/

namespace Libfork.Deque.Lace

open Libfork.Found

variable {α : Type} {cap : Capacity} {s : State α}

instance (s : State α) : (a : Act α) → Decidable (Indices s a)
  | .push _ => inferInstanceAs (Decidable (s.deque.mWorker.bottom + 1 < 2 ^ 32))
  | .pop => inferInstanceAs (Decidable True)
  | .owner => inferInstanceAs (Decidable True)
  | .thief _ => inferInstanceAs (Decidable True)

instance (cap : Capacity) (s : State α) : (a : Act α) → Decidable (FastFits cap s a)
  | .push _ => inferInstanceAs (Decidable True)
  | .pop => inferInstanceAs (Decidable (s.deque.mWorker.bottom > s.deque.mWorker.osplit → _))
  | .owner => inferInstanceAs (Decidable True)
  | .thief _ => inferInstanceAs (Decidable True)

/-- **A `steal` returns what it claimed**, however long it is delayed, while no `push` changes
the slot that it is about to read. Every item is delivered exactly once, while the fast path of
`pop` stays inside the slots as well. -/
theorem stolen_of_run (cap : Capacity) (mem : ℤ → α) (as : List (Act α)) (t : State α)
    (h : (machine cap).Run (Kept cap) (State.new mem) as t) :
    AllJustified Stolen t.log ∧
      ((machine cap).Run (FastFits cap) (State.new mem) as t →
        ExactlyOnce Thread.side t.log) := by
  refine ⟨(slots_run h).stolen, ?_⟩
  intro hfast
  exact (ring_run (h.and hfast)).ideal.exactlyOnce

/-- A `push` while no thief is about to read the slot it writes. -/
theorem spares_of_idle {v : α} (h : ∀ n, s.thief n = .idle) : Spares cap s (.push v) := by
  intro n top k hn
  rw [h n] at hn
  cases hn

/-- A thief is delayed while the owner pushes again; its slot is used a second time after it has
read it. -/
theorem stolen_of_run_delayed :
    ∃ t : State ℕ, (machine twoSlots).Run (Kept twoSlots) (State.new fun _ => 0)
        [.push 7, .owner, .owner, .owner, .owner, .thief 0, .thief 0, .thief 0, .push 8, .owner,
          .owner, .thief 0, .push 9] t ∧
      t.log = [.push 0 7, .claim (.thief 0) 0, .push 1 8, .deliver (.thief 0) 0 0 7, .push 2 9] ∧
      AllJustified Stolen t.log ∧ ExactlyOnce Thread.side t.log := by
  have h : ((machine twoSlots).exec (fun s a => (Held twoSlots s a ∧ Indices s a) ∧
      FastFits twoSlots s a) (State.new fun _ => 0)
      [.push 7, .owner, .owner, .owner, .owner, .thief 0, .thief 0, .thief 0, .push 8, .owner,
        .owner, .thief 0, .push 9]).map State.log =
      some [.push 0 7, .claim (.thief 0) 0, .push 1 8, .deliver (.thief 0) 0 0 7, .push 2 9] := by
    decide +kernel
  have hspares : ∃ t, (machine twoSlots).Run (Spares twoSlots) (State.new fun _ => 0)
      [.push 7, .owner, .owner, .owner, .owner, .thief 0, .thief 0, .thief 0, .push 8, .owner,
        .owner, .thief 0, .push 9] t := by
    refine ⟨_, spares_of_idle fun _ => rfl, _, rfl, trivial, _, rfl, trivial, _, rfl, trivial, _,
      rfl, trivial, _, rfl, trivial, _, rfl, trivial, _, rfl, trivial, _, rfl, ?_, _, rfl,
      trivial, _, rfl, trivial, _, rfl, trivial, _, rfl, ?_, _, rfl, rfl⟩
    · intro n top k hn hslot
      by_cases hzero : n = 0
      · subst hzero
        cases hn
        exact absurd hslot (by decide)
      · rw [← Nat.sub_add_cancel (Nat.pos_of_ne_zero hzero)] at hn
        cases hn
    · apply spares_of_idle
      intro n
      cases n <;> rfl
  obtain ⟨t, ht, hlog⟩ := Option.map_eq_some_iff.mp h
  obtain ⟨t', hspares⟩ := hspares
  have hrun := Machine.run_iff_exec.mpr ht
  have hheld := hrun.mono fun _ _ hok => hok.1
  have hkept := (hheld.and hspares).mono fun _ _ hok => (⟨hok.1.1, hok.1.2, hok.2⟩ : Kept _ _ _)
  obtain ⟨hstolen, honce⟩ := stolen_of_run twoSlots _ _ t hkept
  exact ⟨t, hkept, hlog, hstolen, honce (hrun.mono fun _ _ hok => hok.2)⟩

/-- **A `steal` does not always return what it claimed.** With one slot, at most one item held at
a time: the thief has claimed the item 7 and not read it when the owner pushes 8. -/
theorem not_stolen_after_reuse :
    ¬ ∀ (cap : Capacity) (mem : ℤ → ℕ) (as : List (Act ℕ)) (t : State ℕ),
      (machine cap).Run (fun s a => Held cap s a ∧ Indices s a) (State.new mem) as t →
        AllJustified Stolen t.log := by
  intro h
  have hlog : ((machine oneSlot).exec (fun s a => Held oneSlot s a ∧ Indices s a)
      (State.new fun _ => 0)
      [.push 7, .owner, .owner, .owner, .owner, .thief 0, .thief 0, .thief 0, .push 8,
        .thief 0]).map State.log =
      some [.push 0 7, .claim (.thief 0) 0, .push 1 8, .deliver (.thief 0) 0 0 8] := by
    decide +kernel
  obtain ⟨t, ht, hlog⟩ := Option.map_eq_some_iff.mp hlog
  have hall := h oneSlot _ _ t (Machine.run_iff_exec.mpr ht)
  rw [hlog] at hall
  have hread := (hall [.push 0 7, .claim (.thief 0) 0, .push 1 8] _ [] rfl).1
  cases hread

end Libfork.Deque.Lace
