import Libfork.Deque.Lace.PrivatePart
import Libfork.Deque.Lace.Sequential
import Libfork.Found.Ring

/-!
# `push` on a full `lace_deque`

`push` has no test for a full deque: it writes the slot of `bottom` whatever is there.

* `PushSafe` — a `push` stores its item in a slot that no held item is in, or fails.
* **`pushSafe_iff`** — along every interleaving whose pushes have all started with a slot to
  spare, the next one is safe if and only if it starts with one as well.
* **`not_pushSafe_full`** — with one slot, the second of two pushes takes the slot of the first.

An item is held from its push until a `pop` or a `steal` claims it; those held are at the indices
from top to `bottom`.

Source: `deque_lace.hpp`, `push`, `mask_index`.
-/

namespace Libfork.Deque.Lace

open Libfork.Found

variable {α : Type} {cap : Capacity} {s : State α}

/-! ## The statement -/

/-- The slot that the next `push` writes is not the slot of a held item. -/
def SlotFree (cap : Capacity) (s : State α) : Prop :=
  ∀ i : ℕ, s.top ≤ i → i < s.back → maskIndex cap i ≠ maskIndex cap s.deque.bot.toNat

/-- `push(v)` stores `v` where no held item is, or leaves the deque as it is. -/
def PushSafe (cap : Capacity) (s : State α) (v : α) : Prop :=
  SlotFree cap s ∨ (s.deque.push cap v).deque = s.deque

/-! ## The slot of a `push` -/

/-- The slot of `bottom`, beyond `2 ^ 32` too. -/
theorem maskIndex_bot (h : Level cap s) (hidle : s.owner = .idle) :
    maskIndex cap s.deque.bot.toNat = s.back % cap.val := by
  have hback : s.back = s.deque.mWorker.bottom.toNat :=
    back_of_not_inPush (by rw [hidle]; rfl)
  have hbottom : s.deque.mWorker.bottom = (s.back : ℤ) := by
    rw [hback, Int.toNat_of_nonneg h.bottom_nonneg]
  have hbot : s.deque.bot = BitVec.ofNat 32 s.back := by
    unfold LaceDeque.bot
    rw [hbottom]
    exact BitVec.ofInt_natCast 32 s.back
  rw [hbot]
  exact maskIndex_ofNat cap s.back

/-- With a slot to spare, the slot of `bottom` is it. -/
theorem slotFree_of_lt (h : Level cap s) (hidle : s.owner = .idle)
    (hlt : pending s.log < cap.val) : SlotFree cap s := by
  intro i hi hib
  have hpend := h.pending_eq
  rw [maskIndex_bot h hidle, maskIndex_eq_mod]
  exact mod_ne_of_lt_add hib (by omega)

/-- With none to spare, it is the slot of the oldest item. -/
theorem not_slotFree_of_full (h : Level cap s) (hidle : s.owner = .idle)
    (hfull : cap.val ≤ pending s.log) : ¬ SlotFree cap s := by
  intro hfree
  have hpend := h.pending_eq
  have hroom := h.room
  have hpos := cap.val_pos
  have hback : s.back = s.top + cap.val := by omega
  have hne := hfree s.top (Nat.le_refl _) (by omega)
  rw [maskIndex_bot h hidle, maskIndex_eq_mod, hback, Nat.add_mod_right] at hne
  exact hne rfl

/-- `grow_shared` and the requests leave `bottom`. -/
theorem serveRequest_bottom (d : LaceDeque α) :
    d.serveRequest.mWorker.bottom = d.mWorker.bottom := by
  unfold LaceDeque.serveRequest LaceDeque.growShared
  dsimp only
  split
  · split <;> rfl
  · rfl

/-- Clearing the request leaves the bottom where it is. -/
theorem clearRequest_bottom (d : LaceDeque α) :
    d.clearRequest.mWorker.bottom = d.mWorker.bottom := by
  unfold LaceDeque.clearRequest
  split <;> rfl

/-- `push` does not fail: `bottom` goes up. -/
theorem push_bottom (d : LaceDeque α) (v : α) :
    (d.push cap v).deque.mWorker.bottom = d.mWorker.bottom + 1 := by
  unfold LaceDeque.push
  dsimp only
  split
  · exact congrArg (· + 1) (clearRequest_bottom _)
  · exact congrArg (· + 1) (serveRequest_bottom _)

/-- A push changes the deque. -/
theorem push_ne (d : LaceDeque α) (v : α) : (d.push cap v).deque ≠ d := by
  intro heq
  have hbottom : (d.push cap v).deque.mWorker.bottom = d.mWorker.bottom + 1 := push_bottom d v
  rw [heq] at hbottom
  exact absurd hbottom (by omega)

/-- A safe `push` leaves the slots of the held items as they are. -/
theorem push_held (hfree : SlotFree cap s) (v : α) {i : ℕ} (hi : s.top ≤ i) (hib : i < s.back) :
    (pushCall cap s v).deque.mArray (maskIndex cap i) = s.deque.mArray (maskIndex cap i) := by
  apply Function.update_of_ne
  intro heq
  exact hfree i hi hib (Int.ofNat_inj.mp heq)

/-! ## Every run -/

/-- The indices are level in every run within the bounds. -/
theorem level_of_run {mem : ℤ → α} {as : List (Act α)}
    (h : (machine cap).Run (fun s a => Held cap s a ∧ Below s a) (State.new mem) as s) :
    Level cap s :=
  h.invariant (fun _ _ _ h hok hs => level_step h hok.1 hok.2 hs) (level_new cap mem)

/-- **A `push` is safe if and only if fewer items are held than there are slots**, in every run
in which all pushes before it were, whatever the thieves are doing. -/
theorem pushSafe_iff (cap : Capacity) (mem : ℤ → α) (as : List (Act α)) (t : State α) (v : α)
    (h : (machine cap).Run (fun s a => Held cap s a ∧ Below s a) (State.new mem) as t)
    (hidle : t.owner = .idle) :
    PushSafe cap t v ↔ pending t.log < cap.val := by
  have hlevel := level_of_run h
  constructor
  · intro hsafe
    by_contra hfull
    rcases hsafe with hfree | hfails
    · exact not_slotFree_of_full hlevel hidle (Nat.not_lt.mp hfull) hfree
    · exact push_ne t.deque v hfails
  · intro hlt
    exact Or.inl (slotFree_of_lt hlevel hidle hlt)

/-- One item is held in two slots, and the next `push` takes the other one. -/
theorem pushSafe_iff_two :
    ∃ t : State ℕ, (machine twoSlots).Run (fun s a => Held twoSlots s a ∧ Below s a)
        (State.new fun _ => 0) [.push 7, .owner, .owner, .owner, .owner] t ∧
      t.owner = .idle ∧ pending t.log = 1 ∧ (PushSafe twoSlots t 8 ↔ pending t.log < 2) := by
  have hidle : ∃ t : State ℕ, (machine twoSlots).Run (fun s a => Held twoSlots s a ∧ Below s a)
        (State.new fun _ => 0) [.push 7, .owner, .owner, .owner, .owner] t ∧
      t.owner = .idle ∧ pending t.log = 1 := by
    refine ⟨_, ⟨⟨?_, ?_⟩, _, rfl, ⟨trivial, trivial⟩, _, rfl, ⟨trivial, trivial⟩, _, rfl,
      ⟨trivial, trivial⟩, _, rfl, ⟨trivial, trivial⟩, _, rfl, rfl⟩, rfl, rfl⟩
    · change 0 < 2
      decide
    · intro _
      decide
  obtain ⟨t, hrun, hidle, hpending⟩ := hidle
  exact ⟨t, hrun, hidle, hpending, pushSafe_iff twoSlots _ _ t 8 hrun hidle⟩

/-- **A `push` is not always safe.** With one slot, the first item is still held when the second
`push` starts. -/
theorem not_pushSafe_full :
    ¬ ∀ (cap : Capacity) (mem : ℤ → ℕ) (as : List (Act ℕ)) (t : State ℕ) (v : ℕ),
      (machine cap).Run Machine.free (State.new mem) as t → t.owner = .idle →
        PushSafe cap t v := by
  intro h
  have hrun : ∃ t : State ℕ, (machine oneSlot).Run Machine.free (State.new fun _ => 0)
        [.push 7, .owner, .owner, .owner, .owner] t ∧ t.owner = .idle ∧ t.top = 0 ∧
      t.back = 1 ∧ t.deque.bot = 1 :=
    ⟨_, ⟨trivial, _, rfl, trivial, _, rfl, trivial, _, rfl, trivial, _, rfl, trivial, _, rfl, rfl⟩,
      rfl, rfl, rfl, rfl⟩
  obtain ⟨t, ht, hidle, htop, hback, hbot⟩ := hrun
  rcases h oneSlot _ _ t 8 ht hidle with hfree | hfails
  · have hne := hfree 0 (Nat.le_of_eq htop) (by rw [hback]; decide)
    rw [hbot] at hne
    exact hne (by decide)
  · exact push_ne t.deque 8 hfails

end Libfork.Deque.Lace
