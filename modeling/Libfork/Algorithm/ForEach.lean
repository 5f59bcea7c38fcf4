import Libfork.Algorithm.Map

/-!
# The parallel for-each

`for_each` is `map` without an output.

* `forEachChunked_eq`, `forEachOne_eq` — both recursions are parallel loops.
* **`visits_once`** — `map` and `for_each` visit every position once, even when some calls throw.

Source: `for_each.hpp`.
-/

namespace Libfork.Algorithm

open Libfork.Found Prog Routine

namespace ForEach

/-! ## The algorithm -/

section algorithm

variable {T P U : Type} (c : Callee T P U)

/-- `co_await just(fun)(co_await just(proj)(*head))`. -/
def visit (head : ℤ) : Routine ℤ T (Call T P) Unit := do
  let x ← lift (load head)
  let _ ← c.apply head x
  pure ()

/-- `for (; head != tail; ++head)`, for `k = tail - head`. -/
def forEachLoop : ℕ → ℤ → Routine ℤ T (Call T P) Unit
  | 0, _ => pure ()
  | k + 1, head => do
      visit c head
      forEachLoop k (head + 1)

/-- Source: `for_each.hpp`, `for_each_overload::operator()` -/
def forEachChunked (n : ℤ) : ℕ → ℤ → ℤ → Routine ℤ T (Call T P) Unit
  | 0, _, _ => ⟨.fail⟩
  | fuel + 1, head, tail => do
      lift (assert (n > 0))
      let len := tail - head
      lift (assert (len ≥ 0))
      if len = 0 then pure ()
      else if len ≤ n then forEachLoop c len.toNat head
      else do
        let mid := head + len / 2
        let (_, _) ← both (forEachChunked n fuel head mid) (forEachChunked n fuel mid tail)
        pure ()

/-- Source: `for_each.hpp`, `for_each_overload::operator()` for `n = 1` -/
def forEachOne : ℕ → ℤ → ℤ → Routine ℤ T (Call T P) Unit
  | 0, _, _ => ⟨.fail⟩
  | fuel + 1, head, tail => do
      let len := tail - head
      lift (assert (len ≥ 0))
      if len = 0 then pure ()
      else if len = 1 then visit c head
      else do
        let mid := head + len / 2
        let (_, _) ← both (forEachOne fuel head mid) (forEachOne fuel mid tail)
        pure ()

/-- A depth that suffices. -/
def depth (head tail : ℤ) : ℕ := (tail - head).toNat + 1

/-- Source: `for_each.hpp`, `for_each_overload::operator()` for a range -/
def forEachRangeChunk (range : Range) (n : ℤ) : Routine ℤ T (Call T P) Unit := do
  lift (assert (n > 0))
  if n = 1 then forEachOne c (depth range.first range.last) range.first range.last
  else forEachChunked c n (depth range.first range.last) range.first range.last

/-- Source: `for_each.hpp`, `for_each_overload::operator()` for a range and `n = 1` -/
def forEachRange (range : Range) : Routine ℤ T (Call T P) Unit :=
  forEachOne c (depth range.first range.last) range.first range.last

/-- A call of an overload on `[head, tail)`. -/
def forEach (head tail : ℤ) : Overload → Routine ℤ T (Call T P) Unit
  | .iter => forEachOne c (depth head tail) head tail
  | .iterChunk n => forEachChunked c n (depth head tail) head tail
  | .range => forEachRange c ⟨head, tail⟩
  | .rangeChunk n => forEachRangeChunk c ⟨head, tail⟩ n

end algorithm

/-! ## A parallel loop -/

section equations

variable {T P U : Type} (c : Callee T P U) {n : ℤ} {fuel : ℕ} {head tail : ℤ}

/-- What is done at a position. -/
def body : Body ℤ T (Call T P) where
  code := visit c
  rd i := {i}
  wr _ := ∅
  throws := c.throws
  visit m i := c.visit i (m i)
  wrote _ _ _ := True

/-- The loop visits position after position. -/
theorem forEachLoop_eq (k : ℕ) (head : ℤ) : forEachLoop c k head = (body c).loop k head := by
  induction k generalizing head with
  | zero => rfl
  | succ k ih =>
    unfold forEachLoop Body.loop
    rw [ih]
    rfl

/-- The recursion with chunks sweeps the range in chunks of `n`. -/
theorem forEachChunked_eq (hn : 0 < n) (hlt : head < tail) :
    forEachChunked c n fuel head tail = (body c).sweep n fuel head tail := by
  induction fuel generalizing head tail with
  | zero => rfl
  | succ fuel ih =>
    unfold forEachChunked Body.sweep divide
    rw [assert_bind hn, assert_bind (show tail - head ≥ 0 by omega)]
    simp only
    rw [if_neg (show ¬tail - head = 0 by omega), record_nil, pure_bind]
    split_ifs with hsmall
    · exact forEachLoop_eq c _ head
    · rw [ih (show head < head + (tail - head) / 2 by omega),
        ih (show head + (tail - head) / 2 < tail by omega)]
      rfl

/-- The recursion without chunks sweeps it in chunks of one. -/
theorem forEachOne_eq (hlt : head < tail) :
    forEachOne c fuel head tail = (body c).sweep 1 fuel head tail := by
  induction fuel generalizing head tail with
  | zero => rfl
  | succ fuel ih =>
    unfold forEachOne Body.sweep divide
    rw [assert_bind (show tail - head ≥ 0 by omega)]
    simp only
    rw [if_neg (show ¬tail - head = 0 by omega), record_nil, pure_bind]
    by_cases hone : tail - head = 1
    · rw [if_pos hone, if_pos (by omega), hone]
      exact (bind_pure (visit c head)).symm
    · rw [if_neg hone, if_neg (by omega), ih (show head < head + (tail - head) / 2 by omega),
        ih (show head + (tail - head) / 2 < tail by omega)]
      rfl

/-- The code of a position does what its specification says. -/
theorem lawful_body : (body c).Lawful Call.index := by
  constructor
  case within =>
    intro i
    apply Within.bind (within_lift (safe_load (show i ∈ ({i} : Set ℤ) from rfl)))
    intro x
    apply Within.bind (c.within_apply i x)
    intro _
    exact within_pure ()
  case returns =>
    intro i hthrow m
    have hrest : run (c.apply i (m i) >>= fun _ => pure ()).prog m = _ :=
      run_bind_some (c.run_apply hthrow (m i) m) (run_pure () m)
    have hrun : run (visit c i).prog m = _ := run_bind_some (run_lift (run_load m i)) hrest
    rw [List.nil_append, List.append_nil] at hrun
    exact ⟨m, hrun, trivial⟩
  case throws =>
    intro i hthrow m
    exact run_bind_some (run_lift (run_load m i))
      (run_bind_none (c.run_apply_of_throws hthrow (m i) m))
  case index =>
    intro m i
    exact c.index_visit i _
  case visit_congr =>
    intro i m m' h
    change c.visit i _ = c.visit i _
    rw [h i rfl]
  case wrote_congr => exact fun _ _ _ _ _ _ _ _ => trivial
  case apart => exact fun _ _ _ _ ha => ha.elim

end equations

/-! ## What is left -/

section correct

variable {T P U : Type} {c : Callee T P U} {head tail : ℤ}

/-- On an empty range nothing is done. -/
theorem forEach_empty (o : Overload) (ho : 1 ≤ o.chunk) (head : ℤ) :
    forEach c head head o = pure () := by
  have hone : forEachOne c (depth head head) head head = pure () := by
    unfold depth forEachOne
    rw [assert_bind (show head - head ≥ 0 by omega)]
    exact if_pos (Int.sub_self head)
  have hchunked : ∀ n, 1 ≤ n → forEachChunked c n (depth head head) head head = pure () := by
    intro n hn
    unfold depth forEachChunked
    rw [assert_bind (show n > 0 by omega), assert_bind (show head - head ≥ 0 by omega)]
    exact if_pos (Int.sub_self head)
  cases o with
  | iter => exact hone
  | iterChunk n => exact hchunked n ho
  | range => exact hone
  | rangeChunk n =>
    have hn : 1 ≤ n := ho
    change forEachRangeChunk c ⟨head, head⟩ n = _
    unfold forEachRangeChunk
    rw [assert_bind (show n > 0 by omega)]
    split_ifs with heq
    · exact hone
    · exact hchunked n hn

/-- What an overload leaves. -/
theorem forEach_meets (c : Callee T P U) (o : Overload) (ho : 1 ≤ o.chunk) (hle : head ≤ tail) :
    Meets (forEach c head tail o).prog ((body c).reads head tail) ((body c).writes head tail)
      ((body c).Swept Call.index o.chunk head tail) := by
  obtain rfl | hlt : head = tail ∨ head < tail := by omega
  · rw [forEach_empty o ho head]
    exact ⟨within_pure (), fun m => ⟨_, m, run_pure () m, Body.swept_empty o.chunk head m⟩⟩
  have hfuel : tail - head ≤ depth head tail := by
    unfold depth
    omega
  have hone : Meets (forEachOne c (depth head tail) head tail).prog ((body c).reads head tail)
      ((body c).writes head tail) ((body c).Swept Call.index 1 head tail) := by
    rw [forEachOne_eq c hlt]
    exact (lawful_body c).sweep_meets le_rfl hlt hfuel
  have hchunked : ∀ n, 1 ≤ n → Meets (forEachChunked c n (depth head tail) head tail).prog
      ((body c).reads head tail) ((body c).writes head tail)
      ((body c).Swept Call.index n head tail) := by
    intro n hn
    rw [forEachChunked_eq c (by omega) hlt]
    exact (lawful_body c).sweep_meets hn hlt hfuel
  cases o with
  | iter => exact hone
  | iterChunk n => exact hchunked n ho
  | range => exact hone
  | rangeChunk n =>
    have hn : 1 ≤ n := ho
    change Meets (forEachRangeChunk c ⟨head, tail⟩ n).prog _ _ _
    unfold forEachRangeChunk
    rw [assert_bind (show n > 0 by omega)]
    split_ifs with heq
    · subst heq
      exact hone
    · exact hchunked n hn

end correct

end ForEach

/-- **`map` and `for_each` visit every position once, even when some calls throw.** Every
interleaving of every overload can be completed, so that no assertion fails. When it has returned
or thrown, a position is visited unless an earlier one of its chunk throws, the outputs of the
visited positions that do not throw are written, and the call has thrown if a position throws. -/
theorem visits_once {T P U : Type} (c : Callee T P U) (o : Overload) (ho : 1 ≤ o.chunk)
    (head tail : ℤ) (hle : head ≤ tail) :
    (∀ (input : Map.Input T U) (out : ℤ), input.Aligned (out - head) → ∀ m : ℤ → U,
      (∀ p m', Steps ((Map.Args.mk input c).map head tail out o).prog m p m' →
        ∃ r m'', Steps p m' (ret r) m'') ∧
      ∀ r m', Steps ((Map.Args.mk input c).map head tail out o).prog m (ret r) m' →
        Visits c o.chunk head tail (input.value m) r ∧
          Map.Written ⟨input, c⟩ o.chunk head tail out m m') ∧
    ∀ m : ℤ → T,
      (∀ p m', Steps (ForEach.forEach c head tail o).prog m p m' →
        ∃ r m'', Steps p m' (ret r) m'') ∧
      ∀ r m', Steps (ForEach.forEach c head tail o).prog m (ret r) m' →
        Visits c o.chunk head tail m r := by
  constructor
  · intro input out hout m
    obtain ⟨d, rfl⟩ : ∃ d, out = head + d := ⟨out - head, by omega⟩
    rw [show head + d - head = d by omega] at hout
    have hmeets := Map.map_meets (A := ⟨input, c⟩) hout o ho hle
    refine ⟨fun p m' hs => hmeets.complete hs, ?_⟩
    intro r m' hs
    obtain ⟨hswept, hframe⟩ := hmeets.result hs
    exact ⟨visits_of_swept ho rfl (fun _ => rfl) hswept, Map.written_of_swept ho hswept hframe⟩
  · intro m
    have hmeets := ForEach.forEach_meets c o ho hle
    refine ⟨fun p m' hs => hmeets.complete hs, ?_⟩
    intro r m' hs
    exact visits_of_swept ho rfl (fun _ => rfl) (hmeets.result hs).1

/-- Squares; the function throws at the position 2. -/
def squareCallee : Callee ℕ ℕ ℕ := ⟨fun x => x * x, id, fun i => i = 2, fun _ => false⟩

/-- Three numbers in place, in chunks of two. -/
theorem visits_once_square : ∃ r m', Steps
    ((Map.Args.mk (.inPlace id) squareCallee).map 0 3 0 (.rangeChunk 2)).prog
    (fun i => i.toNat + 2) (ret r) m' ∧ r.value = none ∧ m' 0 = 4 ∧ m' 1 = 9 ∧ m' 2 = 4 := by
  obtain ⟨hmap, -⟩ := visits_once squareCallee (.rangeChunk 2) (by decide) 0 3 (by decide)
  obtain ⟨hcomplete, hresult⟩ := hmap (.inPlace id) 0 rfl fun i => i.toNat + 2
  obtain ⟨r, m', hs⟩ := hcomplete _ _ .refl
  obtain ⟨hvisits, hwritten⟩ := hresult r m' hs
  have hclear : ∀ j : ℤ, j < 2 → squareCallee.throws j = false := by
    intro j hj
    simp [squareCallee, Callee.throws]
    omega
  obtain ⟨_, _, -, -, -, h₀, -⟩ := hwritten.written 0 (by decide) (by decide)
  obtain ⟨_, _, -, -, -, h₁, -⟩ := hwritten.written 1 (by decide) (by decide)
  obtain ⟨_, _, -, hb, -, -, h₂⟩ := hwritten.written 2 (by decide) (by decide)
  exact ⟨r, m', hs, hvisits.threw ⟨2, by decide, by decide, rfl⟩,
    h₀ fun j _ hj => hclear j (by omega), h₁ fun j _ hj => hclear j (by omega),
    h₂ ⟨2, hb, le_rfl, rfl⟩⟩

end Libfork.Algorithm
