import Libfork.Algorithm.Overload
import Libfork.Found.ParallelFor

/-!
# The parallel map

The chunked recursion of `map`, the one for `n = 1`, and the overloads that dispatch to them. An
iterator is its position.

* `Callee` — the function and the projection that the user hands over, and the positions at which
  they throw.
* `Visits`, `Map.Written` — which positions are visited, how the call ends, and what is written.
* `Map.mapChunked_eq`, `Map.mapOne_eq` — both recursions are parallel loops; **`Map.map_meets`**.

`fuel` bounds the depth of the recursion; out of fuel, a recursion fails, as it does where an
assertion does not hold.

Source: `map.hpp`.
-/

namespace Libfork.Algorithm

open Libfork.Found Prog Routine

/-! ## What the user hands over -/

/-- The calls that an algorithm makes. -/
inductive Call (T P : Type)
  /-- The projection of the element `x` at `i`. -/
  | proj (i : ℤ) (x : T)
  /-- The function on the projected element at `i`. -/
  | fn (i : ℤ) (p : P)
deriving DecidableEq, Repr

/-- The position that a call is about. -/
def Call.index {T P : Type} : Call T P → ℤ
  | .proj i _ => i
  | .fn i _ => i

/-- The function and the projection, and the positions at which they throw. -/
structure Callee (T P U : Type) where
  fn : P → U
  proj : T → P
  fnThrows : ℤ → Bool
  projThrows : ℤ → Bool

namespace Callee

variable {T P U A V : Type} (c : Callee T P U)

/-- One of the two calls at `i` throws. -/
def throws (i : ℤ) : Bool := c.projThrows i || c.fnThrows i

/-- `co_await just(fun)(co_await just(proj)(x))`, for the element `x` at `i`. -/
def apply (i : ℤ) (x : T) : Routine A V (Call T P) U := do
  let p ← call (.proj i x) (if c.projThrows i then none else some (c.proj x))
  call (.fn i p) (if c.fnThrows i then none else some (c.fn p))

/-- The calls that this makes. -/
def visit (i : ℤ) (x : T) : List (Call T P) :=
  .proj i x :: if c.projThrows i then [] else [.fn i (c.proj x)]

/-- A visit is of its position. -/
theorem index_visit (i : ℤ) (x : T) : ∀ e ∈ c.visit i x, e.index = i := by
  intro e he
  unfold visit at he
  rcases List.mem_cons.mp he with rfl | he
  · rfl
  · split at he
    · cases he
    · obtain rfl := List.mem_singleton.mp he
      rfl

variable [DecidableEq A]

/-- An application that throws returns nothing and is on record. -/
theorem run_apply_of_throws {i : ℤ} (h : c.throws i = true) (x : T) (m : A → V) :
    run (c.apply i x).prog m = some (⟨none, c.visit i x⟩, m) := by
  unfold throws at h
  unfold apply visit
  cases hproj : c.projThrows i with
  | true => rfl
  | false =>
    rw [hproj, Bool.false_or] at h
    rw [h]
    rfl

/-- One that does not throw returns the value, and is on record. -/
theorem run_apply {i : ℤ} (h : c.throws i = false) (x : T) (m : A → V) :
    run (c.apply i x).prog m = some (⟨some (c.fn (c.proj x)), c.visit i x⟩, m) := by
  obtain ⟨hproj, hfn⟩ := Bool.or_eq_false_iff.mp h
  unfold apply visit
  rw [hproj, hfn]
  rfl

omit [DecidableEq A] in
/-- An application touches no cell. -/
theorem within_apply {rd wr : Set A} (i : ℤ) (x : T) :
    Within rd wr (c.apply i x : Routine A V (Call T P) U) := by
  apply Within.bind (within_call _ _)
  intro p
  exact within_call _ _

end Callee

/-! ## Visits -/

/-- What is made of the positions `[head, tail)` with the elements `x`, in chunks of at most `n`,
by a call that ends with `r`. -/
structure Visits {T P U : Type} (c : Callee T P U) (n head tail : ℤ) (x : ℤ → T)
    (r : Outcome (Call T P) Unit) : Prop where
  /-- If no position throws, the call returns and both calls are made at every position, once. -/
  returned : (∀ i, head ≤ i → i < tail → c.throws i = false) → r.value = some () ∧
    ∀ i, head ≤ i → i < tail →
      Body.callsAt Call.index i r.calls = [.proj i (x i), .fn i (c.proj (x i))]
  /-- If a position throws, so does the call. -/
  threw : (∃ i, head ≤ i ∧ i < tail ∧ c.throws i = true) → r.value = none
  /-- A position is visited, once, unless an earlier one of its chunk throws. -/
  visited : ∀ i, head ≤ i → i < tail → ∃ b e, Leaf n head tail b e ∧ b ≤ i ∧ i < e ∧
    ((∀ j, b ≤ j → j < i → c.throws j = false) →
      Body.callsAt Call.index i r.calls = c.visit i (x i)) ∧
    ((∃ j, b ≤ j ∧ j < i ∧ c.throws j = true) → Body.callsAt Call.index i r.calls = [])
  /-- No other position is visited. -/
  outside : ∀ i, i < head ∨ tail ≤ i → Body.callsAt Call.index i r.calls = []

/-- A range that was swept was visited. -/
theorem visits_of_swept {T P U A V : Type} {c : Callee T P U} {B : Body A V (Call T P)}
    {n head tail : ℤ} {m m' : A → V} {x : ℤ → T} {r : Outcome (Call T P) Unit} (hn : 1 ≤ n)
    (hthrows : B.throws = c.throws) (hvisit : ∀ i, B.visit m i = c.visit i (x i))
    (h : B.Swept Call.index n head tail m r m') : Visits c n head tail x r := by
  constructor
  case returned =>
    intro hclear
    rw [← hthrows] at hclear
    refine ⟨h.returned hclear, ?_⟩
    intro i h₁ h₂
    obtain ⟨b, e, -, hb, hbi, -, hpos⟩ := h.position hn h₁ h₂
    have hfalse := hclear i h₁ h₂
    rw [hthrows] at hfalse
    rw [hpos.visited fun j hj hj' => hclear j (by omega) (by omega), hvisit]
    unfold Callee.visit
    rw [(Bool.or_eq_false_iff.mp hfalse).1]
    rfl
  case threw =>
    intro hthrow
    rw [← hthrows] at hthrow
    exact h.threw (Body.not_clear.mpr hthrow)
  case visited =>
    intro i h₁ h₂
    obtain ⟨b, e, hleaf, -, hbi, hie, hpos⟩ := h.position hn h₁ h₂
    rw [← hthrows, ← hvisit]
    exact ⟨b, e, hleaf, hbi, hie, hpos.visited,
      fun hthrow => hpos.skipped (Body.not_clear.mpr hthrow)⟩
  case outside => exact h.outside

namespace Map

/-! ## The algorithm -/

/-- The range that is mapped. -/
inductive Input (T U : Type)
  /-- A range that the map does not write. -/
  | apart (xs : ℤ → T)
  /-- The output, `out == head`, as the iterators of the input read it. -/
  | inPlace (elem : U → T)

/-- `*head`. -/
def Input.fetch {T U : Type} (input : Input T U) (head : ℤ) : Prog ℤ U T :=
  match input with
  | .apart xs => pure (xs head)
  | .inPlace elem => do
      let u ← load head
      pure (elem u)

/-- The arguments that every call passes on. -/
structure Args (T P U : Type) where
  input : Input T U
  callee : Callee T P U

namespace Args

variable {T P U : Type} (A : Args T P U)

/-- `*out = co_await just(fun)(co_await just(proj)(*head))`. -/
def visit (head out : ℤ) : Routine ℤ U (Call T P) Unit := do
  let x ← lift (A.input.fetch head)
  let y ← A.callee.apply head x
  lift (store out y)

/-- `for (; head != tail; ++head, ++out)`, for `k = tail - head`. -/
def mapLoop : ℕ → ℤ → ℤ → Routine ℤ U (Call T P) Unit
  | 0, _, _ => pure ()
  | k + 1, head, out => do
      A.visit head out
      mapLoop k (head + 1) (out + 1)

/-- Source: `map.hpp`, `map_overload::operator()` -/
def mapChunked (n : ℤ) : ℕ → ℤ → ℤ → ℤ → Routine ℤ U (Call T P) Unit
  | 0, _, _, _ => ⟨.fail⟩
  | fuel + 1, head, tail, out => do
      lift (assert (n > 0))
      let len := tail - head
      lift (assert (len ≥ 0))
      if len = 0 then pure ()
      else if len ≤ n then A.mapLoop len.toNat head out
      else do
        let dif := len / 2
        let mid := head + dif
        let (_, _) ← both (mapChunked n fuel head mid out) (mapChunked n fuel mid tail (out + dif))
        pure ()

/-- Source: `map.hpp`, `map_overload::operator()` for `n = 1` -/
def mapOne : ℕ → ℤ → ℤ → ℤ → Routine ℤ U (Call T P) Unit
  | 0, _, _, _ => ⟨.fail⟩
  | fuel + 1, head, tail, out => do
      let len := tail - head
      lift (assert (len ≥ 0))
      if len = 0 then pure ()
      else if len = 1 then A.visit head out
      else do
        let dif := len / 2
        let mid := head + dif
        let (_, _) ← both (mapOne fuel head mid out) (mapOne fuel mid tail (out + dif))
        pure ()

/-- A depth that suffices. -/
def depth (head tail : ℤ) : ℕ := (tail - head).toNat + 1

/-- Source: `map.hpp`, `map_overload::operator()` for a range -/
def mapRangeChunk (range : Range) (out n : ℤ) : Routine ℤ U (Call T P) Unit := do
  lift (assert (n > 0))
  if n = 1 then A.mapOne (depth range.first range.last) range.first range.last out
  else A.mapChunked n (depth range.first range.last) range.first range.last out

/-- Source: `map.hpp`, `map_overload::operator()` for a range and `n = 1` -/
def mapRange (range : Range) (out : ℤ) : Routine ℤ U (Call T P) Unit :=
  A.mapOne (depth range.first range.last) range.first range.last out

/-- A call of an overload on `[head, tail)`. -/
def map (head tail out : ℤ) : Overload → Routine ℤ U (Call T P) Unit
  | .iter => A.mapOne (depth head tail) head tail out
  | .iterChunk n => A.mapChunked n (depth head tail) head tail out
  | .range => A.mapRange ⟨head, tail⟩ out
  | .rangeChunk n => A.mapRangeChunk ⟨head, tail⟩ out n

end Args

/-! ## A parallel loop -/

section equations

variable {T P U : Type} (A : Args T P U) {n d : ℤ} {fuel : ℕ} {head tail : ℤ}

/-- The input at `i`, in the memory `m`. -/
def Input.value (input : Input T U) (m : ℤ → U) (i : ℤ) : T :=
  match input with
  | .apart xs => xs i
  | .inPlace elem => elem (m i)

/-- The cells that `*i` reads. -/
def Input.cell (input : Input T U) (i : ℤ) : Set ℤ :=
  match input with
  | .apart _ => ∅
  | .inPlace _ => {i}

/-- What is done at a position; the output of the position `i` is the cell `i + d`. -/
def Args.body (d : ℤ) : Body ℤ U (Call T P) where
  code i := A.visit i (i + d)
  rd := A.input.cell
  wr i := {i + d}
  throws := A.callee.throws
  visit m i := A.callee.visit i (A.input.value m i)
  wrote i m m' := m' (i + d) = A.callee.fn (A.callee.proj (A.input.value m i))

/-- The loop maps position after position. -/
theorem mapLoop_eq (k : ℕ) (head : ℤ) :
    A.mapLoop k head (head + d) = (A.body d).loop k head := by
  induction k generalizing head with
  | zero => rfl
  | succ k ih =>
    unfold Args.mapLoop Body.loop
    rw [add_right_comm, ih]
    rfl

/-- The recursion with chunks sweeps the range in chunks of `n`. -/
theorem mapChunked_eq (hn : 0 < n) (hlt : head < tail) :
    A.mapChunked n fuel head tail (head + d) = (A.body d).sweep n fuel head tail := by
  induction fuel generalizing head tail with
  | zero => rfl
  | succ fuel ih =>
    unfold Args.mapChunked Body.sweep divide
    rw [assert_bind hn, assert_bind (show tail - head ≥ 0 by omega)]
    simp only
    rw [if_neg (show ¬tail - head = 0 by omega), record_nil, pure_bind]
    split_ifs with hsmall
    · exact mapLoop_eq A _ head
    · rw [add_right_comm, ih (show head < head + (tail - head) / 2 by omega),
        ih (show head + (tail - head) / 2 < tail by omega)]
      rfl

/-- The recursion without chunks sweeps it in chunks of one. -/
theorem mapOne_eq (hlt : head < tail) :
    A.mapOne fuel head tail (head + d) = (A.body d).sweep 1 fuel head tail := by
  induction fuel generalizing head tail with
  | zero => rfl
  | succ fuel ih =>
    unfold Args.mapOne Body.sweep divide
    rw [assert_bind (show tail - head ≥ 0 by omega)]
    simp only
    rw [if_neg (show ¬tail - head = 0 by omega), record_nil, pure_bind]
    by_cases hone : tail - head = 1
    · rw [if_pos hone, if_pos (by omega), hone]
      exact (bind_pure (A.visit head (head + d))).symm
    · rw [if_neg hone, if_neg (by omega), add_right_comm,
        ih (show head < head + (tail - head) / 2 by omega),
        ih (show head + (tail - head) / 2 < tail by omega)]
      rfl

/-- The output is the input, or lies where the input is not. -/
def Input.Aligned (d : ℤ) : Input T U → Prop
  | .apart _ => True
  | .inPlace _ => d = 0

/-- The element that is read. -/
theorem run_fetch (input : Input T U) (m : ℤ → U) (i : ℤ) :
    run (input.fetch i) m = some (input.value m i, m) := by
  cases input <;> rfl

/-- It depends on its own cell only. -/
theorem value_congr (input : Input T U) {i : ℤ} {m m' : ℤ → U}
    (h : ∀ a ∈ input.cell i, m' a = m a) : input.value m' i = input.value m i := by
  cases input with
  | apart xs => rfl
  | inPlace elem => exact congrArg elem (h i rfl)

/-- The code of a position does what its specification says. -/
theorem lawful_body (hd : A.input.Aligned d) : (A.body d).Lawful Call.index := by
  constructor
  case within =>
    intro i
    apply Within.bind
    · apply within_lift
      unfold Args.body Input.fetch Input.cell
      cases A.input with
      | apart xs => trivial
      | inPlace elem => exact ⟨rfl, fun _ => trivial⟩
    · intro x
      apply Within.bind (A.callee.within_apply i x)
      intro y
      exact within_lift (safe_store rfl)
  case returns =>
    intro i hthrow m
    have hvisit := A.callee.run_apply hthrow (A.input.value m i) m
    have hstore := run_lift (E := Call T P)
      (run_store m (i + d) (A.callee.fn (A.callee.proj (A.input.value m i))))
    have hrest : run (A.callee.apply i (A.input.value m i) >>= fun y => lift (store (i + d) y)).prog
        m = _ := run_bind_some hvisit hstore
    have hrun : run (A.visit i (i + d)).prog m = _ :=
      run_bind_some (run_lift (run_fetch A.input m i)) hrest
    rw [List.nil_append, List.append_nil] at hrun
    exact ⟨_, hrun, Function.update_self _ _ _⟩
  case throws =>
    intro i hthrow m
    have hvisit := A.callee.run_apply_of_throws hthrow (A.input.value m i) m
    exact run_bind_some (run_lift (run_fetch A.input m i)) (run_bind_none hvisit)
  case index =>
    intro m i
    exact A.callee.index_visit i _
  case visit_congr =>
    intro i m m' h
    change A.callee.visit i _ = A.callee.visit i _
    rw [value_congr A.input h]
  case wrote_congr =>
    intro i m m' m₁ m₁' hwrote h h'
    change m₁' (i + d) = _
    rw [h' (i + d) rfl, value_congr A.input h]
    exact hwrote
  case apart =>
    rintro i j hne a rfl (hmem | hmem)
    · unfold Args.body Input.cell at hmem
      cases hA : A.input with
      | apart xs =>
        rw [hA] at hmem
        exact hmem
      | inPlace elem =>
        rw [hA] at hmem hd
        obtain rfl : d = 0 := hd
        exact hne (by simpa using hmem)
    · have heq : i + d = j + d := hmem
      exact hne (by omega)

end equations

/-! ## What is left -/

section correct

variable {T P U : Type} {A : Args T P U} {d head tail : ℤ}

/-- On an empty range nothing is done. -/
theorem map_empty (o : Overload) (ho : 1 ≤ o.chunk) (head out : ℤ) :
    A.map head head out o = pure () := by
  have hone : A.mapOne (Args.depth head head) head head out = pure () := by
    unfold Args.depth Args.mapOne
    rw [assert_bind (show head - head ≥ 0 by omega)]
    exact if_pos (Int.sub_self head)
  have hchunked : ∀ n, 1 ≤ n →
      A.mapChunked n (Args.depth head head) head head out = pure () := by
    intro n hn
    unfold Args.depth Args.mapChunked
    rw [assert_bind (show n > 0 by omega), assert_bind (show head - head ≥ 0 by omega)]
    exact if_pos (Int.sub_self head)
  cases o with
  | iter => exact hone
  | iterChunk n => exact hchunked n ho
  | range => exact hone
  | rangeChunk n =>
    have hn : 1 ≤ n := ho
    change A.mapRangeChunk ⟨head, head⟩ out n = _
    unfold Args.mapRangeChunk
    rw [assert_bind (show n > 0 by omega)]
    split_ifs with heq
    · exact hone
    · exact hchunked n hn

/-- What an overload leaves. -/
theorem map_meets (hd : A.input.Aligned d) (o : Overload) (ho : 1 ≤ o.chunk) (hle : head ≤ tail) :
    Meets (A.map head tail (head + d) o).prog ((A.body d).reads head tail)
      ((A.body d).writes head tail) ((A.body d).Swept Call.index o.chunk head tail) := by
  obtain rfl | hlt : head = tail ∨ head < tail := by omega
  · rw [map_empty o ho head]
    exact ⟨within_pure (), fun m => ⟨_, m, run_pure () m, Body.swept_empty o.chunk head m⟩⟩
  have hfuel : tail - head ≤ Args.depth head tail := by
    unfold Args.depth
    omega
  have hone : Meets (A.mapOne (Args.depth head tail) head tail (head + d)).prog
      ((A.body d).reads head tail) ((A.body d).writes head tail)
      ((A.body d).Swept Call.index 1 head tail) := by
    rw [mapOne_eq A hlt]
    exact (lawful_body A hd).sweep_meets le_rfl hlt hfuel
  have hchunked : ∀ n, 1 ≤ n →
      Meets (A.mapChunked n (Args.depth head tail) head tail (head + d)).prog
        ((A.body d).reads head tail) ((A.body d).writes head tail)
        ((A.body d).Swept Call.index n head tail) := by
    intro n hn
    rw [mapChunked_eq A (by omega) hlt]
    exact (lawful_body A hd).sweep_meets hn hlt hfuel
  cases o with
  | iter => exact hone
  | iterChunk n => exact hchunked n ho
  | range => exact hone
  | rangeChunk n =>
    have hn : 1 ≤ n := ho
    change Meets (A.mapRangeChunk ⟨head, tail⟩ (head + d) n).prog _ _ _
    unfold Args.mapRangeChunk
    rw [assert_bind (show n > 0 by omega)]
    split_ifs with heq
    · subst heq
      exact hone
    · exact hchunked n hn

/-- What is left of the output `[out, out + (tail - head))`. -/
structure Written (A : Args T P U) (n head tail out : ℤ) (m m' : ℤ → U) : Prop where
  /-- If no position throws, every output is the function of the projected input, as it was before
  the call. -/
  returned : (∀ i, head ≤ i → i < tail → A.callee.throws i = false) →
    ∀ i, head ≤ i → i < tail →
      m' (out + (i - head)) = A.callee.fn (A.callee.proj (A.input.value m i))
  /-- The output of a position is written, unless it throws or an earlier one of its chunk does. -/
  written : ∀ i, head ≤ i → i < tail → ∃ b e, Leaf n head tail b e ∧ b ≤ i ∧ i < e ∧
    ((∀ j, b ≤ j → j ≤ i → A.callee.throws j = false) →
      m' (out + (i - head)) = A.callee.fn (A.callee.proj (A.input.value m i))) ∧
    ((∃ j, b ≤ j ∧ j ≤ i ∧ A.callee.throws j = true) →
      m' (out + (i - head)) = m (out + (i - head)))
  /-- Nothing else is written. -/
  outside : ∀ a, (∀ i, head ≤ i → i < tail → a ≠ out + (i - head)) → m' a = m a

/-- A range that was swept was written. -/
theorem written_of_swept {n : ℤ} {m m' : ℤ → U} {r : Outcome (Call T P) Unit} (hn : 1 ≤ n)
    (h : (A.body d).Swept Call.index n head tail m r m')
    (hframe : ∀ a, a ∉ (A.body d).writes head tail → m' a = m a) :
    Written A n head tail (head + d) m m' := by
  have hcell : ∀ i, head + d + (i - head) = i + d := fun i => by omega
  constructor
  case returned =>
    intro hclear i h₁ h₂
    obtain ⟨b, e, -, hb, hbi, -, hpos⟩ := h.position hn h₁ h₂
    rw [hcell]
    exact hpos.wrote fun j hj hj' => hclear j (by omega) (by omega)
  case written =>
    intro i h₁ h₂
    obtain ⟨b, e, hleaf, -, hbi, hie, hpos⟩ := h.position hn h₁ h₂
    rw [hcell]
    refine ⟨b, e, hleaf, hbi, hie, fun hclear => hpos.wrote fun j hj hj' => hclear j hj (by omega),
      ?_⟩
    rintro ⟨j, hj, hji, hthrow⟩
    exact hpos.kept (Body.not_clear.mpr ⟨j, hj, by omega, hthrow⟩) _ rfl
  case outside =>
    intro a ha
    apply hframe
    rintro ⟨i, h₁, h₂, hmem⟩
    obtain rfl : a = i + d := hmem
    exact ha i h₁ h₂ (hcell i).symm

end correct

end Map

end Libfork.Algorithm
