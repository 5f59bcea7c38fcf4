import Libfork.Algorithm.Overload
import Libfork.Found.Divide
import Libfork.Found.Reduce

/-!
# The parallel fold

Both recursions of `fold`, the chunked one and the one for `n = 1`, and the four overloads that
dispatch to them, as routines on the cells of the input. An iterator is its position.

* `Call` — what the record of a fold tells of: the calls of the recursion, and the projections.
* `foldChunked_eq`, `foldOne_eq` — both recursions are divide and conquer.
* **`fold_correct`** — every overload returns the left fold of the projected input, and projects
  every element once.

`fuel` bounds the depth of the recursion; out of fuel, a recursion fails, as it does where an
assertion does not hold. The binary operation and the projection return; whether they are
synchronous makes no difference then.

Source: `fold.hpp`.
-/

namespace Libfork.Algorithm.Fold

open Libfork.Found Prog Routine

/-- What a fold does, for the record. -/
inductive Call (T : Type)
  /-- A call of the recursion on `[head, tail)`. -/
  | enter (head tail : ℤ)
  /-- The projection of the element at `i`. -/
  | proj (i : ℤ) (x : T)
deriving DecidableEq, Repr

/-- The projection of the element at `i`. -/
def Call.projects {T : Type} (i : ℤ) : Call T → Bool
  | .enter _ _ => false
  | .proj j _ => j = i

/-- The arguments that every call passes on. -/
structure Args (T V : Type) where
  bop : V → V → V
  proj : T → V

namespace Args

variable {T V : Type} (A : Args T V)

/-- `co_await just(proj)(*head)`. -/
def project (head : ℤ) : Routine ℤ T (Call T) V := do
  let x ← lift (load head)
  call (.proj head x) (some (A.proj x))

/-- `for (; head != tail; ++head) lhs = bop(lhs, proj(*head))`, for `k = tail - head`. -/
def foldLoop : ℕ → ℤ → V → Routine ℤ T (Call T) V
  | 0, _, lhs => pure lhs
  | k + 1, head, lhs => do
      let x ← A.project head
      foldLoop k (head + 1) (A.bop lhs x)

/-- Source: `fold.hpp`, `fold_overload_impl::operator()` -/
def foldChunked (n : ℤ) : ℕ → ℤ → ℤ → Routine ℤ T (Call T) V
  | 0, _, _ => ⟨.fail⟩
  | fuel + 1, head, tail => do
      record [.enter head tail]
      lift (assert (n > 1))
      let len := tail - head
      lift (assert (len > 0))
      if len ≤ n then do
        let lhs ← A.project head
        A.foldLoop (tail - (head + 1)).toNat (head + 1) lhs
      else do
        let mid := head + len / 2
        lift (assert (mid - head > 0))
        lift (assert (tail - mid > 0))
        let (lhs, rhs) ← both (foldChunked n fuel head mid) (foldChunked n fuel mid tail)
        pure (A.bop lhs rhs)

/-- Source: `fold.hpp`, `fold_overload_impl::operator()` for `n = 1` -/
def foldOne : ℕ → ℤ → ℤ → Routine ℤ T (Call T) V
  | 0, _, _ => ⟨.fail⟩
  | fuel + 1, head, tail => do
      record [.enter head tail]
      let len := tail - head
      lift (assert (len ≥ 0))
      if len = 0 then ⟨.fail⟩ -- `LF_ASSERT(false && "Unreachable")`
      else if len = 1 then A.project head
      else do
        let mid := head + len / 2
        lift (assert (mid - head > 0))
        lift (assert (tail - mid > 0))
        let (lhs, rhs) ← both (foldOne fuel head mid) (foldOne fuel mid tail)
        pure (A.bop lhs rhs)

/-- Source: `fold.hpp`, `fold_overload::operator()` for iterators and `n = 1` -/
def foldIter (head tail : ℤ) : Routine ℤ T (Call T) (Option V) :=
  if head = tail then pure none
  else do
    let acc ← A.foldOne (tail - head).toNat head tail
    pure (some acc)

/-- Source: `fold.hpp`, `fold_overload::operator()` for iterators -/
def foldIterChunk (head tail n : ℤ) : Routine ℤ T (Call T) (Option V) :=
  if head = tail then pure none
  else if n = 1 then do
    let acc ← A.foldOne (tail - head).toNat head tail
    pure (some acc)
  else do
    let acc ← A.foldChunked n (tail - head).toNat head tail
    pure (some acc)

/-- Source: `fold.hpp`, `fold_overload::operator()` for a range and `n = 1` -/
def foldRange (range : Range) : Routine ℤ T (Call T) (Option V) :=
  if range.first = range.last then pure none
  else do
    let acc ← A.foldOne (range.last - range.first).toNat range.first range.last
    pure (some acc)

/-- Source: `fold.hpp`, `fold_overload::operator()` for a range -/
def foldRangeChunk (range : Range) (n : ℤ) : Routine ℤ T (Call T) (Option V) :=
  if range.first = range.last then pure none
  else if n = 1 then do
    let acc ← A.foldOne (range.last - range.first).toNat range.first range.last
    pure (some acc)
  else do
    let acc ← A.foldChunked n (range.last - range.first).toNat range.first range.last
    pure (some acc)

end Args

/-- A call of an overload on `[head, tail)`. -/
def Args.fold {T V : Type} (A : Args T V) (head tail : ℤ) :
    Overload → Routine ℤ T (Call T) (Option V)
  | .iter => A.foldIter head tail
  | .iterChunk n => A.foldIterChunk head tail n
  | .range => A.foldRange ⟨head, tail⟩
  | .rangeChunk n => A.foldRangeChunk ⟨head, tail⟩ n

/-! ## Divide and conquer -/

section equations

variable {T V : Type} (A : Args T V) {n : ℤ} {fuel : ℕ} {head tail : ℤ}

/-- What a call of the recursion adds to the record. -/
def note (head tail : ℤ) : List (Call T) := [.enter head tail]

/-- The chunk `[head, tail)`. -/
def Args.chunk (head tail : ℤ) : Routine ℤ T (Call T) V := do
  let lhs ← A.project head
  A.foldLoop (tail - (head + 1)).toNat (head + 1) lhs

/-- The recursion with chunks divides the range down to `n` positions. -/
theorem foldChunked_eq (hn : 1 < n) (hlt : head < tail) :
    A.foldChunked n fuel head tail = divide n note A.chunk A.bop fuel head tail := by
  induction fuel generalizing head tail with
  | zero => rfl
  | succ fuel ih =>
    unfold Args.foldChunked divide
    rw [assert_bind hn, assert_bind (show tail - head > 0 by omega)]
    simp only
    split_ifs with hsmall
    · rfl
    · rw [assert_bind (show head + (tail - head) / 2 - head > 0 by omega),
        assert_bind (show tail - (head + (tail - head) / 2) > 0 by omega), ih (by omega),
        ih (by omega)]
      rfl

/-- The recursion without chunks divides it down to single ones. -/
theorem foldOne_eq (hlt : head < tail) :
    A.foldOne fuel head tail = divide 1 note A.chunk A.bop fuel head tail := by
  induction fuel generalizing head tail with
  | zero => rfl
  | succ fuel ih =>
    unfold Args.foldOne divide
    rw [assert_bind (show tail - head ≥ 0 by omega)]
    simp only
    rw [if_neg (show ¬tail - head = 0 by omega)]
    by_cases hone : tail - head = 1
    · have hz : (tail - (head + 1)).toNat = 0 := by omega
      rw [if_pos hone, if_pos (by omega)]
      unfold Args.chunk
      rw [hz]
      exact congrArg _ (funext fun _ => (bind_pure (A.project head)).symm)
    · rw [if_neg hone, if_neg (by omega),
        assert_bind (show head + (tail - head) / 2 - head > 0 by omega),
        assert_bind (show tail - (head + (tail - head) / 2) > 0 by omega), ih (by omega),
        ih (by omega)]
      rfl

end equations

/-! ## What is returned -/

section correct

variable {T V : Type} {A : Args T V} {m : ℤ → T}

/-- The projections of the element at `i`. -/
def projections (i : ℤ) (es : List (Call T)) : List (Call T) := es.filter (Call.projects i)

/-- The record of a routine that projects the elements of `[head, tail)`, once each. -/
structure Once (m : ℤ → T) (head tail : ℤ) (es : List (Call T)) : Prop where
  inside : ∀ i, head ≤ i → i < tail → projections i es = [.proj i (m i)]
  outside : ∀ i, i < head ∨ tail ≤ i → projections i es = []
  enter : ∀ lo hi, .enter lo hi ∈ es → lo < hi

/-- An empty range has no projections. -/
theorem once_nil (head : ℤ) : Once m head head [] := by
  constructor
  · intro i h₁ h₂
    omega
  · intro i _
    rfl
  · intro lo hi h
    cases h

/-- The projection of one element. -/
theorem once_project (head : ℤ) : Once m head (head + 1) [.proj head (m head)] := by
  constructor
  · intro i h₁ h₂
    obtain rfl : i = head := by omega
    simp [projections, Call.projects]
  · intro i hi
    have hne : head ≠ i := by omega
    simp [projections, Call.projects, hne]
  · intro lo hi h
    simp at h

/-- Two neighbouring ranges are projected once if each of them is. -/
theorem Once.append {lo mid hi : ℤ} {es es' : List (Call T)} (h : Once m lo mid es)
    (h' : Once m mid hi es') (hle : lo ≤ mid) (hle' : mid ≤ hi) : Once m lo hi (es ++ es') := by
  constructor
  · intro i h₁ h₂
    unfold projections
    rw [List.filter_append]
    by_cases hi : i < mid
    · exact congrArg₂ _ (h.inside i h₁ hi) (h'.outside i (Or.inl hi))
    · exact congrArg₂ _ (h.outside i (Or.inr (by omega))) (h'.inside i (by omega) h₂)
  · intro i hi
    unfold projections
    rw [List.filter_append]
    exact congrArg₂ _ (h.outside i (by omega)) (h'.outside i (by omega))
  · intro b e hmem
    rcases List.mem_append.mp hmem with hmem | hmem
    · exact h.enter b e hmem
    · exact h'.enter b e hmem

/-- What a call of the recursion records is no projection. -/
theorem Once.note {lo hi : ℤ} {es : List (Call T)} (h : Once m lo hi es) (hlt : lo < hi) :
    Once m lo hi (note lo hi ++ es) := by
  constructor
  · exact h.inside
  · exact h.outside
  · intro b e hmem
    rcases List.mem_cons.mp hmem with heq | hmem
    · cases heq
      exact hlt
    · exact h.enter b e hmem

variable (A)

/-- The projected input. -/
def Args.projected (m : ℤ → T) (i : ℤ) : V := A.proj (m i)

/-- What a fold of `[lo, hi)` leaves. -/
structure Folded (lo hi : ℤ) (m : ℤ → T) (o : Outcome (Call T) V) (m' : ℤ → T) : Prop where
  value : o.value = some (reduce A.bop (A.projected m) lo hi)
  once : Once m lo hi o.calls
  mem : m' = m

variable {A}

/-- A projection reads its element and returns. -/
theorem run_project (head : ℤ) (m : ℤ → T) :
    run (A.project head).prog m =
      some (⟨some (A.projected m head), [.proj head (m head)]⟩, m) :=
  run_bind_some (run_lift (run_load m head)) (run_call _ _ m)

/-- The loop goes on with the reduction up to `head`. -/
theorem run_foldLoop {b head : ℤ} (hb : b < head) (k : ℕ) :
    ∃ es, run (A.foldLoop k head (reduce A.bop (A.projected m) b head)).prog m =
      some (⟨some (reduce A.bop (A.projected m) b (head + k)), es⟩, m) ∧
      Once m head (head + k) es := by
  induction k generalizing head with
  | zero =>
    refine ⟨[], ?_, ?_⟩
    · simp [Args.foldLoop]
    · simpa using once_nil head
  | succ k ih =>
    obtain ⟨es, hrun, honce⟩ := ih (show b < head + 1 by omega)
    rw [reduce_succ A.bop _ hb] at hrun
    have hend : head + 1 + (k : ℤ) = head + (k + 1 : ℕ) := by
      push_cast
      omega
    rw [hend] at hrun honce
    exact ⟨_, run_bind_some (run_project head m) hrun,
      (once_project head).append honce (by omega) (by omega)⟩

/-- It reads no other cell. -/
theorem within_project {rd wr : Set ℤ} {head : ℤ} (h : head ∈ rd) :
    Within rd wr (A.project head) := by
  apply Within.bind (within_lift (safe_load h))
  intro x
  exact within_call _ _

/-- The loop reads the cells of its chunk. -/
theorem within_foldLoop {rd wr : Set ℤ} {k : ℕ} {head : ℤ} {lhs : V}
    (h : ∀ i, head ≤ i → i < head + k → i ∈ rd) : Within rd wr (A.foldLoop k head lhs) := by
  induction k generalizing head lhs with
  | zero => exact within_pure lhs
  | succ k ih =>
    apply Within.bind (within_project (h head le_rfl (by omega)))
    intro x
    apply ih
    intro i h₁ h₂
    exact h i (by omega) (by push_cast; omega)

/-- The cells from `lo` up to `hi`. -/
def cells (lo hi : ℤ) : Set ℤ := {i | lo ≤ i ∧ i < hi}

/-- A chunk is folded. -/
theorem chunk_meets {lo hi : ℤ} (hlt : lo < hi) :
    Meets (A.chunk lo hi).prog (cells lo hi) ∅
      fun m o m' => Folded A lo hi m (o.after (note lo hi)) m' := by
  have hend : lo + 1 + ((hi - (lo + 1)).toNat : ℤ) = hi := by omega
  constructor
  · apply Within.bind (within_project (show lo ≤ lo ∧ lo < hi from ⟨le_rfl, hlt⟩))
    intro lhs
    apply within_foldLoop
    rintro i h₁ h₂
    exact (⟨by omega, by omega⟩ : lo ≤ i ∧ i < hi)
  · intro m
    obtain ⟨es, hrun, honce⟩ :=
      run_foldLoop (A := A) (m := m) (show lo < lo + 1 by omega) (hi - (lo + 1)).toNat
    rw [reduce_one, hend] at hrun
    rw [hend] at honce
    have honce' : Once m lo hi ([.proj lo (m lo)] ++ es) :=
      (once_project lo).append honce (by omega) (by omega)
    exact ⟨_, m, run_bind_some (run_project lo m) hrun, rfl, honce'.note hlt, rfl⟩

/-- The halves of a range have cells of their own, and write none. -/
theorem splits_cells (n : ℤ) : Splits n cells fun _ _ => ∅ := by
  constructor
  · intro lo mid hi h₁ h₂
    refine ⟨?_, by simp⟩
    rintro a (⟨h₃, h₄⟩ | ⟨h₃, h₄⟩) <;> exact ⟨by omega, by omega⟩
  · intro lo mid hi h₁ h₂ a ha
    exact ha.elim
  · intro lo mid hi h₁ h₂ a ha
    exact ha.elim

/-- The recursion folds its range. -/
theorem divide_folded [Std.Associative A.bop] {n : ℤ} (hn : 1 ≤ n) {fuel : ℕ} {lo hi : ℤ}
    (hlt : lo < hi) (hfuel : hi - lo ≤ fuel) :
    Meets (divide n note A.chunk A.bop fuel lo hi).prog (cells lo hi) ∅ (Folded A lo hi) := by
  refine divide_meets hn (splits_cells n) (fun lo hi h _ => chunk_meets h) ?_ hlt hfuel
  rintro lo mid hi m o₁ m₁ o₂ m₂ hlen rfl ⟨hv₁, honce₁, rfl⟩ - ⟨hv₂, honce₂, rfl⟩ -
  have hm : lo < lo + (hi - lo) / 2 ∧ lo + (hi - lo) / 2 < hi := by omega
  constructor
  · change (o₁.value.bind fun x => o₂.value.map fun y => A.bop x y) = _
    rw [hv₁, hv₂, ← reduce_append A.bop (A.projected _) hm.1 (show _ + 1 ≤ hi by omega)]
    rfl
  · exact (honce₁.append honce₂ (by omega) (by omega)).note (by omega)
  · rfl

/-- What an overload leaves. -/
structure Returned (A : Args T V) (head tail : ℤ) (m : ℤ → T) (o : Outcome (Call T) (Option V))
    (m' : ℤ → T) :
    Prop where
  value : o.value = some (if head = tail then none
    else some (reduce A.bop (A.projected m) head tail))
  once : Once m head tail o.calls
  mem : m' = m

variable {head tail : ℤ}

/-- An empty range has no result. -/
theorem empty_meets (head : ℤ) :
    Meets (pure none : Routine ℤ T (Call T) (Option V)).prog (cells head head) ∅
      (Returned A head head) := by
  constructor
  · exact within_pure none
  · intro m
    refine ⟨_, m, run_pure none m, ?_, once_nil head, rfl⟩
    rw [if_pos rfl]

/-- A range that is not empty has the fold for its result. -/
theorem some_meets (hne : head ≠ tail) {t : Routine ℤ T (Call T) V}
    (h : Meets t.prog (cells head tail) ∅ (Folded A head tail)) :
    Meets (t >>= fun acc => pure (some acc)).prog (cells head tail) ∅ (Returned A head tail) := by
  constructor
  · exact Within.bind h.safe fun acc => within_pure (some acc)
  · intro m
    obtain ⟨⟨value, calls⟩, m', hrun, hvalue, honce, rfl⟩ := h.run m
    obtain rfl : value = _ := hvalue
    refine ⟨_, _, run_bind_some hrun (run_pure _ _), ?_, ?_, rfl⟩
    · rw [if_neg hne]
    · rw [List.append_nil]
      exact honce

/-- Every overload returns what it should. -/
theorem fold_meets [Std.Associative A.bop] (o : Overload) (ho : 1 ≤ o.chunk) (hle : head ≤ tail) :
    Meets (A.fold head tail o).prog (cells head tail) ∅ (Returned A head tail) := by
  by_cases hempty : head = tail
  · subst hempty
    have hfold : A.fold head head o = pure none := by
      cases o <;> exact if_pos rfl
    rw [hfold]
    exact empty_meets head
  · have hlt : head < tail := by omega
    have hone : Meets (A.foldOne (tail - head).toNat head tail).prog (cells head tail) ∅
        (Folded A head tail) := by
      rw [foldOne_eq A hlt]
      exact divide_folded le_rfl hlt (by omega)
    have hchunked : ∀ n, 1 ≤ n → n ≠ 1 → Meets (A.foldChunked n (tail - head).toNat head tail).prog
        (cells head tail) ∅ (Folded A head tail) := by
      intro n hn hne
      rw [foldChunked_eq A (by omega) hlt]
      exact divide_folded hn hlt (by omega)
    cases o with
    | iter =>
      change Meets (A.foldIter head tail).prog _ _ _
      unfold Args.foldIter
      rw [if_neg hempty]
      exact some_meets hempty hone
    | iterChunk n =>
      change Meets (A.foldIterChunk head tail n).prog _ _ _
      unfold Args.foldIterChunk
      rw [if_neg hempty]
      split_ifs with hn
      · exact some_meets hempty hone
      · exact some_meets hempty (hchunked n ho hn)
    | range =>
      change Meets (A.foldRange ⟨head, tail⟩).prog _ _ _
      unfold Args.foldRange
      rw [if_neg hempty]
      exact some_meets hempty hone
    | rangeChunk n =>
      change Meets (A.foldRangeChunk ⟨head, tail⟩ n).prog _ _ _
      unfold Args.foldRangeChunk
      rw [if_neg hempty]
      split_ifs with hn
      · exact some_meets hempty hone
      · exact some_meets hempty (hchunked n ho hn)

end correct

/-- **The parallel fold is the left fold.** Every interleaving of every overload can be completed,
so that no assertion fails. When it has returned, the result is `nullopt` if the range is empty
and the left fold of the projected input otherwise; every element was projected once, no other
was, and the recursion was never called on an empty range. -/
theorem fold_correct {T V : Type} (A : Args T V) [Std.Associative A.bop] (o : Overload)
    (ho : 1 ≤ o.chunk) (head tail : ℤ) (hle : head ≤ tail) (m : ℤ → T) :
    (∀ p m', Steps (A.fold head tail o).prog m p m' → ∃ out m'', Steps p m' (ret out) m'') ∧
    ∀ out m', Steps (A.fold head tail o).prog m (ret out) m' →
      out.value = some (if head = tail then none
        else some (reduce A.bop (fun i => A.proj (m i)) head tail)) ∧
      (∀ i, projections i out.calls = if head ≤ i ∧ i < tail then [.proj i (m i)] else []) ∧
      (∀ lo hi, .enter lo hi ∈ out.calls → lo < hi) ∧ m' = m := by
  have hmeets := fold_meets (A := A) o ho hle
  constructor
  · intro p m' hs
    exact hmeets.complete hs
  · intro out m' hs
    obtain ⟨⟨hvalue, honce, hmem⟩, -⟩ := hmeets.result hs
    refine ⟨hvalue, ?_, honce.enter, hmem⟩
    intro i
    split_ifs with hi
    · exact honce.inside i hi.1 hi.2
    · exact honce.outside i (by omega)

/-- Concatenation, which does not commute. -/
def concatArgs : Args ℕ (List ℕ) where
  bop := (· ++ ·)
  proj x := [x]

instance : Std.Associative concatArgs.bop := ⟨List.append_assoc⟩

/-- Three elements in chunks of two. -/
theorem fold_correct_concat : ∃ out m', Steps (concatArgs.fold 0 3 (.rangeChunk 2)).prog Int.toNat
    (ret out) m' ∧ out.value = some (some [0, 1, 2]) := by
  obtain ⟨hcomplete, hresult⟩ :=
    fold_correct concatArgs (.rangeChunk 2) (by decide) 0 3 (by decide) Int.toNat
  obtain ⟨out, m', hs⟩ := hcomplete _ _ .refl
  exact ⟨out, m', hs, (hresult out m' hs).1⟩

end Libfork.Algorithm.Fold
