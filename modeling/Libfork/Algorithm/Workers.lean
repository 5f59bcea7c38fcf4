import Libfork.Algorithm.Fold
import Libfork.Algorithm.ForEach
import Libfork.Found.Work
import Libfork.Runtime.Space

/-!
# The algorithms on the workers

The fold, the map and `for_each` as programs that any number of workers run.

* `Completes` — the workers take few steps, and when they are done the root has returned what it
  should; `completes_of_run`.
* `fold_costs`, `map_costs`, `forEach_costs` — the work of an overload is linear in the length of
  the range, for every chunk size.
* **`fold_of_run`**, **`visits_of_run`** — the workers compute the left fold, and visit every
  position once, in linear work.
* **`frames_of_overload`** — each worker needs as many frames as the range can be halved.

Source: as in the models of the algorithms and of the workers.
-/

namespace Libfork.Algorithm

open Libfork.Found Prog Routine
open Libfork.Runtime (Tree Loaded)

/-! ## Programs that meet a specification -/

section completes

variable {A V R : Type} [DecidableEq A] {tree : Tree} {r : ℕ} {as : List Loaded.Act}
  {σ : Loaded A V R}

/-- After the actions `as` the workers stand at `σ`. The sequential run takes `c` steps, and what it
returns and leaves in the memory satisfies `post`. -/
structure Completes (tree : Tree) (c : ℕ) (post : R → (A → V) → Prop) (as : List Loaded.Act)
    (σ : Loaded A V R) : Prop where
  /-- A handle comes from the outside, or goes there, for four steps. -/
  steps : as.length ≤ 30 * (c + 1) + 4 * as.countP Loaded.Act.external
  result : ∀ x, σ.code.returned = some x → post x σ.mem
  /-- Where no worker has a step left, and the outside has no handle, the root has returned. -/
  returns : (∀ a : Loaded.Act, a.external = false → (Loaded.machine tree).step σ a = none) →
    (∀ g, σ.workers.loc g ≠ .outside) → ∃ x, σ.code.returned = some x

/-- **A program that meets its specification meets it on the workers.** -/
theorem completes_of_run {p : Prog A V R} {rd wr : Set A} {post : (A → V) → R → (A → V) → Prop}
    {m : A → V} {c : ℕ} (htree : tree.Ample) (hr : tree.tag r = .root) (hp : Meets p rd wr post)
    (hc : cost p m ≤ c + 1) (h : (Loaded.machine tree).Run Machine.free (Loaded.init r p m) as σ) :
    Completes tree c (fun x m' => post m x m' ∧ ∀ a, a ∉ wr → m' a = m a) as σ := by
  constructor
  case steps =>
    have hlength := Loaded.length_of_run hr hp.safe h
    omega
  case result =>
    intro x hx
    exact hp.result (Loaded.steps_of_returned hr h hx)
  case returns =>
    intro hstuck hout
    exact Loaded.returned_of_run htree hr hp.safe h hstuck hout

/-- A weaker postcondition is satisfied as well. -/
theorem Completes.mono {c : ℕ} {post post' : R → (A → V) → Prop}
    (h : Completes tree c post as σ) (hpost : ∀ x m', post x m' → post' x m') :
    Completes tree c post' as σ :=
  ⟨h.steps, fun x hx => hpost x _ (h.result x hx), h.returns⟩

end completes

/-! ## The work of the overloads -/

namespace Fold

variable {T V : Type} {A : Args T V} {head tail : ℤ}

/-- A projection takes one step. -/
theorem project_costs (head : ℤ) : Costs 1 (A.project head) :=
  (costs_load head).bind fun _ => costs_call _ _

/-- The loop takes one step for each element. -/
theorem foldLoop_costs (k : ℕ) (head : ℤ) (lhs : V) : Costs k (A.foldLoop k head lhs) := by
  induction k generalizing head lhs with
  | zero => exact costs_pure lhs
  | succ k ih =>
    refine ((project_costs head).bind fun x => ih (head + 1) _).mono ?_
    rw [Nat.add_comm]

/-- So does a chunk. -/
theorem chunk_costs (hlt : head < tail) : Costs (1 * (tail - head).toNat) (A.chunk head tail) :=
  ((project_costs head).bind fun _ => foldLoop_costs _ _ _).mono (by omega)

/-- An overload on a range that is not empty. -/
theorem fold_eq (o : Overload) (ho : 1 ≤ o.chunk) (hlt : head < tail) :
    A.fold head tail o = (divide o.chunk note A.chunk A.bop (tail - head).toNat head tail >>=
      fun acc => pure (some acc)) := by
  have hne : head ≠ tail := by omega
  have hone : A.foldOne (tail - head).toNat head tail =
      divide 1 note A.chunk A.bop (tail - head).toNat head tail := foldOne_eq A hlt
  cases o with
  | iter =>
    change A.foldIter head tail = _
    unfold Args.foldIter
    rw [if_neg hne, hone]
    rfl
  | iterChunk n =>
    change A.foldIterChunk head tail n = _
    unfold Args.foldIterChunk
    rw [if_neg hne]
    split_ifs with hn
    · subst hn
      rw [hone]
      rfl
    · have hn' : 1 ≤ n := ho
      rw [foldChunked_eq A (by omega) hlt]
      rfl
  | range =>
    change A.foldRange ⟨head, tail⟩ = _
    unfold Args.foldRange
    rw [if_neg hne, hone]
    rfl
  | rangeChunk n =>
    change A.foldRangeChunk ⟨head, tail⟩ n = _
    unfold Args.foldRangeChunk
    rw [if_neg hne]
    split_ifs with hn
    · subst hn
      rw [hone]
      rfl
    · have hn' : 1 ≤ n := ho
      rw [foldChunked_eq A (by omega) hlt]
      rfl

/-- The work of a fold. -/
theorem fold_costs (o : Overload) (ho : 1 ≤ o.chunk) (hle : head ≤ tail) :
    Costs (4 * (tail - head).toNat) (A.fold head tail o) := by
  obtain rfl | hlt : head = tail ∨ head < tail := by omega
  · have hfold : A.fold head head o = pure none := by
      cases o <;> exact if_pos rfl
    rw [hfold]
    exact (costs_pure none).mono (Nat.zero_le _)
  · rw [fold_eq o ho hlt]
    refine ((divide_costs ho (fun _ _ h => chunk_costs h) _ hlt).bind fun _ =>
      costs_pure _).mono ?_
    omega

end Fold

/-- An application takes no step on the memory. -/
theorem apply_costs {T P U A V : Type} [DecidableEq A] (c : Callee T P U) (i : ℤ) (x : T) :
    Costs 0 (c.apply i x : Routine A V (Call T P) U) :=
  (costs_call _ _).bind fun _ => costs_call _ _

namespace Map

variable {T P U : Type} {A : Args T P U} {head tail d : ℤ}

/-- A visit of `map` reads and writes. -/
theorem visit_costs (head out : ℤ) : Costs 2 (A.visit head out) := by
  have hfetch : Costs 1 (lift (A.input.fetch head) : Routine ℤ U (Call T P) T) := by
    intro m
    cases A.input with
    | apart xs => exact Nat.le_succ 1
    | inPlace elem => exact le_rfl
  exact hfetch.bind fun x => (apply_costs A.callee head x).bind fun y => costs_store out y

/-- An overload on a range that is not empty. -/
theorem map_eq (o : Overload) (ho : 1 ≤ o.chunk) (hlt : head < tail) :
    A.map head tail (head + d) o =
      (A.body d).sweep o.chunk (Args.depth head tail) head tail := by
  cases o with
  | iter => exact mapOne_eq A hlt
  | iterChunk n =>
    have hn : 1 ≤ n := ho
    exact mapChunked_eq A (by omega) hlt
  | range => exact mapOne_eq A hlt
  | rangeChunk n =>
    have hn : 1 ≤ n := ho
    change A.mapRangeChunk ⟨head, tail⟩ (head + d) n = _
    unfold Args.mapRangeChunk
    rw [assert_bind (show n > 0 by omega)]
    split_ifs with heq
    · subst heq
      exact mapOne_eq A hlt
    · exact mapChunked_eq A (by omega) hlt

/-- The work of a map. -/
theorem map_costs (o : Overload) (ho : 1 ≤ o.chunk) (hle : head ≤ tail) :
    Costs (5 * (tail - head).toNat) (A.map head tail (head + d) o) := by
  obtain rfl | hlt : head = tail ∨ head < tail := by omega
  · rw [map_empty o ho head]
    exact (costs_pure ()).mono (Nat.zero_le _)
  · rw [map_eq o ho hlt]
    exact (Body.sweep_costs ho (fun i => visit_costs i _) _ hlt).mono (Nat.sub_le _ _)

end Map

namespace ForEach

variable {T P U : Type} {c : Callee T P U} {head tail : ℤ}

/-- A visit of `for_each` reads. -/
theorem visit_costs (head : ℤ) : Costs 1 (visit c head) :=
  (costs_load head).bind fun x => (apply_costs c head x).bind fun _ => costs_pure ()

/-- An overload on a range that is not empty. -/
theorem forEach_eq (o : Overload) (ho : 1 ≤ o.chunk) (hlt : head < tail) :
    forEach c head tail o = (body c).sweep o.chunk (depth head tail) head tail := by
  cases o with
  | iter => exact forEachOne_eq c hlt
  | iterChunk n =>
    have hn : 1 ≤ n := ho
    exact forEachChunked_eq c (by omega) hlt
  | range => exact forEachOne_eq c hlt
  | rangeChunk n =>
    have hn : 1 ≤ n := ho
    change forEachRangeChunk c ⟨head, tail⟩ n = _
    unfold forEachRangeChunk
    rw [assert_bind (show n > 0 by omega)]
    split_ifs with heq
    · subst heq
      exact forEachOne_eq c hlt
    · exact forEachChunked_eq c (by omega) hlt

/-- The work of a `for_each`. -/
theorem forEach_costs (o : Overload) (ho : 1 ≤ o.chunk) (hle : head ≤ tail) :
    Costs (4 * (tail - head).toNat) (forEach c head tail o) := by
  obtain rfl | hlt : head = tail ∨ head < tail := by omega
  · rw [forEach_empty o ho head]
    exact (costs_pure ()).mono (Nat.zero_le _)
  · rw [forEach_eq o ho hlt]
    exact (Body.sweep_costs ho (fun i => visit_costs i) _ hlt).mono (Nat.sub_le _ _)

end ForEach

/-! ## The algorithms -/

section run

variable {tree : Tree} {r : ℕ}

/-- **The parallel fold on the workers.** However many there are, and however they steal: when the
root has returned, the result is the left fold of the projected input, every element was projected
once, and the memory is as before; and the workers come to that in a number of steps that is
linear in the length of the range, for every chunk size. -/
theorem fold_of_run {T V : Type} (A : Fold.Args T V) [Std.Associative A.bop] (o : Overload)
    (ho : 1 ≤ o.chunk) {head tail : ℤ} (hle : head ≤ tail) (htree : tree.Ample)
    (hr : tree.tag r = .root) {m : ℤ → T} {as : List Loaded.Act}
    {σ : Loaded ℤ T (Outcome (Fold.Call T) (Option V))}
    (h : (Loaded.machine tree).Run Machine.free (Loaded.init r (A.fold head tail o).prog m) as σ) :
    Completes tree (4 * (tail - head).toNat) (fun out m' =>
      out.value = some (if head = tail then none
        else some (reduce A.bop (fun i => A.proj (m i)) head tail)) ∧
      (∀ i, Fold.projections i out.calls =
        if head ≤ i ∧ i < tail then [.proj i (m i)] else []) ∧ m' = m) as σ := by
  have hmeets := Fold.fold_meets (A := A) o ho hle
  refine (completes_of_run htree hr hmeets (Fold.fold_costs o ho hle m) h).mono ?_
  rintro out m' ⟨⟨hvalue, honce, hmem⟩, -⟩
  refine ⟨hvalue, fun i => ?_, hmem⟩
  split_ifs with hi
  · exact honce.inside i hi.1 hi.2
  · exact honce.outside i (by omega)

/-- Two elements; the root is stolen after its fork, and the left branch goes on with it. -/
theorem fold_of_run_concat : ∃ σ, (Loaded.machine .ruler).Run Machine.free
    (Loaded.init 0 (Fold.concatArgs.fold 0 2 .iter).prog Int.toNat) Loaded.addRun σ ∧
      ∃ out, σ.code.returned = some out ∧ out.value = some (some [0, 1]) := by
  have hexec : ((Loaded.machine .ruler).exec Machine.free (Loaded.init 0
      (Fold.concatArgs.fold 0 2 .iter).prog Int.toNat) Loaded.addRun).map
      (·.code.returned.isSome) = some true := by decide +kernel
  obtain ⟨σ, hσ, hreturned⟩ := Option.map_eq_some_iff.mp hexec
  obtain ⟨out, hout⟩ := Option.isSome_iff_exists.mp hreturned
  have hrun := Machine.run_iff_exec.mpr hσ
  have hcompletes := fold_of_run Fold.concatArgs .iter (by decide) (by decide)
    Runtime.Tree.ruler_ample rfl hrun
  exact ⟨σ, hrun, out, hout, (hcompletes.result out hout).1⟩

/-- **`map` and `for_each` on the workers.** When the root has returned or thrown, a position was
visited unless an earlier one of its chunk throws, and the outputs are those of the visits; and
the workers come to that in a number of steps that is linear in the length of the range. -/
theorem visits_of_run {T P U : Type} (c : Callee T P U) (o : Overload) (ho : 1 ≤ o.chunk)
    {head tail : ℤ} (hle : head ≤ tail) (htree : tree.Ample) (hr : tree.tag r = .root) :
    (∀ (input : Map.Input T U) (out : ℤ), input.Aligned (out - head) →
      ∀ (m : ℤ → U) (as : List Loaded.Act) (σ : Loaded ℤ U (Outcome (Call T P) Unit)),
        (Loaded.machine tree).Run Machine.free
          (Loaded.init r ((Map.Args.mk input c).map head tail out o).prog m) as σ →
        Completes tree (5 * (tail - head).toNat) (fun x m' =>
          Visits c o.chunk head tail (input.value m) x ∧
            Map.Written ⟨input, c⟩ o.chunk head tail out m m') as σ) ∧
    ∀ (m : ℤ → T) (as : List Loaded.Act) (σ : Loaded ℤ T (Outcome (Call T P) Unit)),
      (Loaded.machine tree).Run Machine.free
        (Loaded.init r (ForEach.forEach c head tail o).prog m) as σ →
      Completes tree (4 * (tail - head).toNat) (fun x _ => Visits c o.chunk head tail m x)
        as σ := by
  constructor
  · intro input out hout m as σ h
    obtain ⟨d, rfl⟩ : ∃ d, out = head + d := ⟨out - head, by omega⟩
    rw [show head + d - head = d by omega] at hout
    have hmeets := Map.map_meets (A := ⟨input, c⟩) hout o ho hle
    refine (completes_of_run htree hr hmeets (Map.map_costs o ho hle m) h).mono ?_
    rintro x m' ⟨hswept, hframe⟩
    exact ⟨visits_of_swept ho rfl (fun _ => rfl) hswept, Map.written_of_swept ho hswept hframe⟩
  · intro m as σ h
    have hmeets := ForEach.forEach_meets c o ho hle
    refine (completes_of_run htree hr hmeets (ForEach.forEach_costs o ho hle m) h).mono ?_
    rintro x m' ⟨hswept, -⟩
    exact visits_of_swept ho rfl (fun _ => rfl) hswept

/-- The right branch writes before the left one. -/
def squareRun : List Loaded.Act :=
  [.act (.schedule 0 0), .act (.popAll 0), .act (.resume 0), .act (.fork 0 1), .act (.steal 1 0),
    .act (.step 1), .act (.step 1), .act (.call 1 3), .access 0, .access 1, .access 1, .access 0,
    .act (.ret 1), .act (.join 1), .act (.step 1), .act (.step 1), .act (.step 1), .act (.ret 0),
    .act (.step 0), .act (.step 0), .collect 0, .act (.ret 0)]

/-- Two squares, in place. -/
theorem visits_of_run_square : ∃ σ, (Loaded.machine .ruler).Run Machine.free (Loaded.init 0
    ((Map.Args.mk (.inPlace id) squareCallee).map 0 2 0 .iter).prog fun i => i.toNat + 2) squareRun
    σ ∧ (∃ x, σ.code.returned = some x ∧ x.value = some ()) ∧ σ.mem 0 = 4 ∧ σ.mem 1 = 9 := by
  have hexec : ((Loaded.machine .ruler).exec Machine.free (Loaded.init 0
      ((Map.Args.mk (.inPlace id) squareCallee).map 0 2 0 .iter).prog fun i => i.toNat + 2)
      squareRun).map (·.code.returned.isSome) = some true := by decide +kernel
  obtain ⟨σ, hσ, hreturned⟩ := Option.map_eq_some_iff.mp hexec
  obtain ⟨x, hx⟩ := Option.isSome_iff_exists.mp hreturned
  have hrun := Machine.run_iff_exec.mpr hσ
  obtain ⟨hmap, -⟩ := visits_of_run squareCallee .iter (by decide) (show (0 : ℤ) ≤ 2 by decide)
    Runtime.Tree.ruler_ample (show Tree.ruler.tag 0 = .root from rfl)
  obtain ⟨hvisits, hwritten⟩ := (hmap (.inPlace id) 0 rfl _ _ σ hrun).result x hx
  have hclear : ∀ i : ℤ, 0 ≤ i → i < 2 → squareCallee.throws i = false := by
    intro i _ hi
    simp [squareCallee, Callee.throws]
    omega
  exact ⟨σ, hrun, ⟨x, hx, (hvisits.returned hclear).1⟩,
    hwritten.returned hclear 0 (by decide) (by decide),
    hwritten.returned hclear 1 (by decide) (by decide)⟩

end run

/-! ## The frames -/

namespace Fold

variable {T V : Type} {A : Args T V} {head tail : ℤ} {k : ℕ}

/-- The loop forks nothing. -/
theorem foldLoop_nests (n : ℕ) (head : ℤ) (lhs : V) : (A.foldLoop n head lhs).prog.Nests k := by
  induction n generalizing head lhs with
  | zero => trivial
  | succ n ih => exact nests_bind (nests_bind (fun _ => trivial) fun _ => trivial) fun _ => ih _ _

/-- A range of `2 ^ k` chunks is folded by branches that nest at most `k` deep. -/
theorem fold_nests (o : Overload) (ho : 1 ≤ o.chunk) (hle : head ≤ tail)
    (hlen : tail - head ≤ o.chunk * 2 ^ k) : (A.fold head tail o).prog.Nests k := by
  obtain rfl | hlt : head = tail ∨ head < tail := by omega
  · have hfold : A.fold head head o = pure none := by
      cases o <;> exact if_pos rfl
    rw [hfold]
    trivial
  · rw [fold_eq o ho hlt]
    refine nests_bind (divide_nests (fun lo hi n => ?_) _ hlen) fun _ => trivial
    exact nests_bind (nests_bind (fun _ => trivial) fun _ => trivial) fun _ => foldLoop_nests _ _ _

end Fold

/-- An application forks nothing. -/
theorem apply_nests {T P U A V : Type} {k : ℕ} (c : Callee T P U) (i : ℤ) (x : T) :
    (c.apply i x : Routine A V (Call T P) U).prog.Nests k :=
  nests_bind trivial fun _ => trivial

/-- A range of `2 ^ k` chunks is mapped by branches that nest at most `k` deep. -/
theorem map_nests {T P U : Type} {A : Map.Args T P U} {head tail d : ℤ} {k : ℕ} (o : Overload)
    (ho : 1 ≤ o.chunk) (hle : head ≤ tail) (hlen : tail - head ≤ o.chunk * 2 ^ k) :
    (A.map head tail (head + d) o).prog.Nests k := by
  obtain rfl | hlt : head = tail ∨ head < tail := by omega
  · rw [Map.map_empty o ho head]
    trivial
  · rw [Map.map_eq o ho hlt]
    refine Body.sweep_nests (fun i n => ?_) _ hlen
    have hfetch : (lift (A.input.fetch i) : Routine ℤ U (Call T P) T).prog.Nests n := by
      cases A.input with
      | apart xs => trivial
      | inPlace elem => exact fun _ => trivial
    exact nests_bind hfetch fun x => nests_bind (apply_nests A.callee i x) fun _ => trivial

/-- So it is visited by `for_each`. -/
theorem forEach_nests {T P U : Type} {c : Callee T P U} {head tail : ℤ} {k : ℕ} (o : Overload)
    (ho : 1 ≤ o.chunk) (hle : head ≤ tail) (hlen : tail - head ≤ o.chunk * 2 ^ k) :
    (ForEach.forEach c head tail o).prog.Nests k := by
  obtain rfl | hlt : head = tail ∨ head < tail := by omega
  · rw [ForEach.forEach_empty o ho head]
    trivial
  · rw [ForEach.forEach_eq o ho hlt]
    refine Body.sweep_nests (fun i n => ?_) _ hlen
    exact nests_bind (fun _ => trivial) fun x => nests_bind (apply_nests c i x) fun _ => trivial

/-- For each worker in a `resume`, and for each handle on its way, there are at most `k + 1`
frames. -/
def FewFrames {A V R : Type} (k : ℕ) (σ : Loaded A V R) : Prop :=
  ∀ F W H : Finset ℕ, (∀ f ∈ F, (σ.workers.loc f).ended = false) →
    (∀ w, σ.workers.pc w ≠ .idle → w ∈ W) → (∀ g, (σ.workers.loc g).inTransit = true → g ∈ H) →
    F.card ≤ (W.card + H.card) * (k + 1)

/-- A program whose branches nest at most `k` deep needs few frames. -/
theorem fewFrames_of_run {A V R : Type} [DecidableEq A] {p : Prog A V R} {m : A → V} {k r : ℕ}
    {tree : Tree} {as : List Loaded.Act} {σ : Loaded A V R} (hr : tree.tag r = .root)
    (hp : p.Nests k) (h : (Loaded.machine tree).Run Machine.free (Loaded.init r p m) as σ) :
    FewFrames k σ := fun _ _ _ hF hW hH =>
  (Loaded.follows_of_run hr h).inv.card_le (Loaded.bounded_of_run h) hF hW hH fun _ =>
    Loaded.depth_of_run hr hp h

/-- **The algorithms need few frames.** If the range is of `2 ^ k` chunks at most, each worker needs
`k + 1` frames of the recursion, whatever the workers steal. Where an overload awaits the recursion
by `just`, its own frame comes on top, as do the frames of what a leaf awaits. -/
theorem frames_of_overload {T V T' P U : Type} (A : Fold.Args T V) (c : Callee T' P U)
    (o : Overload) (ho : 1 ≤ o.chunk) {head tail : ℤ} (hle : head ≤ tail) {k : ℕ}
    (hlen : tail - head ≤ o.chunk * 2 ^ k) {tree : Tree} {r : ℕ} (hr : tree.tag r = .root) :
    (∀ m as σ, (Loaded.machine tree).Run Machine.free
      (Loaded.init r (A.fold head tail o).prog m) as σ → FewFrames k σ) ∧
    (∀ (input : Map.Input T' U) (out : ℤ), ∀ m as σ, (Loaded.machine tree).Run Machine.free
      (Loaded.init r ((Map.Args.mk input c).map head tail out o).prog m) as σ → FewFrames k σ) ∧
    ∀ m as σ, (Loaded.machine tree).Run Machine.free
      (Loaded.init r (ForEach.forEach c head tail o).prog m) as σ → FewFrames k σ := by
  refine ⟨fun m as σ h => ?_, fun input out m as σ h => ?_, fun m as σ h => ?_⟩
  · exact fewFrames_of_run hr (Fold.fold_nests o ho hle hlen) h
  · obtain ⟨d, rfl⟩ : ∃ d, out = head + d := ⟨out - head, by omega⟩
    exact fewFrames_of_run hr (map_nests o ho hle hlen) h
  · exact fewFrames_of_run hr (forEach_nests o ho hle hlen) h

/-- The root and the right branch of the fold of two elements, which two workers ran. -/
theorem frames_of_overload_concat : ∃ σ, (Loaded.machine .ruler).Run Machine.free
    (Loaded.init 0 (Fold.concatArgs.fold 0 2 .iter).prog Int.toNat) Loaded.addRun σ ∧
      FewFrames 1 σ := by
  have hexec : ((Loaded.machine .ruler).exec Machine.free (Loaded.init 0
      (Fold.concatArgs.fold 0 2 .iter).prog Int.toNat) Loaded.addRun).isSome = true := by
    decide +kernel
  obtain ⟨σ, hσ⟩ := Option.isSome_iff_exists.mp hexec
  have hrun := Machine.run_iff_exec.mpr hσ
  exact ⟨σ, hrun, (frames_of_overload Fold.concatArgs squareCallee .iter (by decide) (by decide)
    (by decide) rfl).1 _ _ σ hrun⟩

end Libfork.Algorithm
