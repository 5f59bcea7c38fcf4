import Libfork.Numa.Model
import Mathlib.Data.List.Basic

/-!
# The lists of neighbours partition the workers by distance

* `at?_build` — the matrix answers what it was built from.
* `keys` — the distances from one worker, ordered; `layer` — the workers at one of them.
* **`neighborsOf_eq`** — the two loops of `distribute` leave the worker's own list followed by one
  layer for each distance.
* **`partitioned_distribute`** — the lists of every node partition the workers by distance, and
  without hwloc they are those of a constant distance.
-/

namespace Libfork.Numa

open Found

variable {H α : Type}

/-! ### The matrix -/

namespace DistanceMatrix

variable {n : ℕ} (d : ℕ → ℕ → ℤ)

/-- Writing a row keeps the length. -/
@[simp] theorem length_row (i m : ℕ) (M : List ℤ) :
    ((List.range m).foldl (setEntry n d i) M).length = M.length := by
  induction m with
  | zero => rfl
  | succ m ih => simp [List.range_succ, setEntry, ih]

/-- It writes the entries of the row, and no others. -/
theorem getElem?_row (i m : ℕ) {M : List ℤ} (hM : i * n + m ≤ M.length) (k : ℕ) :
    ((List.range m).foldl (setEntry n d i) M)[k]? =
      if i * n ≤ k ∧ k < i * n + m then some (d i (k - i * n)) else M[k]? := by
  induction m with
  | zero =>
    rw [if_neg (by omega)]
    rfl
  | succ m ih =>
    rw [List.range_succ, List.foldl_append, List.foldl_cons, List.foldl_nil, setEntry,
      List.getElem?_set, ih (by omega), length_row]
    by_cases hk : i * n + m = k
    · subst hk
      rw [if_pos rfl, if_pos (by omega), if_pos (by omega), Nat.add_sub_cancel_left]
    · rw [if_neg hk]
      by_cases hin : i * n ≤ k ∧ k < i * n + m
      · rw [if_pos hin, if_pos (by omega)]
      · rw [if_neg hin, if_neg (by omega)]

/-- Writing the rows keeps the length. -/
@[simp] theorem length_rows (m : ℕ) (M : List ℤ) :
    ((List.range m).foldl (setRow n d) M).length = M.length := by
  induction m with
  | zero => rfl
  | succ m ih => simp [List.range_succ, setRow, ih]

/-- Every entry of the matrix is its distance. -/
theorem getElem?_rows (m : ℕ) {M : List ℤ} (hM : m * n ≤ M.length) {i j : ℕ} (hi : i < m)
    (hj : j < n) : ((List.range m).foldl (setRow n d) M)[i * n + j]? = some (d i j) := by
  induction m with
  | zero => omega
  | succ m ih =>
    have hrow : (m + 1) * n = m * n + n := Nat.succ_mul m n
    rw [List.range_succ, List.foldl_append, List.foldl_cons, List.foldl_nil, setRow,
      getElem?_row d m n (by rw [length_rows]; omega)]
    rcases Nat.lt_or_eq_of_le (Nat.le_of_lt_succ hi) with hlt | rfl
    · have hbelow : (i + 1) * n ≤ m * n := Nat.mul_le_mul_right n hlt
      rw [Nat.succ_mul] at hbelow
      rw [if_neg (by omega), ih (by omega) hlt]
    · rw [if_pos (by omega), Nat.add_sub_cancel_left]

/-- **The matrix answers what it was built from.** -/
theorem at?_build {i j : ℕ} (hi : i < n) (hj : j < n) : (build n d).at? i j = some (d i j) :=
  getElem?_rows d n (by simp) hi hj

end DistanceMatrix

/-! ### The distances from one worker -/

/-- The distances of the first `m` workers from `i`, itself apart. -/
def keys (d : ℕ → ℕ → ℤ) (i m : ℕ) : List ℤ :=
  (List.range m).foldl (fun s j => if i ≠ j then insertKey (d i j) s else s) []

variable {d : ℕ → ℕ → ℤ} {n i : ℕ}

/-- The keys, with one more core looked at. -/
theorem keys_succ (m : ℕ) :
    keys d i (m + 1) = if i ≠ m then insertKey (d i m) (keys d i m) else keys d i m := by
  simp [keys, List.range_succ]

/-- The keys are increasing. -/
theorem pairwise_keys (m : ℕ) : (keys d i m).Pairwise (· < ·) := by
  induction m with
  | zero => exact List.Pairwise.nil
  | succ m ih =>
    rw [keys_succ]
    split
    · exact pairwise_insertKey _ ih
    · exact ih

/-- So there are no two alike. -/
theorem nodup_keys (m : ℕ) : (keys d i m).Nodup :=
  (pairwise_keys m).imp fun h => ne_of_lt h

/-- The keys are the distances to the others. -/
theorem mem_keys {m : ℕ} {δ : ℤ} : δ ∈ keys d i m ↔ ∃ j < m, j ≠ i ∧ d i j = δ := by
  induction m with
  | zero => simp [keys]
  | succ m ih =>
    rw [keys_succ]
    constructor
    · intro h
      split at h
      · rename_i him
        rcases (mem_insertKey _ _ _).mp h with rfl | h
        · exact ⟨m, by omega, Ne.symm him, rfl⟩
        · obtain ⟨j, hj, hji, hd⟩ := ih.mp h
          exact ⟨j, by omega, hji, hd⟩
      · obtain ⟨j, hj, hji, hd⟩ := ih.mp h
        exact ⟨j, by omega, hji, hd⟩
    · rintro ⟨j, hj, hji, hd⟩
      rcases Nat.lt_or_eq_of_le (Nat.le_of_lt_succ hj) with hlt | rfl
      · have hmem := ih.mpr ⟨j, hlt, hji, hd⟩
        split
        · exact (mem_insertKey _ _ _).mpr (Or.inr hmem)
        · exact hmem
      · rw [if_pos (Ne.symm hji)]
        exact (mem_insertKey _ _ _).mpr (Or.inl hd.symm)

/-- The first loop collects the distances. -/
theorem foldlM_collect (hi : i < n) {m : ℕ} (hm : m ≤ n) :
    (List.range m).foldlM (collect (DistanceMatrix.build n d) i) [] = some (keys d i m) := by
  induction m with
  | zero => rfl
  | succ m ih =>
    rw [List.range_succ, List.foldlM_append, ih (by omega), keys_succ]
    change (List.foldlM _ (keys d i m) [m] : Option _) = _
    rw [List.foldlM_cons, collect]
    split
    · rw [DistanceMatrix.at?_build d hi (by omega)]
      rfl
    · rfl

/-! ### The lists of one worker -/

/-- Those of the first `m` workers that satisfy `p`. -/
def pick (data : List α) (p : ℕ → Bool) (m : ℕ) : List α :=
  ((List.range m).filter p).filterMap (data[·]?)

/-- The workers other than `i` at distance `δ` from it. -/
def layer (data : List α) (d : ℕ → ℕ → ℤ) (i m : ℕ) (δ : ℤ) : List α :=
  pick data (fun j => j ≠ i ∧ d i j = δ) m

variable {data : List α}

/-- Nothing is picked from nothing. -/
@[simp] theorem pick_zero (p : ℕ → Bool) : pick data p 0 = [] := rfl

/-- Each element is picked or left, in order. -/
theorem pick_succ (p : ℕ → Bool) {m : ℕ} {x : α} (hx : data[m]? = some x) :
    pick data p (m + 1) = if p m then pick data p m ++ [x] else pick data p m := by
  rw [pick, List.range_succ, List.filter_append, List.filterMap_append]
  by_cases hp : p m = true
  · simp [pick, hx, hp]
  · simp [pick, hp]

/-- What is picked satisfies the test. -/
theorem mem_pick {p : ℕ → Bool} {m : ℕ} {x : α} :
    x ∈ pick data p m ↔ ∃ j < m, p j = true ∧ data[j]? = some x := by
  simp [pick, and_assoc]

/-- The second loop fills the lists. -/
theorem foldlM_fill (hn : n = data.length) (hi : i < n) {m : ℕ} (hm : m ≤ n) :
    (List.range m).foldlM (fill data (DistanceMatrix.build n d) i (keys d i n))
        (List.replicate (1 + (keys d i n).length) []) =
      some (pick data (fun j => j = i) m :: (keys d i n).map (layer data d i m)) := by
  induction m with
  | zero =>
    have hnil : layer data d i 0 = fun _ => [] := rfl
    rw [Nat.add_comm, List.replicate_succ, hnil, List.map_const']
    rfl
  | succ m ih =>
    have hx : data[m]? = some data[m] := List.getElem?_eq_getElem (by omega)
    rw [List.range_succ, List.foldlM_append, ih (by omega)]
    change (List.foldlM _ _ [m] : Option _) = _
    rw [List.foldlM_cons, fill, hx]
    change ((if i = m then _ else _ : Option _) >>= fun ns => List.foldlM _ ns []) = _
    by_cases him : i = m
    · have hlayer : layer data d i (m + 1) = layer data d i m := by
        funext δ
        rw [layer, pick_succ _ hx]
        simp [him, layer]
      rw [if_pos him, hlayer, pick_succ _ hx, if_pos (by simp [him])]
      simp [pushBack]
    · have hmem : d i m ∈ keys d i n := mem_keys.mpr ⟨m, by omega, Ne.symm him, rfl⟩
      have hlayer : (keys d i n).map (layer data d i (m + 1)) = (keys d i n).map fun δ =>
          if δ = d i m then layer data d i m δ ++ [data[m]] else layer data d i m δ := by
        apply List.map_congr_left
        intro δ _
        rw [layer, pick_succ _ hx]
        simp [Ne.symm him, layer, eq_comm]
      have hpos : (keys d i n).idxOf (d i m) < (keys d i n).length :=
        List.idxOf_lt_length_of_mem hmem
      rw [if_neg him, DistanceMatrix.at?_build d hi (by omega), hlayer, pick_succ _ hx,
        if_neg (by simp [Ne.symm him]), ← modify_map_idxOf _ (· ++ [data[m]]) (nodup_keys n)]
      simp [pushBack, Nat.add_comm 1, hpos]

/-- A core picks itself first. -/
theorem pick_own (hn : n = data.length) (hi : i < n) {m : ℕ} (hm : m ≤ n) :
    pick data (fun j => j = i) m = if i < m then [data[i]] else [] := by
  induction m with
  | zero => rfl
  | succ m ih =>
    have hx : data[m]? = some data[m] := List.getElem?_eq_getElem (by omega)
    rw [pick_succ _ hx, ih (by omega)]
    rcases Nat.lt_trichotomy m i with h | rfl | h
    · rw [if_neg (by simp [Nat.ne_of_lt h]), if_neg (by omega), if_neg (by omega)]
    · rw [if_pos (by simp), if_neg (by omega), if_pos (by omega)]
      rfl
    · rw [if_neg (by simp [Nat.ne_of_gt h]), if_pos h, if_pos (by omega)]

/-- **What the two loops leave.** -/
theorem neighborsOf_eq (hn : n = data.length) (hi : i < n) :
    neighborsOf data (DistanceMatrix.build n d) n i =
      some ([data[i]] :: (keys d i n).map (layer data d i n)) := by
  have hown : pick data (fun j => j = i) n = [data[i]] := by
    rw [pick_own hn hi (Nat.le_refl n), if_pos hi]
  rw [neighborsOf, foldlM_collect hi (Nat.le_refl n)]
  change List.foldlM _ _ _ = _
  rw [foldlM_fill hn hi (Nat.le_refl n), hown]

/-! ### The partition -/

/-- What the lists of worker `i` should be: its own, and then the others by increasing distance,
each of them once. -/
def Partitioned (data : List α) (d : ℕ → ℕ → ℤ) (i : ℕ) (own : α)
    (neighbors : List (List α)) : Prop :=
  ∃ (rest : List (List α)) (ds : List ℤ), neighbors = [own] :: rest ∧ ds.Pairwise (· < ·) ∧
    List.Forall₂ (fun l δ => l ≠ [] ∧ ∀ x ∈ l, ∃ j, j ≠ i ∧ data[j]? = some x ∧ d i j = δ)
      rest ds ∧
    rest.flatten.Nodup ∧ ∀ x, x ∈ rest.flatten ↔ x ∈ data ∧ x ≠ own

/-- The layers together are the other workers. -/
theorem flatten_layers_perm :
    ((keys d i n).map (layer data d i n)).flatten.Perm (pick data (fun j => j ≠ i) n) := by
  have hlayer : layer data d i n = List.filterMap (data[·]?) ∘ fun δ =>
      ((List.range n).filter fun j => j ≠ i).filter fun j => d i j = δ := by
    funext δ
    rw [Function.comp, List.filter_filter, layer, pick]
    congr 2
    funext j
    simp [and_comm]
  have hkey : ∀ j ∈ (List.range n).filter (fun j => j ≠ i), d i j ∈ keys d i n := by
    intro j hj
    rw [List.mem_filter, List.mem_range] at hj
    exact mem_keys.mpr ⟨j, hj.1, by simpa using hj.2, rfl⟩
  rw [hlayer, ← List.map_map, ← List.filterMap_flatten]
  exact (flatten_filter_perm (d i) (nodup_keys n) _ hkey).filterMap _

/-- Nothing is picked twice. -/
theorem nodup_pick (hdata : data.Nodup) (p : ℕ → Bool) (m : ℕ) : (pick data p m).Nodup := by
  apply List.Nodup.filterMap ?_ (List.nodup_range.filter p)
  intro j k x hj hk
  rw [Option.mem_def] at hj hk
  obtain ⟨hlt, -⟩ := List.getElem?_eq_some_iff.mp hj
  exact (List.getElem?_inj hlt hdata).mp (hj.trans hk.symm)

/-- **The lists of one worker partition the workers by distance.** -/
theorem partitioned_layers (hdata : data.Nodup) (hn : n = data.length) (hi : i < n) :
    Partitioned data d i data[i] ([data[i]] :: (keys d i n).map (layer data d i n)) := by
  refine ⟨_, keys d i n, rfl, pairwise_keys n, ?_, ?_, ?_⟩
  · rw [List.forall₂_map_left_iff, List.forall₂_same]
    intro δ hδ
    obtain ⟨j, hj, hji, hd⟩ := mem_keys.mp hδ
    constructor
    · have hx : data[j]? = some data[j] := List.getElem?_eq_getElem (by omega)
      apply List.ne_nil_of_mem
      exact mem_pick.mpr ⟨j, hj, by simp [hji, hd], hx⟩
    · intro x hx
      obtain ⟨k, _, hk, hkx⟩ := mem_pick.mp hx
      simp only [ne_eq, decide_eq_true_eq] at hk
      exact ⟨k, hk.1, hkx, hk.2⟩
  · exact flatten_layers_perm.nodup_iff.mpr (nodup_pick hdata _ n)
  · intro x
    rw [flatten_layers_perm.mem_iff, mem_pick]
    have hown : data[i]? = some data[i] := List.getElem?_eq_getElem (by omega)
    constructor
    · rintro ⟨j, hj, hji, hx⟩
      refine ⟨List.mem_of_getElem? hx, ?_⟩
      rintro rfl
      rw [← hown] at hx
      have heq : i = j := (List.getElem?_inj (by omega) hdata).mp hx.symm
      simp [heq] at hji
    · rintro ⟨hx, hne⟩
      obtain ⟨j, hj⟩ := List.mem_iff_getElem?.mp hx
      obtain ⟨hlt, -⟩ := List.getElem?_eq_some_iff.mp hj
      refine ⟨j, by omega, ?_, hj⟩
      by_contra hji
      have hij : j = i := by simpa using hji
      rw [hij, hown] at hj
      exact hne (Option.some.inj hj).symm

/-- A loop over a vector in which no turn fails. -/
theorem mapM_eq_some {β γ : Type} {f : β → Option γ} {g : β → γ} {l : List β}
    (h : ∀ b ∈ l, f b = some (g b)) : l.mapM f = some (l.map g) := by
  induction l with
  | nil => rfl
  | cons b l ih =>
    rw [List.mapM_cons, h b List.mem_cons_self, ih fun c hc => h c (List.mem_cons_of_mem b hc)]
    rfl

/-- The node of each worker. -/
theorem distribute_eq (place : ℕ → ℕ → H) (hne : data ≠ []) :
    distribute place d data = some ((List.range data.length).map fun i =>
      ⟨place data.length i,
        pick data (fun j => j = i) data.length ::
          (keys d i data.length).map (layer data d i data.length)⟩) := by
  have hlen : ¬ data.length < 1 := by
    have hpos := List.length_pos_of_ne_nil hne
    omega
  have hzip : ((List.range data.length).map (place data.length)).zipIdx =
      (List.range data.length).map fun i => (place data.length i, i) := by
    apply List.ext_getElem
    · simp
    · intro i _ _
      simp
  rw [distribute, split, if_neg hlen]
  change (((List.range data.length).map (place data.length)).zipIdx.mapM _ : Option _) = _
  rw [hzip, List.mapM_map]
  apply mapM_eq_some
  intro i hi
  rw [List.mem_range] at hi
  have hown : pick data (fun j => j = i) data.length = [data[i]] := by
    rw [pick_own rfl hi (Nat.le_refl _), if_pos hi]
  simp [neighborsOf_eq rfl hi, hown]

/-! ### Without hwloc -/

section Plain

variable [DecidableEq α]

/-- The others, by value and by position. -/
theorem filter_take_eq_pick (hdata : data.Nodup) (hi : i < data.length) {m : ℕ}
    (hm : m ≤ data.length) :
    (data.take m).filter (fun x => x ≠ data[i]) = pick data (fun j => j ≠ i) m := by
  induction m with
  | zero => rfl
  | succ m ih =>
    have hx : data[m]? = some data[m] := List.getElem?_eq_getElem (by omega)
    have heq : data[m] = data[i] ↔ m = i := hdata.getElem_inj_iff
    rw [List.take_add_one, hx, List.filter_append, ih (by omega), pick_succ _ hx]
    by_cases h : m = i
    · simp [h]
    · simp [h, heq]

/-- The loop over the other objects. -/
theorem foldlM_fillPlain (own : α) (xs ys : List α) :
    ys.foldlM (fillPlain own) [[own], xs] = some [[own], xs ++ ys.filter (fun x => x ≠ own)] := by
  induction ys generalizing xs with
  | nil => simp
  | cons y ys ih =>
    rw [List.foldlM_cons, fillPlain]
    by_cases hy : y = own
    · simp [hy, ih]
    · have hpush : pushBack [[own], xs] 1 y = some [[own], xs ++ [y]] := rfl
      simp [hy, hpush, ih]

/-- A constant distance gives one layer. -/
theorem keys_const (c : ℤ) (hn : 1 < n) : keys (fun _ _ => c) i n = [c] := by
  have hmem : c ∈ keys (fun _ _ => c) i n := by
    rcases Nat.eq_zero_or_pos i with rfl | hi
    · exact mem_keys.mpr ⟨1, hn, by decide, rfl⟩
    · exact mem_keys.mpr ⟨0, by omega, by omega, rfl⟩
  have honly : ∀ δ ∈ keys (fun _ _ => c) i n, δ = c := by
    intro δ hδ
    obtain ⟨_, _, _, h⟩ := mem_keys.mp hδ
    exact h.symm
  have hsorted := pairwise_keys (d := fun _ _ => c) (i := i) n
  match hkeys : keys (fun _ _ => c) i n with
  | [] => simp [hkeys] at hmem
  | [a] => rw [honly a (by simp [hkeys])]
  | a :: b :: s =>
    have ha := honly a (by simp [hkeys])
    have hb := honly b (by simp [hkeys])
    simp [hkeys, ha, hb] at hsorted

/-- What the loop without hwloc leaves. -/
theorem neighborsPlain_eq {own : α} (hown : own ∈ data) :
    neighborsPlain data own = some ([own] ::
      if data.length > 1 then [data.filter fun x => x ≠ own] else []) := by
  rw [neighborsPlain]
  by_cases hlen : data.length > 1
  · rw [if_pos hlen, if_pos hlen, foldlM_fillPlain, List.nil_append]
  · have hpos := List.length_pos_of_mem hown
    obtain ⟨x, rfl⟩ := List.length_eq_one_iff.mp (show data.length = 1 by omega)
    obtain rfl : own = x := by simpa using hown
    simp [fillPlain]

/-- **Without hwloc the lists are those of a constant distance.** -/
theorem plain_eq_layers (hdata : data.Nodup) (hi : i < data.length) (c : ℤ) :
    (if data.length > 1 then [data.filter fun x => x ≠ data[i]] else []) =
      (keys (fun _ _ => c) i data.length).map (layer data (fun _ _ => c) i data.length) := by
  by_cases hlen : data.length > 1
  · have hothers := filter_take_eq_pick hdata hi (Nat.le_refl data.length)
    rw [List.take_length] at hothers
    rw [if_pos hlen, keys_const c hlen, hothers]
    simp [layer]
  · have hone : data.length = 1 := by omega
    obtain rfl : i = 0 := by omega
    rw [if_neg hlen, hone]
    simp [keys]

/-- Without distances, all the others are one layer. -/
theorem distributePlain_eq (null : H) (hdata : data.Nodup) (c : ℤ) :
    (distributePlain null data).map (List.map NumaNode.neighbors) =
      some ((List.range data.length).map fun i =>
        pick data (fun j => j = i) data.length ::
          (keys (fun _ _ => c) i data.length).map (layer data (fun _ _ => c) i data.length)) := by
  have hnodes : distributePlain null data = some (data.map fun own =>
      ⟨null, [own] :: if data.length > 1 then [data.filter fun x => x ≠ own] else []⟩) := by
    apply mapM_eq_some
    intro own hown
    rw [neighborsPlain_eq hown]
    rfl
  rw [hnodes, Option.map_some, List.map_map]
  congr 1
  apply List.ext_getElem
  · simp
  · intro i hi _
    have hlt : i < data.length := by simpa using hi
    rw [List.getElem_map, List.getElem_map, List.getElem_range, pick_own rfl hlt (Nat.le_refl _),
      if_pos hlt, ← plain_eq_layers hdata hlt c]
    rfl

end Plain

/-! ### The result -/

/-- **The lists of neighbours partition the workers by distance.** -/
theorem partitioned_distribute [DecidableEq α] (place : ℕ → ℕ → H) (null : H) (d : ℕ → ℕ → ℤ)
    (data : List α) (hne : data ≠ []) (hdata : data.Nodup) :
    (∃ nodes, distribute place d data = some nodes ∧ nodes.length = data.length ∧
      ∀ i, ∀ hi : i < data.length, ∃ node, nodes[i]? = some node ∧
        node.handle = place data.length i ∧ Partitioned data d i data[i] node.neighbors) ∧
      ∀ c, (distributePlain null data).map (List.map NumaNode.neighbors) =
        (distribute place (fun _ _ => c) data).map (List.map NumaNode.neighbors) := by
  constructor
  · refine ⟨_, distribute_eq place hne, by simp, ?_⟩
    intro i hi
    have hown : pick data (fun j => j = i) data.length = [data[i]] := by
      rw [pick_own rfl hi (Nat.le_refl _), if_pos hi]
    refine ⟨_, by rw [List.getElem?_map, List.getElem?_range hi]; rfl, rfl, ?_⟩
    change Partitioned data d i data[i] (pick data (fun j => j = i) data.length :: _)
    rw [hown]
    exact partitioned_layers hdata rfl hi
  · intro c
    rw [distributePlain_eq null hdata c, distribute_eq place hne]
    simp

/-- Three workers, the first two of them close to each other. -/
theorem partitioned_distribute_three :
    (∃ nodes, distribute (fun _ k => k) (fun i j => if i < 2 ∧ j < 2 then 1 else 2)
        [10, 20, 30] = some nodes ∧ nodes.length = 3) ∧
      (distributePlain 0 [10, 20, 30]).map (List.map NumaNode.neighbors) =
        (distribute (fun _ k => k) (fun _ _ => 2) [10, 20, 30]).map
          (List.map NumaNode.neighbors) := by
  have h := partitioned_distribute (fun _ k => k) 0
    (fun i j => if i < 2 ∧ j < 2 then 1 else 2) [10, 20, 30] (by simp) (by simp)
  obtain ⟨nodes, hnodes, hlen, -⟩ := h.1
  exact ⟨⟨nodes, hnodes, hlen⟩, h.2 2⟩

end Libfork.Numa
