import Libfork.Pool.Objects
import Mathlib.Data.List.Nodup

/-!
# Which object is in charge of which workers

* `Custody` — the purpose of the pool objects: who is in charge of the workers of which
  construction. A move hands them over.
* `Op.Careful` — what a step must not do for the code to keep to that: destroy an object that was
  moved from, or assign over one that is in charge of workers.
* `Refines` — the members of the objects agree with it.
* **`safe_iff_careful`** — a sequence is safe exactly when all its steps are careful. One that
  destroys every object is safe exactly when it moves nothing.
-/

namespace Libfork.Pool.Objects

/-- What an object is in charge of. -/
inductive Status
  | absent
  /-- It was moved from, and not assigned to since. -/
  | moved
  | owns (share n : ℕ)
deriving DecidableEq, Repr

/-- The number of workers. -/
def Status.size : Status → ℕ
  | owns _ n => n
  | _ => 0

/-- Who is in charge of what, after so many constructions. -/
structure Custody where
  shares : ℕ
  who : ℕ → Status

namespace Custody

def start : Custody := ⟨0, fun _ => .absent⟩

def handOver (c : Custody) (dst src : ℕ) : Custody :=
  { c with who := Function.update (Function.update c.who dst (c.who src)) src .moved }

def step : Op → Custody → Custody
  | .construct obj n _, c => ⟨c.shares + 1, Function.update c.who obj (.owns c.shares n)⟩
  | .moveConstruct dst src, c => c.handOver dst src
  | .moveAssign dst src, c => c.handOver dst src
  | .destroy obj, c => { c with who := Function.update c.who obj .absent }

def run (ops : List Op) (c : Custody) : Custody := ops.foldl (fun c op => step op c) c

end Custody

/-- The objects the step uses exist, and those it constructs do not. -/
def Op.Valid (c : Custody) : Op → Prop
  | construct obj _ _ => c.who obj = .absent
  | moveConstruct dst src => c.who dst = .absent ∧ c.who src ≠ .absent
  | moveAssign dst src => c.who dst ≠ .absent ∧ c.who src ≠ .absent
  | destroy obj => c.who obj ≠ .absent

/-- The step neither destroys an object that was moved from nor assigns over one in charge of
workers. -/
def Op.Careful (c : Custody) : Op → Prop
  | moveAssign dst _ => (c.who dst).size = 0
  | destroy obj => c.who obj ≠ .moved
  | _ => True

/-- The step is a move. -/
def Op.IsMove : Op → Prop
  | moveConstruct _ _ | moveAssign _ _ => True
  | _ => False

/-- Every step is valid. -/
def ValidSeq : List Op → Custody → Prop
  | [], _ => True
  | op :: ops, c => op.Valid c ∧ ValidSeq ops (c.step op)

/-- Every step is careful. -/
def CarefulSeq : List Op → Custody → Prop
  | [], _ => True
  | op :: ops, c => op.Careful c ∧ CarefulSeq ops (c.step op)

/-! ### The members agree with the custody -/

/-- The threads of one construction. -/
def crew (share n : ℕ) : List Thread := (List.range n).map fun k => (share, k)

/-- The crew of a pool are its first `n` threads. -/
theorem mem_crew {share n : ℕ} {t : Thread} : t ∈ crew share n ↔ t.1 = share ∧ t.2 < n := by
  rw [crew, List.mem_map]
  constructor
  · rintro ⟨k, hk, rfl⟩
    exact ⟨rfl, List.mem_range.mp hk⟩
  · rintro ⟨rfl, hk⟩
    exact ⟨t.2, List.mem_range.mpr hk, rfl⟩

/-- Nobody is in it twice. -/
theorem nodup_crew (share n : ℕ) : (crew share n).Nodup := by
  apply List.Nodup.map _ List.nodup_range
  intro j k h
  exact (Prod.mk.inj h).2

/-- What the members of an object are, by what it is in charge of. -/
def Shows (object : Option PoolObject) : Status → Prop
  | .absent => object = none
  | .moved => ∃ p, object = some p ∧ p.m_share = none ∧ p.m_threads = []
  | .owns share n => ∃ p, object = some p ∧ p.m_share = some share ∧
      p.m_threads = (crew share n).map some

/-- An object that shows something is there. -/
theorem Shows.exists {object : Option PoolObject} {st : Status} (h : Shows object st)
    (hst : st ≠ .absent) : ∃ p, object = some p := by
  cases st with
  | absent => exact absurd rfl hst
  | moved => exact h.imp fun _ hp => hp.1
  | owns _ _ => exact h.imp fun _ hp => hp.1

/-- Whether a thread in the vector is joinable. -/
theorem Shows.any_isSome {p : PoolObject} {st : Status} (h : Shows (some p) st) :
    p.m_threads.any Option.isSome = true ↔ st.size ≠ 0 := by
  cases st with
  | absent => cases h
  | moved =>
    obtain ⟨q, hq, _, hthreads⟩ := h
    cases hq
    simp [hthreads, Status.size]
  | owns share n =>
    obtain ⟨q, hq, _, hthreads⟩ := h
    cases hq
    rw [hthreads]
    rcases Nat.eq_zero_or_pos n with rfl | hn
    · simp [crew, Status.size]
    · have hmem : (share, 0) ∈ crew share n := mem_crew.mpr ⟨rfl, hn⟩
      simp only [List.any_map, List.any_eq_true, Status.size]
      exact ⟨fun _ => by omega, fun _ => ⟨_, hmem, rfl⟩⟩

/-- The members of the objects, the shared states and the joins agree with the custody. -/
structure Refines (kind : Kind) (s : System) (c : Custody) : Prop where
  shares : s.shares.length = c.shares
  shows : ∀ obj, Shows (s.pools obj) (c.who obj)
  owner : ∀ obj other share m n, c.who obj = .owns share m → c.who other = .owns share n →
    obj = other
  owned : ∀ obj share n, c.who obj = .owns share n →
    ∃ v, s.shares[share]? = some v ∧ v.workers = n ∧ ∀ k, (share, k) ∉ s.joins
  released : ∀ share v, s.shares[share]? = some v → (∀ obj n, c.who obj ≠ .owns share n) →
    ∀ k < v.workers, v.told = true ∧ s.joins.count (share, k) = 1
  joined : ∀ t ∈ s.joins, t.1 < s.shares.length
  /-- A `busy_pool` has no event counts. -/
  quiet : kind = .busy → ∀ v ∈ s.shares, v.numa = []

variable {kind : Kind}

/-- Nothing is constructed at first. -/
theorem refines_start : Refines kind start Custody.start where
  shares := rfl
  shows _ := rfl
  owner _ _ _ _ _ h := by cases h
  owned _ _ _ h := by cases h
  released _ _ h := by cases h
  joined _ h := by cases h
  quiet _ _ h := by cases h

/-- An object holds the threads it is in charge of. -/
theorem Refines.holds_iff {s : System} {c : Custody} (h : Refines kind s c) (obj : ℕ) (t : Thread) :
    s.Holds obj t ↔ ∃ n, c.who obj = .owns t.1 n ∧ t.2 < n := by
  have hshow := h.shows obj
  constructor
  · rintro ⟨p, hp, ht⟩
    rcases hwho : c.who obj with _ | _ | ⟨share, n⟩ <;> rw [hwho] at hshow
    · rw [hshow] at hp
      cases hp
    · obtain ⟨q, hq, _, hthreads⟩ := hshow
      rw [hq] at hp
      cases hp
      simp [hthreads] at ht
    · obtain ⟨q, hq, _, hthreads⟩ := hshow
      rw [hq] at hp
      cases hp
      rw [hthreads, List.mem_map] at ht
      obtain ⟨u, hu, hut⟩ := ht
      cases hut
      obtain ⟨rfl, hlt⟩ := mem_crew.mp hu
      exact ⟨n, rfl, hlt⟩
  · rintro ⟨n, hwho, hlt⟩
    rw [hwho] at hshow
    obtain ⟨p, hp, _, hthreads⟩ := hshow
    refine ⟨p, hp, ?_⟩
    rw [hthreads]
    exact List.mem_map_of_mem (mem_crew.mpr ⟨rfl, hlt⟩)

/-- **Agreement accounts for every thread.** -/
theorem Refines.accounted {s : System} {c : Custody} (h : Refines kind s c) : s.Accounted := by
  intro share v hv k hk
  by_cases howned : ∃ obj n, c.who obj = .owns share n
  · left
    obtain ⟨obj, n, hwho⟩ := howned
    obtain ⟨w, hw, hworkers, hjoins⟩ := h.owned obj share n hwho
    rw [hv] at hw
    cases hw
    refine ⟨⟨obj, (h.holds_iff obj _).mpr ⟨n, hwho, hworkers ▸ hk⟩, ?_⟩, hjoins k⟩
    intro other hother
    obtain ⟨m, hm, _⟩ := (h.holds_iff other _).mp hother
    exact h.owner other obj share m n hm hwho
  · right
    have hnone : ∀ obj n, c.who obj ≠ .owns share n := fun obj n hn => howned ⟨obj, n, hn⟩
    obtain ⟨htold, hcount⟩ := h.released share v hv hnone k hk
    refine ⟨htold, hcount, ?_⟩
    intro obj hobj
    obtain ⟨n, hn, _⟩ := (h.holds_iff obj _).mp hobj
    exact hnone obj n hn

/-! ### Steps -/

/-- **A move hands over the workers**, if the target is in charge of none. -/
theorem Refines.takeFrom {s : System} {c : Custody} (h : Refines kind s c) {dst src : ℕ}
    {p : PoolObject} (hp : s.pools src = some p) (hsize : (c.who dst).size = 0) :
    Refines kind (s.takeFrom dst src p) (c.handOver dst src) := by
  have hsrc : (c.handOver dst src).who src = .moved := Function.update_self _ _ _
  have hdst : dst ≠ src → (c.handOver dst src).who dst = c.who src := by
    intro hne
    simp [Custody.handOver, Function.update_of_ne hne]
  have hrest : ∀ obj, obj ≠ src → obj ≠ dst → (c.handOver dst src).who obj = c.who obj := by
    intro obj h1 h2
    simp [Custody.handOver, Function.update_of_ne h1, Function.update_of_ne h2]
  -- An object in charge after the move is the target, and the source was before, or it was before.
  have hback : ∀ obj share n, (c.handOver dst src).who obj = .owns share n →
      obj ≠ src ∧ ∃ old, c.who old = .owns share n ∧
        (obj = dst ∧ old = src ∨ obj ≠ dst ∧ old = obj) := by
    intro obj share n hown
    have hne : obj ≠ src := by
      rintro rfl
      rw [hsrc] at hown
      cases hown
    refine ⟨hne, ?_⟩
    by_cases hd : obj = dst
    · subst hd
      rw [hdst hne] at hown
      exact ⟨src, hown, Or.inl ⟨rfl, rfl⟩⟩
    · rw [hrest obj hne hd] at hown
      exact ⟨obj, hown, Or.inr ⟨hd, rfl⟩⟩
  constructor
  · exact h.shares
  · intro obj
    by_cases hs : obj = src
    · subst hs
      rw [hsrc]
      exact ⟨p.moved, by simp [System.takeFrom, System.setPool], rfl, rfl⟩
    · by_cases hd : obj = dst
      · subst hd
        rw [hdst hs]
        have hshow := h.shows src
        rw [hp] at hshow
        simpa [System.takeFrom, System.setPool, Function.update_of_ne hs] using hshow
      · rw [hrest obj hs hd]
        simpa [System.takeFrom, System.setPool, Function.update_of_ne hs,
          Function.update_of_ne hd] using h.shows obj
  · intro obj other share m n hobj hother
    obtain ⟨hns, old, hold, hcase⟩ := hback obj share m hobj
    obtain ⟨hns', old', hold', hcase'⟩ := hback other share n hother
    have heq := h.owner old old' share m n hold hold'
    rcases hcase with ⟨rfl, rfl⟩ | ⟨_, rfl⟩ <;> rcases hcase' with ⟨rfl, h1⟩ | ⟨_, rfl⟩
    · rfl
    · exact absurd heq.symm hns'
    · exact absurd (heq.trans h1) hns
    · exact heq
  · intro obj share n hobj
    obtain ⟨_, old, hold, _⟩ := hback obj share n hobj
    exact h.owned old share n hold
  · intro share v hv hnone k hk
    apply h.released share v hv _ k hk
    intro old n hold
    obtain ⟨w, hw, hworkers, _⟩ := h.owned old share n hold
    have hvw : s.shares[share]? = some v := hv
    rw [hw] at hvw
    cases hvw
    have hne : old ≠ dst := by
      rintro rfl
      rw [hold] at hsize
      have hzero : n = 0 := hsize
      omega
    by_cases hs : old = src
    · subst hs
      exact hnone dst n (by rw [hdst hne.symm, hold])
    · exact hnone old n (by rw [hrest old hs hne, hold])
  · exact h.joined
  · exact h.quiet

/-- **A construction** puts an object in charge of new workers. -/
theorem Refines.construct {s : System} {c : Custody} (h : Refines kind s c)
    {obj : ℕ} (n domains : ℕ) (hobj : c.who obj = .absent) :
    Refines kind (s.constructed kind obj n domains) (c.step (.construct obj n domains)) := by
  have hlen := h.shares
  have hnew : (c.step (.construct obj n domains)).who obj = .owns c.shares n :=
    Function.update_self _ _ _
  have hrest : ∀ other, other ≠ obj →
      (c.step (.construct obj n domains)).who other = c.who other :=
    fun other hne => Function.update_of_ne hne _ _
  have hold : ∀ other share m, other ≠ obj → c.who other = .owns share m →
      share < c.shares := by
    intro other share m _ hown
    obtain ⟨v, hv, _⟩ := h.owned other share m hown
    rw [← hlen]
    exact (List.getElem?_eq_some_iff.mp hv).1
  constructor
  · simp [System.constructed, Custody.step, hlen]
  · intro other
    by_cases hne : other = obj
    · subst hne
      rw [hnew, ← hlen]
      exact ⟨_, Function.update_self _ _ _, rfl, rfl⟩
    · rw [hrest other hne]
      simpa [System.constructed, Function.update_of_ne hne] using h.shows other
  · intro one other share m k hone hother
    by_cases h1 : one = obj <;> by_cases h2 : other = obj
    · rw [h1, h2]
    · rw [h1, hnew] at hone
      rw [hrest other h2] at hother
      have hlt := hold other share k h2 hother
      cases hone
      omega
    · rw [h2, hnew] at hother
      rw [hrest one h1] at hone
      have hlt := hold one share m h1 hone
      cases hother
      omega
    · rw [hrest one h1] at hone
      rw [hrest other h2] at hother
      exact h.owner one other share m k hone hother
  · intro other share m hown
    by_cases hne : other = obj
    · rw [hne, hnew] at hown
      cases hown
      refine ⟨_, by rw [← hlen]; exact List.getElem?_concat_length, rfl, ?_⟩
      intro k hk
      have hlt := h.joined _ hk
      rw [hlen] at hlt
      exact absurd hlt (Nat.lt_irrefl _)
    · rw [hrest other hne] at hown
      obtain ⟨v, hv, hworkers, hjoins⟩ := h.owned other share m hown
      refine ⟨v, ?_, hworkers, hjoins⟩
      change (s.shares ++ [_])[share]? = some v
      rw [List.getElem?_append_left (List.getElem?_eq_some_iff.mp hv).1]
      exact hv
  · intro share v hv hnone' k hk
    have hlt : share < s.shares.length := by
      by_contra hge
      obtain ⟨hin, -⟩ := List.getElem?_eq_some_iff.mp hv
      change share < (s.shares ++ [_]).length at hin
      rw [List.length_append, List.length_singleton] at hin
      have heq : share = c.shares := by omega
      exact hnone' obj n (by rw [hnew, heq])
    change (s.shares ++ [_])[share]? = some v at hv
    rw [List.getElem?_append_left hlt] at hv
    apply h.released share v hv _ k hk
    intro other m hown
    by_cases hne : other = obj
    · rw [hne, hobj] at hown
      cases hown
    · exact hnone' other m (by rw [hrest other hne, hown])
  · intro t ht
    have hlt := h.joined t ht
    change t.1 < (s.shares ++ [_]).length
    rw [List.length_append]
    omega
  · rintro rfl v hv
    change v ∈ s.shares ++ [_] at hv
    rcases List.mem_append.mp hv with hv | hv
    · exact h.quiet rfl v hv
    · rw [List.mem_singleton.mp hv]

/-- Joining threads that were told to stop. -/
theorem joinAll_map_some {ts : List Thread} {s : System}
    (h : ∀ t ∈ ts, ∃ v, s.shares[t.1]? = some v ∧ v.told = true) :
    System.joinAll (ts.map some) s = .ok { s with joins := s.joins ++ ts } := by
  induction ts generalizing s with
  | nil => simp [System.joinAll]
  | cons t ts ih =>
    obtain ⟨v, hv, htold⟩ := h t List.mem_cons_self
    rw [List.map_cons, System.joinAll, hv]
    have hrest := ih (s := { s with joins := s.joins ++ [t] })
      fun u hu => h u (List.mem_cons_of_mem t hu)
    change (if v.told then System.joinAll (ts.map some) _ else _) = _
    rw [if_pos htold, hrest, List.append_assoc]
    rfl

/-- A pool that was stopped has told its threads. -/
theorem told_stopped {kind : Kind} {v : Vars} (h : kind = .busy → v.numa = []) :
    (v.stopped kind).told = true := by
  cases kind with
  | busy => simp [Vars.stopped, Vars.told, h rfl]
  | lazy => simp [Vars.stopped, Vars.told]

/-- A stop changes the variables of one pool. -/
theorem getElem?_requestStop (share other : ℕ) (s : System) :
    (s.requestStop kind share).shares[other]? =
      if share = other then s.shares[other]?.map (Vars.stopped kind) else s.shares[other]? := by
  rw [System.requestStop, List.getElem?_modify]
  split <;> simp [*]

/-- **The destructor joins every worker** of an object that is in charge of some. -/
theorem Refines.destroy {s : System} {c : Custody} (h : Refines kind s c) {obj share n : ℕ}
    (hown : c.who obj = .owns share n) :
    ∃ s', s.destroy kind obj = .ok s' ∧ Refines kind s' (c.step (.destroy obj)) := by
  obtain ⟨p, hp, hshare, hthreads⟩ : Shows (s.pools obj) (.owns share n) := hown ▸ h.shows obj
  obtain ⟨v, hv, hworkers, hfresh⟩ := h.owned obj share n hown
  have hquiet : kind = .busy → v.numa = [] := fun hk => h.quiet hk v (List.mem_of_getElem? hv)
  have hstop : (s.requestStop kind share).shares[share]? = some (v.stopped kind) := by
    rw [getElem?_requestStop, if_pos rfl, hv]
    rfl
  have htold : ∀ t ∈ crew share n,
      ∃ v, (s.requestStop kind share).shares[t.1]? = some v ∧ v.told = true := by
    intro t ht
    obtain ⟨rfl, _⟩ := mem_crew.mp ht
    exact ⟨_, hstop, told_stopped hquiet⟩
  have hjoin := joinAll_map_some htold
  refine ⟨_, by rw [System.destroy, hp]; simp only [hshare, hthreads, hjoin]; rfl, ?_⟩
  have hgone : (c.step (.destroy obj)).who obj = .absent := Function.update_self _ _ _
  have hrest : ∀ other, other ≠ obj → (c.step (.destroy obj)).who other = c.who other :=
    fun other hne => Function.update_of_ne hne _ _
  have hback : ∀ other other_share m, (c.step (.destroy obj)).who other = .owns other_share m →
      other ≠ obj ∧ c.who other = .owns other_share m := by
    intro other other_share m ho
    have hne : other ≠ obj := by
      rintro rfl
      rw [hgone] at ho
      cases ho
    exact ⟨hne, hrest other hne ▸ ho⟩
  constructor
  · change (s.shares.modify share _).length = c.shares
    rw [List.length_modify]
    exact h.shares
  · intro other
    by_cases hne : other = obj
    · subst hne
      rw [hgone]
      exact Function.update_self _ _ _
    · rw [hrest other hne]
      simpa [System.setPool, System.requestStop, Function.update_of_ne hne] using h.shows other
  · intro one other k m l hone hother
    exact h.owner one other k m l (hback one k m hone).2 (hback other k l hother).2
  · intro other k m ho
    obtain ⟨hne, ho⟩ := hback other k m ho
    obtain ⟨w, hw, hwn, hnot⟩ := h.owned other k m ho
    have hks : share ≠ k := by
      rintro rfl
      exact hne (h.owner other obj share m n ho hown)
    refine ⟨w, ?_, hwn, ?_⟩
    · change (s.requestStop kind share).shares[k]? = some w
      rw [getElem?_requestStop, if_neg hks]
      exact hw
    · intro j hj
      rcases List.mem_append.mp hj with hj | hj
      · exact hnot j hj
      · exact hks (mem_crew.mp hj).1.symm
  · intro k w hw hnone j hj
    change (s.requestStop kind share).shares[k]? = some w at hw
    change w.told = true ∧ (s.joins ++ crew share n).count (k, j) = 1
    rw [List.count_append]
    by_cases hks : share = k
    · subst hks
      rw [hstop] at hw
      cases hw
      have hlt : j < n := hworkers ▸ hj
      have hin : (share, j) ∈ crew share n := mem_crew.mpr ⟨rfl, hlt⟩
      refine ⟨told_stopped hquiet, ?_⟩
      rw [List.count_eq_zero_of_not_mem (hfresh j), (nodup_crew share n).count, if_pos hin]
    · rw [getElem?_requestStop, if_neg hks] at hw
      have hout : (k, j) ∉ crew share n := fun hin => hks (mem_crew.mp hin).1.symm
      rw [List.count_eq_zero_of_not_mem hout]
      apply h.released k w hw _ j hj
      intro other m ho
      have hne : other ≠ obj := by
        rintro rfl
        rw [hown] at ho
        cases ho
        exact hks rfl
      exact hnone other m (by rw [hrest other hne, ho])
  · intro t ht
    change t.1 < (s.shares.modify share _).length
    rw [List.length_modify]
    rcases List.mem_append.mp ht with ht | ht
    · exact h.joined t ht
    · rw [(mem_crew.mp ht).1]
      exact (List.getElem?_eq_some_iff.mp hv).1
  · rintro rfl w hw
    obtain ⟨k, hk⟩ := List.mem_iff_getElem?.mp hw
    change (s.requestStop .busy share).shares[k]? = some w at hk
    rw [getElem?_requestStop] at hk
    split at hk
    · rename_i hks
      subst hks
      rw [hv] at hk
      cases hk
      exact hquiet rfl
    · exact h.quiet rfl w (List.mem_of_getElem? hk)

/-- **A careful step** succeeds and keeps the agreement. -/
theorem Refines.step_careful {s : System} {c : Custody} (h : Refines kind s c) {op : Op}
    (hvalid : op.Valid c) (hcareful : op.Careful c) :
    ∃ s', step kind op s = .ok s' ∧ Refines kind s' (c.step op) := by
  cases op with
  | construct obj n domains =>
    have hnone : s.pools obj = none := by
      have hshow := h.shows obj
      rwa [show c.who obj = .absent from hvalid] at hshow
    refine ⟨_, ?_, h.construct n domains hvalid⟩
    simp [step, System.construct, hnone]
  | moveConstruct dst src =>
    obtain ⟨hdst, hsrc⟩ := hvalid
    have hnone : s.pools dst = none := by
      have hshow := h.shows dst
      rwa [hdst] at hshow
    obtain ⟨p, hp⟩ := (h.shows src).exists hsrc
    refine ⟨_, ?_, h.takeFrom hp (by rw [hdst]; rfl)⟩
    simp [step, System.moveConstruct, hnone, hp]
  | moveAssign dst src =>
    obtain ⟨q, hq⟩ := (h.shows dst).exists hvalid.1
    obtain ⟨p, hp⟩ := (h.shows src).exists hvalid.2
    refine ⟨_, ?_, h.takeFrom hp hcareful⟩
    have hshow := h.shows dst
    rw [hq] at hshow
    have hempty : ¬ q.m_threads.any Option.isSome = true :=
      fun hany => hshow.any_isSome.mp hany hcareful
    simp only [step, System.moveAssign, hq, hp]
    exact if_neg hempty
  | destroy obj =>
    rcases hwho : c.who obj with _ | _ | ⟨share, n⟩
    · exact absurd hwho hvalid
    · exact absurd hwho hcareful
    · exact h.destroy hwho

/-- **Any other step ends the program.** -/
theorem Refines.step_careless {s : System} {c : Custody} (h : Refines kind s c) {op : Op}
    (hvalid : op.Valid c) (hcareful : ¬ op.Careful c) : ∃ e, step kind op s = .error e := by
  cases op with
  | construct => exact absurd trivial hcareful
  | moveConstruct => exact absurd trivial hcareful
  | moveAssign dst src =>
    obtain ⟨q, hq⟩ := (h.shows dst).exists hvalid.1
    obtain ⟨p, hp⟩ := (h.shows src).exists hvalid.2
    have hshow := h.shows dst
    rw [hq] at hshow
    have hany := hshow.any_isSome.mpr hcareful
    refine ⟨.terminate, ?_⟩
    simp only [step, System.moveAssign, hq, hp]
    exact if_pos hany
  | destroy obj =>
    have hmoved : c.who obj = .moved := not_not.mp hcareful
    obtain ⟨p, hp, hshare, _⟩ : Shows (s.pools obj) .moved := hmoved ▸ h.shows obj
    refine ⟨.nullShare, ?_⟩
    simp [step, System.destroy, hp, hshare]

/-! ### Sequences -/

/-- One operation, and then the others. -/
@[simp] theorem Custody.run_cons (op : Op) (ops : List Op) (c : Custody) :
    Custody.run (op :: ops) c = Custody.run ops (c.step op) := rfl

/-- The first part of a valid sequence is valid. -/
theorem ValidSeq.of_append {pre post : List Op} {c : Custody} (h : ValidSeq (pre ++ post) c) :
    ValidSeq pre c := by
  induction pre generalizing c with
  | nil => trivial
  | cons op pre ih => exact ⟨h.1, ih h.2⟩

/-- The first part of a careful sequence is careful. -/
theorem CarefulSeq.of_append {pre post : List Op} {c : Custody} (h : CarefulSeq (pre ++ post) c) :
    CarefulSeq pre c := by
  induction pre generalizing c with
  | nil => trivial
  | cons op pre ih => exact ⟨h.1, ih h.2⟩

/-- A careful sequence runs and keeps the agreement. -/
theorem Refines.exec_careful {ops : List Op} {s : System} {c : Custody} (h : Refines kind s c)
    (hvalid : ValidSeq ops c) (hcareful : CarefulSeq ops c) :
    ∃ s', exec kind ops s = .ok s' ∧ Refines kind s' (c.run ops) := by
  induction ops generalizing s c with
  | nil => exact ⟨s, rfl, h⟩
  | cons op ops ih =>
    obtain ⟨t, ht, hnext⟩ := h.step_careful hvalid.1 hcareful.1
    obtain ⟨s', hs', hend⟩ := ih hnext hvalid.2 hcareful.2
    refine ⟨s', ?_, hend⟩
    rw [exec, ht]
    exact hs'

/-- A sequence that runs is careful. -/
theorem Refines.careful_of_exec {ops : List Op} {s s' : System} {c : Custody}
    (h : Refines kind s c) (hvalid : ValidSeq ops c) (hexec : exec kind ops s = .ok s') :
    CarefulSeq ops c := by
  induction ops generalizing s c with
  | nil => trivial
  | cons op ops ih =>
    by_cases hcareful : op.Careful c
    · obtain ⟨t, ht, hnext⟩ := h.step_careful hvalid.1 hcareful
      rw [exec, ht] at hexec
      exact ⟨hcareful, ih hnext hvalid.2 hexec⟩
    · obtain ⟨e, he⟩ := h.step_careless hvalid.1 hcareful
      rw [exec, he] at hexec
      cases hexec

/-- **Safe sequences are the careful ones.** -/
theorem safe_iff {ops : List Op} (hvalid : ValidSeq ops Custody.start) :
    Safe kind ops ↔ CarefulSeq ops Custody.start := by
  constructor
  · intro hsafe
    obtain ⟨s, hs, _⟩ := hsafe ops List.prefix_rfl
    exact refines_start.careful_of_exec hvalid hs
  · rintro hcareful pre ⟨post, rfl⟩
    obtain ⟨s, hs, href⟩ := refines_start.exec_careful hvalid.of_append hcareful.of_append
    exact ⟨s, hs, href.accounted⟩

/-- An object that was moved from remains, in a careful sequence. -/
theorem exists_moved {ops : List Op} {c : Custody} (hvalid : ValidSeq ops c)
    (hcareful : CarefulSeq ops c) (h : ∃ obj, c.who obj = .moved) :
    ∃ obj, (c.run ops).who obj = .moved := by
  induction ops generalizing c with
  | nil => exact h
  | cons op ops ih =>
    apply ih hvalid.2 hcareful.2
    obtain ⟨obj, hobj⟩ := h
    cases op with
    | construct new n domains =>
      refine ⟨obj, ?_⟩
      have hne : obj ≠ new := by
        rintro rfl
        rw [show c.who obj = .absent from hvalid.1] at hobj
        cases hobj
      exact (Function.update_of_ne hne _ _).trans hobj
    | moveConstruct dst src => exact ⟨src, Function.update_self _ _ _⟩
    | moveAssign dst src => exact ⟨src, Function.update_self _ _ _⟩
    | destroy gone =>
      refine ⟨obj, ?_⟩
      have hne : obj ≠ gone := by
        rintro rfl
        exact hcareful.1 hobj
      exact (Function.update_of_ne hne _ _).trans hobj

/-- A move leaves an object that was moved from. -/
theorem exists_moved_of_move {ops : List Op} {c : Custody} (hvalid : ValidSeq ops c)
    (hcareful : CarefulSeq ops c) (h : ∃ op ∈ ops, op.IsMove) :
    ∃ obj, (c.run ops).who obj = .moved := by
  induction ops generalizing c with
  | nil => simp at h
  | cons op ops ih =>
    obtain ⟨move, hmem, hmove⟩ := h
    rcases List.mem_cons.mp hmem with rfl | hmem
    · apply exists_moved hvalid.2 hcareful.2
      cases move with
      | construct => cases hmove
      | destroy => cases hmove
      | moveConstruct dst src => exact ⟨src, Function.update_self _ _ _⟩
      | moveAssign dst src => exact ⟨src, Function.update_self _ _ _⟩
    · exact ih hvalid.2 hcareful.2 ⟨move, hmem, hmove⟩

/-- Without a move every step is careful. -/
theorem careful_of_no_move {ops : List Op} {c : Custody} (hc : ∀ obj, c.who obj ≠ .moved)
    (h : ∀ op ∈ ops, ¬ op.IsMove) : CarefulSeq ops c := by
  induction ops generalizing c with
  | nil => trivial
  | cons op ops ih =>
    have hop := h op List.mem_cons_self
    have hrest := fun next hnext => h next (List.mem_cons_of_mem op hnext)
    cases op with
    | construct new n domains =>
      refine ⟨trivial, ih ?_ hrest⟩
      intro obj
      by_cases hne : obj = new
      · simp [Custody.step, hne]
      · simpa [Custody.step, Function.update_of_ne hne] using hc obj
    | moveConstruct dst src => exact absurd trivial hop
    | moveAssign dst src => exact absurd trivial hop
    | destroy gone =>
      refine ⟨hc gone, ih ?_ hrest⟩
      intro obj
      by_cases hne : obj = gone
      · simp [Custody.step, hne]
      · simpa [Custody.step, Function.update_of_ne hne] using hc obj

/-- **When moving pools is safe.** A sequence of operations on existing objects is safe exactly
when no step destroys an object that was moved from, or assigns over one in charge of workers; and
one that destroys every object it constructs is safe exactly when it moves nothing. -/
theorem safe_iff_careful (kind : Kind) (ops : List Op) (hvalid : ValidSeq ops Custody.start) :
    (Safe kind ops ↔ CarefulSeq ops Custody.start) ∧
      ((∀ obj, (Custody.start.run ops).who obj = .absent) →
        (Safe kind ops ↔ ∀ op ∈ ops, ¬ op.IsMove)) := by
  refine ⟨safe_iff hvalid, ?_⟩
  intro hend
  rw [safe_iff hvalid]
  constructor
  · intro hcareful op hop hmove
    obtain ⟨obj, hobj⟩ := exists_moved_of_move hvalid hcareful ⟨op, hop, hmove⟩
    rw [hend obj] at hobj
    cases hobj
  · intro hnone
    exact careful_of_no_move (fun _ => nofun) hnone

/-- Two objects, nothing moved. -/
theorem safe_iff_careful_two :
    Safe .lazy [.construct 0 2 1, .construct 1 3 2, .destroy 0, .destroy 1] := by
  have hvalid : ValidSeq [.construct 0 2 1, .construct 1 3 2, .destroy 0, .destroy 1]
      Custody.start := ⟨rfl, rfl, nofun, nofun, trivial⟩
  exact (safe_iff_careful .lazy _ hvalid).1.mpr ⟨trivial, trivial, nofun, nofun, trivial⟩

/-- Move a pool into a new object, and destroy both. -/
def moveOut : List Op := [.construct 0 1 1, .moveConstruct 1 0, .destroy 1, .destroy 0]

/-- Assign a pool over another. -/
def moveOver : List Op := [.construct 0 1 1, .construct 1 1 1, .moveAssign 0 1]

/-- The first dereferences a null `m_share`, the second ends in `std::terminate`, for both pools. -/
theorem not_safe_of_move :
    (ValidSeq moveOut Custody.start ∧ ¬ Safe .busy moveOut ∧ ¬ Safe .lazy moveOut ∧
        exec .busy moveOut start = .error .nullShare ∧
        exec .lazy moveOut start = .error .nullShare) ∧
      ValidSeq moveOver Custody.start ∧ ¬ Safe .busy moveOver ∧ ¬ Safe .lazy moveOver ∧
        exec .busy moveOver start = .error .terminate ∧
        exec .lazy moveOver start = .error .terminate := by
  have hout : ∀ kind, exec kind moveOut start = .error .nullShare := by
    intro kind
    cases kind <;> rfl
  have hover : ∀ kind, exec kind moveOver start = .error .terminate := by
    intro kind
    cases kind <;> rfl
  have hunsafe : ∀ kind ops e, exec kind ops start = .error e → ¬ Safe kind ops := by
    intro kind ops e he hsafe
    obtain ⟨s, hs, _⟩ := hsafe ops List.prefix_rfl
    rw [he] at hs
    cases hs
  refine ⟨⟨⟨rfl, ⟨rfl, nofun⟩, nofun, nofun, trivial⟩, hunsafe _ _ _ (hout _),
    hunsafe _ _ _ (hout _), hout _, hout _⟩, ⟨rfl, rfl, ⟨nofun, nofun⟩, trivial⟩,
    hunsafe _ _ _ (hover _), hunsafe _ _ _ (hover _), hover _, hover _⟩

end Libfork.Pool.Objects
