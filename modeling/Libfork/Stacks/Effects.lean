import Libfork.Runtime.Steals
import Libfork.Stacks.Pointers

/-!
# What a step does to the stacks

* `State.hold` — what a worker has of its chain, told by where it stands and how often the task it
  runs was stolen.
* `State.size` — how many blocks a task has.
* `Effect` — what a step can do to the chains, and to who holds what.
* **`inOrder_of_effect`** — no effect spoils the chains or the pointers.

Source: as in the model.
-/

namespace Libfork.Stacks

open Libfork.Found Libfork.Join Libfork.Runtime

variable {T : Tree} {s s' : State} {a : Act}

/-! ## Who holds what -/

/-- The task over whose blocks those of `c` may be. -/
def beneath (T : Tree) (c : ℕ) : Option ℕ := if T.tag c = .root then none else some (T.parent c)

/-- Nothing is beneath a root. -/
theorem beneath_of_root {c : ℕ} (h : T.tag c = .root) : beneath T c = none := if_pos h

/-- The parent is beneath any other task. -/
theorem beneath_of_ne_root {c : ℕ} (h : T.tag c ≠ .root) : beneath T c = some (T.parent c) :=
  if_neg h

/-- What is beneath a task is its parent. -/
theorem beneath_eq_some {c p : ℕ} (h : beneath T c = some p) :
    T.tag c ≠ .root ∧ T.parent c = p := by
  unfold beneath at h
  split_ifs at h with ht
  exact ⟨ht, Option.some.inj h⟩

namespace State

variable (T) (s)

/-- The chain that a frame is on. -/
def home (f : ℕ) : ℕ := (s.st.mStacklet f).root

/-- What the stack of a child that has returned has left. -/
def under (c : ℕ) : Hold ℕ :=
  if s.home c = s.home (T.parent c) then .top (T.parent c) else .bare

/-- What a worker has of the chain that its stack points to. It has given the chain up where the
resumer of a task may take it over, and `release()` comes next. -/
def hold (w : ℕ) : Hold ℕ :=
  match s.rt.pc w with
  | .run f => if s.rt.steals f = 0 then .top f else .bare
  | .final c => s.under T c
  | .subJoin c => s.under T c
  | .lost _ => if s.pStacklet w = s.cStacklet w then .gone else .bare
  | .switched _ steals => if steals = 0 then .gone else .bare
  | _ => .bare

/-- How many blocks a task has: none before its frame is allocated, and none after it is
destroyed. -/
def size (f : ℕ) : ℕ := if (s.rt.loc f).ended then 0 else s.allocs f + 1

/-- A task has blocks until it is over. -/
theorem size_pos_iff {f : ℕ} : 0 < s.size f ↔ (s.rt.loc f).ended = false := by
  unfold size
  split_ifs with h <;> simp [h]

/-- A task that is over has none. -/
theorem size_eq_zero {f : ℕ} (h : (s.rt.loc f).ended = true) : s.size f = 0 := if_pos h

/-- What is on top of a chain that is held. -/
theorem hold_eq_top {w f : ℕ} (h : s.hold T w = .top f) :
    s.rt.pc w = .run f ∨ ∃ c, (s.rt.pc w).returned = some c ∧ T.parent c = f := by
  unfold hold at h
  cases hpc : s.rt.pc w with
  | run g =>
    rw [hpc] at h
    dsimp only at h
    split_ifs at h
    exact Or.inl (congrArg Pc.run (Hold.top.inj h))
  | final c =>
    rw [hpc] at h
    dsimp only [under] at h
    split_ifs at h
    exact Or.inr ⟨c, rfl, Hold.top.inj h⟩
  | subJoin c =>
    rw [hpc] at h
    dsimp only [under] at h
    split_ifs at h
    exact Or.inr ⟨c, rfl, Hold.top.inj h⟩
  | lost c =>
    rw [hpc] at h
    dsimp only at h
    split_ifs at h
  | switched g steals =>
    rw [hpc] at h
    dsimp only at h
    split_ifs at h
  | idle => simp [hpc] at h
  | stolen g => simp [hpc] at h
  | joinLoad g => simp [hpc] at h
  | joinSub g => simp [hpc] at h
  | selfSteal => simp [hpc] at h

/-- What a worker holds is told by where it stands, and by little more. -/
theorem hold_congr {w : ℕ} (hpc : s'.rt.pc w = s.rt.pc w)
    (hsteals : ∀ f, s.rt.pc w = .run f → s'.rt.steals f = s.rt.steals f)
    (hhome : ∀ c, (s.rt.pc w).returned = some c →
      s'.home c = s.home c ∧ s'.home (T.parent c) = s.home (T.parent c))
    (hp : s'.pStacklet w = s.pStacklet w) (hc : s'.cStacklet w = s.cStacklet w) :
    s'.hold T w = s.hold T w := by
  unfold hold under
  rw [hpc, hp, hc]
  split
  · next f heq => rw [hsteals f heq]
  · next c heq =>
    obtain ⟨hself, hparent⟩ := hhome c (by rw [heq]; rfl)
    rw [hself, hparent]
  · next c heq =>
    obtain ⟨hself, hparent⟩ := hhome c (by rw [heq]; rfl)
    rw [hself, hparent]
  · rfl
  · rfl
  · rfl

end State

/-! ## What a step can do -/

/-- The worker that takes a step. -/
def Act.mover : Act → Option ℕ
  | .code a _ _ => a.mover
  | .coNew w _ => some w
  | .coDelete w => some w

/-- A worker goes on with `f`, whose stack it has to have: as the last child to join, as the one
that awaits a join and finds all children joined, or because `f` was submitted to it. -/
inductive Continues (T : Tree) (s : State) : Runtime.Act → ℕ → ℕ → Prop
  | last {w c : ℕ} (hpc : s.rt.pc w = .subJoin c)
      (hold : (s.rt.task (T.parent c)).frame.loadJoins = 1) :
      Continues T s (.step w) w (T.parent c)
  | ready {w f : ℕ} (hpc : s.rt.pc w = .joinLoad f) (hjoined : s.Joined f) :
      Continues T s (.step w) w f
  | win {w f : ℕ} (hpc : s.rt.pc w = .joinSub f) (hjoined : s.Joined f) :
      Continues T s (.step w) w f
  | submitted {w f : ℕ} {fs : List ℕ} (hpc : s.rt.pc w = .idle) (htodo : s.rt.todo w = f :: fs)
      (hsteals : s.rt.steals f = 0) : Continues T s (.resume w) w f

/-- What a step from `s` to `s'` does to the chains, to what the workers hold and to how many
blocks the tasks have. -/
inductive Effect (T : Tree) (s s' : State) : Act → Prop
  /-- Nothing. -/
  | quiet {a : Act} (hst : s'.st = s.st) (hhold : s'.hold T = s.hold T)
      (hsize : s'.size = s.size) : Effect T s s' a
  /-- `w` gives its chain up, with `f` on top. -/
  | givesUp {a : Act} {w f : ℕ} (ha : a.mover = some w) (hw : s.hold T w = .top f)
      (hst : s'.st = s.st)
      (hhold : s'.hold T = Function.update (s.hold T) w .gone) (hsize : s'.size = s.size) :
      Effect T s s' a
  /-- `w` allocates the frame of `c`, over that of its parent or on an empty chain. -/
  | begins {a : Act} {w c : ℕ} {grow : Bool} (ha : a.mover = some w) (ht : T.tag c ≠ .root)
      (hw : s.hold T w = .bare ∨ s.hold T w = .top (T.parent c)) (hc : s.size c = 0)
      (hst : s'.st = s.st.newFrame w c grow)
      (hhold : s'.hold T = Function.update (s.hold T) w (.top c))
      (hsize : s'.size = Function.update s.size c 1) : Effect T s s' a
  /-- `w` destroys the frame of `c`. -/
  | ends {a : Act} {w c : ℕ} {l : Hold ℕ} (ha : a.mover = some w) (hw : s.hold T w = .top c)
      (hc : s.size c = 1)
      (hroot : T.tag c = .root → l = .bare)
      (hpar : T.tag c ≠ .root → 0 < s.size (T.parent c) ∧ l = s.under T c)
      (hst : s'.st = s.st.deallocate w)
      (hhold : s'.hold T = Function.update (s.hold T) w l)
      (hsize : s'.size = Function.update s.size c 0) : Effect T s s' a
  /-- `w` takes the chain over that `f` is on. -/
  | takes {a : Runtime.Act} {grow : Bool} {w f root : ℕ} (hcont : Continues T s a w f)
      (hw : s.hold T w = .bare) (hf : 0 < s.size f) (hnone : ∀ v, s.hold T v ≠ .top f)
      (hleaf : ∀ c, T.tag c ≠ .root → T.parent c = f → s.size c = 0)
      (hst : s'.st = s.st.take w (s.st.mStacklet f))
      (hhold : s'.hold T = Function.update (s.hold T) w (.top f))
      (hsize : s'.size = s.size) : Effect T s s' (.code a grow root)
  /-- `w` begins a new chain. -/
  | renews {a : Act} {w root : ℕ} (ha : a.mover = some w) (hw : s.hold T w = .gone)
      (hroot : s.st.chain root = none)
      (hst : s'.st = s.st.release w root)
      (hhold : s'.hold T = Function.update (s.hold T) w .bare) (hsize : s'.size = s.size) :
      Effect T s s' a
  /-- The outside begins a chain with the frame of `r`, and releases it. -/
  | plants {r root : ℕ} {grow : Bool} (hr : s.size r = 0) (hroot : s.st.chain root = none)
      (hst : s'.st = s.st.plant r root grow) (hhold : s'.hold T = s.hold T)
      (hsize : s'.size = Function.update s.size r 1) : Effect T s s' (.code (.spawn r) grow root)
  /-- `w` allocates one more block for the task on top. -/
  | more {w f : ℕ} {grow : Bool} (hw : s.hold T w = .top f) (hst : s'.st = s.st.coNew w f grow)
      (hhold : s'.hold T = s.hold T)
      (hsize : s'.size = Function.update s.size f (s.size f + 1)) : Effect T s s' (.coNew w grow)
  /-- `w` deallocates a block of the task on top, which has more. -/
  | fewer {w f : ℕ} (hw : s.hold T w = .top f) (hf : 1 < s.size f)
      (hst : s'.st = s.st.coDelete w f) (hhold : s'.hold T = s.hold T)
      (hsize : s'.size = Function.update s.size f (s.size f - 1)) : Effect T s s' (.coDelete w)

/-- The chains are in order, and the pointers are right. -/
structure InOrder (T : Tree) (s : State) : Prop where
  kept : Kept (beneath T) s.size (s.hold T) s.st.cactus
  pointed : Pointed (s.hold T) s.st

/-- **No effect spoils the chains or the pointers.** -/
theorem inOrder_of_effect (h : Effect T s s' a) (hs : InOrder T s) : InOrder T s' := by
  obtain ⟨hk, hp⟩ := hs
  cases h with
  | quiet hst hhold hsize =>
    refine ⟨?_, ?_⟩
    · rw [hst, hhold, hsize]
      exact hk
    · rw [hst, hhold]
      exact hp
  | @givesUp _ w f ha hw hst hhold hsize =>
    refine ⟨?_, ?_⟩
    · rw [hst, hhold, hsize]
      exact hk.giveUp (by simp [hw])
    · rw [hst, hhold]
      refine hp.mono fun v hv => ?_
      by_cases hvw : v = w
      · simp [hvw, hw]
      · rwa [Function.update_of_ne hvw] at hv
  | @begins _ w c grow ha ht hw hc hst hhold hsize =>
    have hgone : s.hold T w ≠ .gone := by
      rcases hw with hw | hw <;> simp [hw]
    refine ⟨?_, ?_⟩
    · rw [hst, hhold, hsize, Chains.cactus_newFrame]
      exact hk.push (hw.imp_right fun hw => ⟨_, hw, beneath_of_ne_root ht⟩) hc
    · rw [hst, hhold]
      refine hp.newFrame hk (fun v hv => ?_) hgone
      by_cases hvw : v = w
      · rwa [hvw]
      · rwa [Function.update_of_ne hvw] at hv
  | @ends _ w c l ha hw hc hroot hpar hst hhold hsize =>
    have hl : Kept (beneath T) s'.size (s'.hold T) s'.st.cactus := by
      rw [hst, hhold, hsize, Chains.cactus_deallocate]
      by_cases ht : T.tag c = .root
      · rw [hroot ht]
        exact hk.finishRoot hw hc (beneath_of_root ht)
      · obtain ⟨hsize, rfl⟩ := hpar ht
        exact hk.finish hw hc (beneath_of_ne_root ht) (T.parent_lt c ht).ne hsize
    refine ⟨hl, ?_⟩
    obtain ⟨b, bs, hbs, rfl⟩ := chain_of_top hk hw
    rw [hst, hhold]
    refine hp.deallocate hk (fun v hv => ?_) hw hbs ?_
    · by_cases hvw : v = w
      · simp [hvw, hw]
      · rwa [Function.update_of_ne hvw] at hv
    · intro hmem
      have hcount := hk.count _ _ b.task (s.st.branch_eq_some.mpr ⟨_, hbs, rfl⟩)
      have hhome : s.st.cactus.home b.task = (s.st.mFib w).root := (hk.home_of_top hw).1
      rw [if_pos hhome, hc, List.map_cons, List.count_cons_self] at hcount
      exact absurd (List.count_pos_iff.mpr hmem) (by omega)
  | @takes _ _ w f _ hcont hw hf hnone hleaf hst hhold hsize =>
    have hleaf' : ∀ c, beneath T c = some f → s.size c = 0 := by
      intro c hc
      obtain ⟨ht, hparent⟩ := beneath_eq_some hc
      exact hleaf c ht hparent
    refine ⟨?_, ?_⟩
    · rw [hst, hhold, hsize, Chains.cactus_take]
      exact hk.take hw hf hnone hleaf'
    · obtain ⟨xs, hxs⟩ := hk.exists_top hf hleaf'
      obtain ⟨bs, hbs, hmap⟩ := s.st.branch_eq_some.mp hxs
      obtain ⟨b, bs, rfl, rfl, -⟩ := List.map_eq_cons_iff.mp hmap
      rw [hst, hhold]
      refine hp.take (fun v hvw hv => ?_) hbs
      rwa [Function.update_of_ne hvw] at hv
  | @renews _ w root ha hw hroot hst hhold hsize =>
    refine ⟨?_, ?_⟩
    · rw [hst, hhold, hsize, Chains.cactus_release]
      exact hk.renew hw (s.st.branch_eq_none.mpr hroot)
    · rw [hst, hhold]
      refine hp.release hk hroot fun v hvw hv => ?_
      rwa [Function.update_of_ne hvw] at hv
  | @plants r root grow hr hroot hst hhold hsize =>
    refine ⟨?_, ?_⟩
    · rw [hst, hhold, hsize, Chains.cactus_plant]
      exact hk.plant hr (s.st.branch_eq_none.mpr hroot)
    · rw [hst, hhold]
      exact hp.plant hk hroot
  | @more w f grow hw hst hhold hsize =>
    refine ⟨?_, ?_⟩
    · rw [hst, hhold, hsize]
      unfold Chains.coNew
      rw [← Chains.newFrame, Chains.cactus_newFrame]
      exact hk.again hw
    · rw [hst, hhold]
      exact hp.newFrame hk (fun _ hv => hv) (by simp [hw])
  | @fewer w f hw hf hst hhold hsize =>
    have hhome := (hk.home_of_top hw).1
    refine ⟨?_, ?_⟩
    · rw [hst, hhold, hsize]
      unfold Chains.coDelete
      rw [Chains.cactus_record _ _ _ (s.st.cactus_deallocate w) hhome]
      exact hk.shrink hw hf
    · obtain ⟨xs, hxs⟩ := hk.exists_again hw hf
      obtain ⟨bs, hbs, hmap⟩ := s.st.branch_eq_some.mp hxs
      obtain ⟨b, bs, rfl, rfl, hmap⟩ := List.map_eq_cons_iff.mp hmap
      obtain ⟨b', bs, rfl, hb, -⟩ := List.map_eq_cons_iff.mp hmap
      rw [hst, hhold]
      exact hp.coDelete hk (by simp [hw]) hbs hb

end Libfork.Stacks
