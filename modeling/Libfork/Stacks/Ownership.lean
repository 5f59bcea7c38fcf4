import Libfork.Stacks.Asserts

/-!
# Who owns which stack

A worker owns the chain that its stack points to, but between the point where another worker may
take the chain over and `release()`.

* `State.Owns` — ownership, told by what the code itself compares.
* **`owner_of_run`** — a chain has one owner at most; one without an owner has the frame of a live
  task on top; no frame is lost.
* `Fate`, **`fate_of_run`** — what a step can do to a chain, and to who owns it: all use is by
  the owner, nobody takes a chain over that has an owner, and only an empty chain is freed.
* **`chains_of_run`** — when no task is left, every chain is empty and has an owner.

Source: `promise.hpp`, `final_await_suspend`; `awaitables.hpp`; `resume.hpp`; `stack.hpp`.
-/

namespace Libfork.Stacks

open Libfork.Found Libfork.Join Libfork.Runtime

variable {T : Tree} {s s' : State} {a : Act} {as : List Act} {v w f c k : ℕ}

/-! ## Owners -/

namespace State

variable (s) (w) (k)

/-- Between the point where another worker may take its chain over, and `release()`. -/
def GivenUp : Prop :=
  match s.rt.pc w with
  | .lost _ => s.pStacklet w = s.cStacklet w
  | .switched _ steals => steals = 0
  | _ => False

/-- The chain with root `k` is the stack of `w`, and not given up. -/
def Owns : Prop := ¬ s.GivenUp w ∧ (s.st.top w).root = k

variable {s} {w} {k}

/-- A worker that has given up its chain holds none. -/
theorem givenUp_iff : s.GivenUp w ↔ s.hold T w = .gone := by
  unfold GivenUp hold under
  split
  · next c hpc =>
    simp only [hpc]
    split_ifs with hsame
    · exact iff_of_true hsame rfl
    · exact iff_of_false hsame (by simp)
  · next f n hpc =>
    simp only [hpc]
    split_ifs with hz
    · exact iff_of_true hz rfl
    · exact iff_of_false hz (by simp)
  · next hlost hswitched =>
    split
    · split_ifs <;> simp
    · split_ifs <;> simp
    · split_ifs <;> simp
    · next c hpc => exact absurd hpc (hlost c)
    · next f n hpc => exact absurd hpc (hswitched f n)
    · simp

/-- A worker that holds a chain owns it. -/
theorem owns_iff : s.Owns w k ↔ s.hold T w ≠ .gone ∧ s.st.cactus.hand w = k := by
  unfold Owns
  rw [givenUp_iff]
  rfl

end State

/-- What a worker owns is there. -/
theorem InOrder.chain_of_owns (hs : InOrder T s) (hw : s.Owns w k) :
    ∃ bs, s.st.chain k = some bs ∧ (s.st.top w).depth = depthOf bs := by
  obtain ⟨hgone, rfl⟩ := (s.owns_iff (T := T)).mp hw
  have hchain : ∃ bs, s.st.chain (s.st.mFib w).root = some bs := by
    cases hhold : s.hold T w with
    | gone => exact absurd hhold hgone
    | bare => exact ⟨[], chain_of_bare hs.kept hhold⟩
    | top f =>
      obtain ⟨b, bs, hbs, -⟩ := chain_of_top hs.kept hhold
      exact ⟨_, hbs⟩
  obtain ⟨bs, hbs⟩ := hchain
  exact ⟨bs, hbs, hs.pointed.top w bs hgone hbs⟩

/-- The blocks of a chain are those of the live tasks on it. -/
theorem InOrder.mem_chain (hs : InOrder T s) {bs : List Block} (hbs : s.st.chain k = some bs)
    {b : Block} (hb : b ∈ bs) : (s.rt.loc b.task).ended = false ∧ s.home b.task = k := by
  have hxs := s.st.branch_eq_some.mpr ⟨bs, hbs, rfl⟩
  obtain ⟨hhome, hsize⟩ := (hs.kept.mem_iff hxs).mp (List.mem_map_of_mem hb)
  exact ⟨s.size_pos_iff.mp hsize, hhome⟩

/-- **A chain has one owner at most.** What is owned is there, and the stack of the owner points to
its newest block. A chain without an owner has a live task on top. All blocks of a live task are
on the chain that its frame remembers, and a chain has no other blocks. -/
theorem owner_of_run (h : (machine T).Run (FewSteals T) .init as s) :
    (∀ v w k, s.Owns v k → s.Owns w k → v = w) ∧
    (∀ w k, s.Owns w k → ∃ bs, s.st.chain k = some bs ∧ (s.st.top w).depth = depthOf bs) ∧
    (∀ k bs, s.st.chain k = some bs → (∃ w, s.Owns w k) ∨
      ∃ b ∈ bs.head?, (s.rt.loc b.task).ended = false) ∧
    (∀ f, (s.rt.loc f).ended = false → ∃ bs, s.st.chain (s.st.mStacklet f).root = some bs ∧
      (bs.map Block.task).count f = s.allocs f + 1) ∧
    ∀ k bs, s.st.chain k = some bs → ∀ b ∈ bs,
      (s.rt.loc b.task).ended = false ∧ (s.st.mStacklet b.task).root = k := by
  have hs := (owned_of_run h).inOrder
  refine ⟨?_, fun w k => hs.chain_of_owns, ?_, ?_, fun k bs hbs b => hs.mem_chain hbs⟩
  · intro v w k hv hw
    obtain ⟨hv, hvk⟩ := (s.owns_iff (T := T)).mp hv
    obtain ⟨hw, hwk⟩ := (s.owns_iff (T := T)).mp hw
    exact hs.kept.apart v w hv hw (hvk.trans hwk.symm)
  · intro k bs hbs
    cases bs with
    | nil =>
      obtain ⟨w, hw, hwk⟩ := hs.kept.bare k (s.st.branch_eq_some.mpr ⟨[], hbs, rfl⟩)
      exact Or.inl ⟨w, (s.owns_iff (T := T)).mpr ⟨by simp [hw], hwk⟩⟩
    | cons b bs => exact Or.inr ⟨b, rfl, (hs.mem_chain hbs List.mem_cons_self).1⟩
  · intro f hf
    obtain ⟨xs, hxs, -⟩ := hs.kept.exists_branch (s.size_pos_iff.mpr hf)
    have hcount := hs.kept.count _ _ f hxs
    obtain ⟨bs, hbs, rfl⟩ := s.st.branch_eq_some.mp hxs
    rw [if_pos rfl] at hcount
    refine ⟨bs, hbs, hcount.trans ?_⟩
    unfold State.size
    rw [hf]
    rfl

/-- Once the first worker of `pair` has given its stack up, nobody owns it, and the root is on
top. -/
theorem owner_of_run_handover : ∃ s, (machine .pair).Run (FewSteals .pair) .init handover s ∧
    s.GivenUp 0 ∧ ∀ v w, s.Owns v 1 → s.Owns w 1 → v = w := by
  obtain ⟨s, s', hrun, -, -, hpc, -⟩ := run_handover
  have hat : ((machine .pair).exec Machine.free .init handover).map (fun s =>
      decide (s.pStacklet 0 = s.cStacklet 0)) = some true := by decide +kernel
  have hfree : (machine .pair).Run Machine.free .init handover s :=
    hrun.mono fun _ _ _ => trivial
  rw [Machine.run_iff_exec.mp hfree, Option.map_some, Option.some.injEq, decide_eq_true_eq] at hat
  refine ⟨s, hrun, ?_, fun v w => (owner_of_run hrun).1 v w 1⟩
  unfold State.GivenUp
  rw [hpc]
  exact hat

/-! ## What becomes of a chain -/

/-- What a step can do to the chain with root `k`, and to who owns it. -/
inductive Fate (T : Tree) (s s' : State) (a : Act) (k : ℕ) : Prop
  /-- Nothing. -/
  | untouched (hchain : s'.st.chain k = s.st.chain k) (howns : ∀ v, s'.Owns v k ↔ s.Owns v k)
  /-- Its owner allocates a block. -/
  | pushed {w : ℕ} {b : Block} {bs : List Block} (ha : a.mover = some w) (hw : s.Owns w k)
      (hchain : s.st.chain k = some bs) (hchain' : s'.st.chain k = some (b :: bs))
      (howns : ∀ v, s'.Owns v k ↔ s.Owns v k)
  /-- Its owner deallocates the newest block. -/
  | popped {w : ℕ} {b : Block} {bs : List Block} (ha : a.mover = some w) (hw : s.Owns w k)
      (hchain : s.st.chain k = some (b :: bs)) (hchain' : s'.st.chain k = some bs)
      (howns : ∀ v, s'.Owns v k ↔ s.Owns v k)
  /-- Its owner gives it up, with something on it. -/
  | givenUp {w : ℕ} {b : Block} {bs : List Block} (ha : a.mover = some w) (hw : s.Owns w k)
      (hchain : s.st.chain k = some (b :: bs)) (hchain' : s'.st.chain k = s.st.chain k)
      (hnone : ∀ v, ¬ s'.Owns v k)
  /-- Nobody owns it, and a worker takes it over that goes on with the task on top. -/
  | takenOver {a' : Runtime.Act} {grow : Bool} {root w : ℕ} {b : Block} {bs : List Block}
      (ha : a = .code a' grow root) (hcont : Continues T s a' w b.task)
      (hnone : ∀ v, ¬ s.Owns v k) (hchain : s.st.chain k = some (b :: bs))
      (hchain' : s'.st.chain k = s.st.chain k) (hw : s'.Owns w k)
  /-- It is empty, and its owner takes another one over. -/
  | freed {a' : Runtime.Act} {grow : Bool} {root w f : ℕ} (ha : a = .code a' grow root)
      (hcont : Continues T s a' w f) (hw : s.Owns w k) (hchain : s.st.chain k = some [])
      (hchain' : s'.st.chain k = none) (hnone : ∀ v, ¬ s'.Owns v k)
  /-- A worker that has given its chain up begins this one. -/
  | begun {w : ℕ} (ha : a.mover = some w) (hw : s.GivenUp w) (hchain : s.st.chain k = none)
      (hchain' : s'.st.chain k = some []) (hw' : s'.Owns w k)
  /-- The outside begins it, with the frame of a root. -/
  | planted {r depth root : ℕ} {grow : Bool} (ha : a = .code (.spawn r) grow root)
      (hchain : s.st.chain k = none) (hchain' : s'.st.chain k = some [⟨r, depth⟩])
      (hnone : ∀ v, ¬ s'.Owns v k)

/-- Who holds what they held, on the chains that they held, owns what they owned. -/
theorem owns_same (hhold : ∀ v, s'.hold T v = .gone ↔ s.hold T v = .gone)
    (hhand : s'.st.cactus.hand = s.st.cactus.hand) (v k : ℕ) : s'.Owns v k ↔ s.Owns v k := by
  rw [State.owns_iff (T := T), State.owns_iff (T := T), hhand, ne_eq, ne_eq, hhold v]

/-- A worker that has something else of its chain has it still. -/
theorem gone_update {hold : ℕ → Hold ℕ} {l : Hold ℕ} (hw : hold w ≠ .gone) (hl : l ≠ .gone)
    (v : ℕ) : Function.update hold w l v = .gone ↔ hold v = .gone := by
  by_cases hv : v = w
  · rw [hv, Function.update_self]
    exact iff_of_false hl hw
  · rw [Function.update_of_ne hv]

/-- A worker that has given its chain up owns none; the others own what they owned. -/
theorem owns_givenUp (hhold : s'.hold T = Function.update (s.hold T) w .gone)
    (hhand : s'.st.cactus.hand = s.st.cactus.hand) :
    ∀ v k, s'.Owns v k ↔ v ≠ w ∧ s.Owns v k := by
  intro v k
  rw [State.owns_iff (T := T), State.owns_iff (T := T), hhand, hhold]
  by_cases hv : v = w
  · rw [hv, Function.update_self]
    simp
  · rw [Function.update_of_ne hv]
    simp [hv]

/-- A worker with another chain owns that one; the others own what they owned. -/
theorem owns_moved {l : Hold ℕ} {r : ℕ} (hhold : s'.hold T = Function.update (s.hold T) w l)
    (hl : l ≠ .gone) (hhand : s'.st.cactus.hand = Function.update s.st.cactus.hand w r) :
    ∀ v k, s'.Owns v k ↔ if v = w then r = k else s.Owns v k := by
  intro v k
  rw [State.owns_iff (T := T), State.owns_iff (T := T), hhand, hhold]
  by_cases hv : v = w
  · rw [hv, Function.update_self, Function.update_self, if_pos rfl]
    simp [hl]
  · rw [Function.update_of_ne hv, Function.update_of_ne hv, if_neg hv]

/-- A worker allocates on the chain that it owns. -/
theorem fate_newFrame {grow : Bool} (hs : InOrder T s) (ha : a.mover = some w)
    (hw : s.hold T w ≠ .gone) (hst : s'.st = s.st.newFrame w c grow)
    (hhold : ∀ v, s'.hold T v = .gone ↔ s.hold T v = .gone) (k : ℕ) : Fate T s s' a k := by
  have howns := owns_same hhold (by rw [hst, Chains.cactus_newFrame]; rfl)
  have hown : s.Owns w (s.st.mFib w).root := (s.owns_iff (T := T)).mpr ⟨hw, rfl⟩
  obtain ⟨bs, hbs, -⟩ := hs.chain_of_owns hown
  have hchain : s'.st.chain = Function.update s.st.chain (s.st.mFib w).root
      (some (⟨c, (s.st.next w grow).depth⟩ :: bs)) := by
    rw [hst]
    unfold Chains.newFrame Chains.record Chains.allocate
    dsimp only
    rw [hbs]
    rfl
  by_cases hkw : k = (s.st.mFib w).root
  · subst hkw
    exact .pushed ha hown hbs (by rw [hchain, Function.update_self]) fun v => howns v _
  · exact .untouched (by rw [hchain, Function.update_of_ne hkw]) fun v => howns v k

/-- A worker deallocates the newest block of the chain that it owns. -/
theorem fate_deallocate (hs : InOrder T s) (ha : a.mover = some w) (hw : s.hold T w = .top f)
    (hst : s'.st.chain = (s.st.deallocate w).chain)
    (hhand : s'.st.cactus.hand = s.st.cactus.hand)
    (hhold : ∀ v, s'.hold T v = .gone ↔ s.hold T v = .gone) (k : ℕ) : Fate T s s' a k := by
  have hgone : s.hold T w ≠ .gone := by simp [hw]
  have howns := owns_same hhold hhand
  have hown : s.Owns w (s.st.mFib w).root := (s.owns_iff (T := T)).mpr ⟨hgone, rfl⟩
  obtain ⟨b, bs, hbs, -⟩ := chain_of_top hs.kept hw
  have hchain := hst.trans (hs.pointed.deallocate_top hgone hbs).1
  by_cases hkw : k = (s.st.mFib w).root
  · subst hkw
    exact .popped ha hown hbs (by rw [hchain, Function.update_self]) fun v => howns v _
  · exact .untouched (by rw [hchain, Function.update_of_ne hkw]) fun v => howns v k

/-- **What becomes of a chain**, given what the step does. -/
theorem fate_of_effect (h : Effect T s s' a) (hs : InOrder T s) (k : ℕ) : Fate T s s' a k := by
  have hk := hs.kept
  have hown : ∀ {v}, s.hold T v ≠ .gone → s.Owns v (s.st.mFib v).root := fun hv =>
    (s.owns_iff (T := T)).mpr ⟨hv, rfl⟩
  have hunique : ∀ {v w k}, s.hold T w ≠ .gone → (s.st.mFib w).root = k → s.Owns v k → v = w := by
    intro v w k hw hwk hv
    obtain ⟨hv, hvk⟩ := (s.owns_iff (T := T)).mp hv
    exact hk.apart v w hv hw (hvk.trans hwk.symm)
  cases h with
  | quiet hst hhold hsize =>
    refine .untouched (by rw [hst]) fun v => owns_same (T := T) (fun v => ?_) (by rw [hst]) v k
    rw [hhold]
  | @givesUp _ w f ha hw hst hhold hsize =>
    have howns := owns_givenUp hhold (by rw [hst])
    by_cases hkw : k = (s.st.mFib w).root
    · obtain ⟨b, bs, hbs, -⟩ := chain_of_top hk hw
      refine .givenUp ha (hkw ▸ hown (by simp [hw])) (hkw ▸ hbs) (by rw [hst]) fun v hv => ?_
      obtain ⟨hvw, hv⟩ := (howns v k).mp hv
      exact hvw (hunique (by simp [hw]) hkw.symm hv)
    · refine .untouched (by rw [hst]) fun v => (howns v k).trans (and_iff_right_of_imp ?_)
      rintro ⟨-, hvk⟩ rfl
      exact hkw hvk.symm
  | @begins _ w c grow ha ht hw hc hst hhold hsize =>
    have hgone : s.hold T w ≠ .gone := by rcases hw with hw | hw <;> simp [hw]
    refine fate_newFrame hs ha hgone hst (fun v => ?_) k
    rw [hhold]
    exact gone_update hgone (by simp) v
  | @ends _ w c l ha hw hc hroot hpar hst hhold hsize =>
    have hl : l ≠ .gone := by
      by_cases ht : T.tag c = .root
      · simp [hroot ht]
      · rw [(hpar ht).2]
        unfold State.under
        split_ifs <;> simp
    refine fate_deallocate hs ha hw (by rw [hst]) ?_ (fun v => ?_) k
    · rw [hst, Chains.cactus_deallocate]
      rfl
    · rw [hhold]
      exact gone_update (by simp [hw]) hl v
  | @takes a' grow w f root hcont hw hf hnone hleaf hst hhold hsize =>
    have howns := owns_moved (r := s.home f) hhold (by simp)
      (by rw [hst, Chains.cactus_take]; rfl)
    have hbare := chain_of_bare hk hw
    have hne : s.home f ≠ (s.st.mFib w).root := hk.home_ne_of_bare hw hf
    have hchain : s'.st.chain = Function.update s.st.chain (s.st.mFib w).root none := by
      rw [hst]
      rfl
    obtain ⟨xs, hxs⟩ := hk.exists_top hf fun c hc => by
      obtain ⟨ht, hpar⟩ := beneath_eq_some hc
      exact hleaf c ht hpar
    have hunheld : ∀ v, ¬ s.Owns v (s.home f) := by
      intro v hv
      obtain ⟨hv, hvk⟩ := (s.owns_iff (T := T)).mp hv
      exact hk.unheld hxs hnone hv hvk
    by_cases hkw : k = (s.st.mFib w).root
    · subst hkw
      refine .freed rfl hcont (hown (by simp [hw])) hbare (by rw [hchain, Function.update_self]) ?_
      intro v hv
      rw [howns] at hv
      split_ifs at hv with hvw
      · exact hne hv
      · exact hvw (hunique (by simp [hw]) rfl hv)
    · have hsame : s'.st.chain k = s.st.chain k := by rw [hchain, Function.update_of_ne hkw]
      by_cases hkf : k = s.home f
      · subst hkf
        obtain ⟨bs, hbs, hmap⟩ := s.st.branch_eq_some.mp hxs
        obtain ⟨b, bs, rfl, rfl, -⟩ := List.map_eq_cons_iff.mp hmap
        refine .takenOver rfl hcont hunheld hbs hsame ?_
        rw [howns, if_pos rfl]
      · refine .untouched hsame fun v => ?_
        rw [howns]
        split_ifs with hvw
        · refine iff_of_false (Ne.symm hkf) fun hv => hkw ?_
          rw [hvw] at hv
          exact hv.2.symm
        · rfl
  | @renews _ w root ha hw hroot hst hhold hsize =>
    have howns := owns_moved (r := root) hhold (by simp)
      (by rw [hst, Chains.cactus_release]; rfl)
    have hchain : s'.st.chain = Function.update s.st.chain root (some []) := by
      rw [hst]
      rfl
    by_cases hkr : k = root
    · subst hkr
      refine .begun ha (State.givenUp_iff.mpr hw) hroot (by rw [hchain, Function.update_self]) ?_
      rw [howns, if_pos rfl]
    · refine .untouched (by rw [hchain, Function.update_of_ne hkr]) fun v => ?_
      rw [howns]
      split_ifs with hvw
      · refine iff_of_false (Ne.symm hkr) fun hv => ?_
        rw [hvw] at hv
        exact hv.1 (State.givenUp_iff.mpr hw)
      · rfl
  | @plants r root grow hr hroot hst hhold hsize =>
    have hheld : ∀ v, s'.hold T v = .gone ↔ s.hold T v = .gone := fun v => by rw [hhold]
    have howns := owns_same hheld (by rw [hst, Chains.cactus_plant]; rfl)
    have hchain : s'.st.chain = Function.update s.st.chain root (some [⟨r, grow.toNat⟩]) := by
      rw [hst]
      rfl
    by_cases hkr : k = root
    · subst hkr
      refine .planted rfl hroot (by rw [hchain, Function.update_self]) fun v hv => ?_
      obtain ⟨bs, hbs, -⟩ := hs.chain_of_owns ((howns v k).mp hv)
      cases hroot.symm.trans hbs
    · exact .untouched (by rw [hchain, Function.update_of_ne hkr]) fun v => howns v k
  | @more w f grow hw hst hhold hsize =>
    exact fate_newFrame hs rfl (by simp [hw]) hst (fun v => by rw [hhold]) k
  | @fewer w f hw hf hst hhold hsize =>
    refine fate_deallocate hs rfl hw (by rw [hst]; rfl) ?_ (fun v => by rw [hhold]) k
    rw [hst]
    unfold Chains.coDelete
    rw [Chains.cactus_record _ _ _ (s.st.cactus_deallocate w) (hk.home_of_top hw).1]
    rfl

/-- **What becomes of a chain**, in any step of any run. -/
theorem fate_of_run (h : (machine T).Run (FewSteals T) .init as s)
    (hstep : (machine T).step s a = some s') (k : ℕ) : Fate T s s' a k :=
  fate_of_effect (effect_of_step hstep (owned_of_run h)) (owned_of_run h).inOrder k

/-- The thief of `pair` takes the chain of the root over. -/
theorem fate_of_run_handover :
    ∃ s s' : State, s.rt.pc 1 = .joinLoad 0 ∧ s.st.chain 1 = some [⟨0, 0⟩] ∧
    Fate .pair s s' (.code (.step 1) false 3) 1 := by
  obtain ⟨s, s', hrun, -, hstep, -, hpc, -, hchain⟩ := run_handover
  exact ⟨s, s', hpc, hchain, fate_of_run hrun hstep 1⟩

/-- **No chain is lost.** When no task is left, every chain is empty, and some worker owns it. -/
theorem chains_of_run (h : (machine T).Run (FewSteals T) .init as s)
    (hend : ∀ f, (s.rt.loc f).ended = true) {bs : List Block} (hbs : s.st.chain k = some bs) :
    bs = [] ∧ ∃ w, s.Owns w k ∧ s.st.empty w = true := by
  have hs := owned_of_run h
  cases bs with
  | cons b bs =>
    have hlive := (hs.inOrder.mem_chain hbs List.mem_cons_self).1
    cases hlive.symm.trans (hend _)
  | nil =>
    obtain ⟨w, hw, hwk⟩ := hs.inOrder.kept.bare k (s.st.branch_eq_some.mpr ⟨[], hbs, rfl⟩)
    exact ⟨rfl, w, (s.owns_iff (T := T)).mpr ⟨by simp [hw], hwk⟩, hs.empty hw⟩

/-- The tasks of `pair` end on one chain. -/
theorem chains_of_run_handover : ∃ s, (machine .pair).Run (FewSteals .pair) .init
    (handover ++ [.code (.step 1) false 3, .code (.ret 1) false 3, .code (.step 0) false 3]) s ∧
    ∃ w, s.Owns w 1 ∧ s.st.empty w = true := by
  have hexec : ((machine .pair).exec Machine.free .init (handover ++
      [.code (.step 1) false 3, .code (.ret 1) false 3, .code (.step 0) false 3])).map
      (fun s => (s.st.chain 1, (s.rt.loc 0).ended, (s.rt.loc 1).ended)) =
      some (some [], true, true) := by decide +kernel
  have hother : ∀ f, ((machine .pair).exec Machine.free .init (handover ++
      [.code (.step 1) false 3, .code (.ret 1) false 3, .code (.step 0) false 3])).map
      (fun s => (s.rt.loc (f + 2)).ended) = some true := fun _ => rfl
  obtain ⟨s, hs, heq⟩ := Option.map_eq_some_iff.mp hexec
  rw [hs] at hother
  simp only [Option.map_some, Option.some.injEq] at hother
  simp only [Prod.mk.injEq] at heq
  have hrun := run_fewSteals (n := 0) (Machine.run_iff_exec.mpr hs) (fun _ => Nat.le_refl 0)
    (by simp [handover])
  refine ⟨s, hrun, (chains_of_run hrun ?_ heq.1).2⟩
  intro f
  rcases f with _ | _ | f
  · exact heq.2.1
  · exact heq.2.2
  · exact hother f

/-! ## How the code tells -/

/-- **What the code looks at tells who owns what.** A task that runs is on the stack of its worker
exactly where its steal counter is zero; where it is not, the stack is empty. A worker that has
not popped the parent of what it ran shares the chain with the parent exactly where the two
stacklets that it compares are the same; where they are not, its stack is empty. -/
theorem tests_of_run (h : (machine T).Run (FewSteals T) .init as s) :
    (∀ w f, s.rt.pc w = .run f →
      ((s.rt.task f).frame.loadSteals = 0 ↔ (s.st.mStacklet f).root = (s.st.top w).root) ∧
      ((s.rt.task f).frame.loadSteals = 0 → s.st.mStacklet f = s.st.top w) ∧
      ((s.rt.task f).frame.loadSteals ≠ 0 → s.st.empty w = true)) ∧
    ∀ w c, s.rt.pc w = .subJoin c →
      (s.pStacklet w = s.cStacklet w ↔
        (s.st.mStacklet (T.parent c)).root = (s.st.top w).root) ∧
      (s.pStacklet w ≠ s.cStacklet w → s.st.empty w = true) := by
  have hs := owned_of_run h
  have hk := hs.inOrder.kept
  constructor
  · intro w f hpc
    have hrun : s.rt.loc f = .run w := hs.inv.run_loc (by rw [hpc]; rfl)
    have hf : 0 < s.size f := s.size_pos_iff.mpr (by rw [hrun]; rfl)
    refine ⟨?_, fun hz => hs.top_eq (hold_run hpc hz),
      fun hz => hs.empty (hold_run_of_ne hpc hz)⟩
    by_cases hz : s.rt.steals f = 0
    · exact iff_of_true hz (hk.home_of_top (hold_run hpc hz)).1
    · exact iff_of_false hz (hk.home_ne_of_bare (hold_run_of_ne hpc hz) hf)
  · intro w c hpc
    have hret : (s.rt.pc w).returned = some c := by rw [hpc]; rfl
    have hw := hold_returned (T := T) hret
    unfold State.under at hw
    have hp := hs.inv.ended_parent (by simp [hs.inv.fork_of_returned hret])
      (hs.inv.alive_of_returned hret)
    have hlook := looked_iff hs hpc
    by_cases hhome : s.home c = s.home (T.parent c)
    · rw [if_pos hhome] at hw
      exact ⟨iff_of_true (hlook.mpr hhome) (hk.home_of_top hw).1,
        fun hne => absurd (hlook.mpr hhome) hne⟩
    · rw [if_neg hhome] at hw
      exact ⟨iff_of_false (fun heq => hhome (hlook.mp heq))
        (hk.home_ne_of_bare hw (s.size_pos_iff.mpr hp)), fun _ => hs.empty hw⟩

/-- The thief of `pair` is on another stack than the root. -/
theorem tests_of_run_handover : ∃ s, (machine .pair).Run (FewSteals .pair) .init
    (handover.take 7) s ∧ s.rt.pc 1 = .run 0 ∧ s.st.empty 1 = true := by
  have hexec : ((machine .pair).exec Machine.free .init (handover.take 7)).map
      (fun s => (s.rt.pc 1, (s.rt.task 0).frame.loadSteals)) = some (.run 0, 1) := by decide +kernel
  obtain ⟨s, hs, heq⟩ := Option.map_eq_some_iff.mp hexec
  obtain ⟨hpc, hsteals⟩ := Prod.mk.inj heq
  have hrun := run_fewSteals (n := 0) (Machine.run_iff_exec.mpr hs) (fun _ => Nat.le_refl 0)
    (by simp [handover])
  exact ⟨s, hrun, hpc, ((tests_of_run hrun).1 1 0 hpc).2.2 (by simp [hsteals])⟩

/-! ## Blocks go in the order in which they came -/

/-- The worker and the task for which a step deallocates a block. -/
def State.frees (s : State) : Act → Option (ℕ × ℕ)
  | .code (.ret w) _ _ => (s.rt.running w).map (w, ·)
  | .coDelete w => (s.outside w).map (w, ·)
  | _ => none

/-- **A block that is deallocated is the newest of its chain**, it is in the stacklet on top, and
the worker that deallocates it owns the chain. A frame goes last of the blocks of its task. -/
theorem frees_of_run (h : (machine T).Run (FewSteals T) .init as s)
    (hstep : (machine T).step s a = some s') (hfree : s.frees a = some (w, f)) :
    ∃ bs, s.Owns w (s.st.top w).root ∧
      s.st.chain (s.st.top w).root = some (⟨f, (s.st.top w).depth⟩ :: bs) ∧
      s'.st.chain (s.st.top w).root = some bs ∧
      s'.st.top w = ⟨(s.st.top w).root, depthOf bs⟩ ∧
      (f ∈ bs.map Block.task ↔ a = .coDelete w) := by
  have hs := owned_of_run h
  have hmain : ∀ st : Chains, s.hold T w = .top f → st.chain = (s.st.deallocate w).chain →
      st.mFib = (s.st.deallocate w).mFib → ∃ bs, s.Owns w (s.st.top w).root ∧
        s.st.chain (s.st.top w).root = some (⟨f, (s.st.top w).depth⟩ :: bs) ∧
        st.chain (s.st.top w).root = some bs ∧ st.mFib w = ⟨(s.st.top w).root, depthOf bs⟩ ∧
        (f ∈ bs.map Block.task ↔ 1 < s.size f) := by
    intro st hw hchain hfib
    have hgone : s.hold T w ≠ .gone := by simp [hw]
    obtain ⟨b, bs, hbs, rfl⟩ := chain_of_top hs.inOrder.kept hw
    obtain ⟨hchain', hfib', -⟩ := hs.inOrder.pointed.deallocate_top hgone hbs
    have hdepth : (s.st.mFib w).depth = b.depth := hs.inOrder.pointed.top w _ hgone hbs
    have hcount := hs.inOrder.kept.count _ _ b.task (s.st.branch_eq_some.mpr ⟨_, hbs, rfl⟩)
    have hhome : s.st.cactus.home b.task = (s.st.mFib w).root :=
      (hs.inOrder.kept.home_of_top hw).1
    rw [if_pos hhome, List.map_cons, List.count_cons_self] at hcount
    refine ⟨bs, (s.owns_iff (T := T)).mpr ⟨hgone, rfl⟩, ?_, ?_, ?_, ?_⟩
    · unfold Chains.top
      rw [hdepth]
      exact hbs
    · rw [hchain, hchain']
      exact Function.update_self ..
    · rw [hfib, hfib', Function.update_self]
      rfl
    · rw [← List.count_pos_iff]
      omega
  rcases step_cases hstep with ⟨b, grow, root, rt, rfl, -, hstrict, hrt, rfl⟩ |
    ⟨v, g, grow, rfl, -, -⟩ | ⟨v, g, rfl, hg, hpos, rfl⟩
  · cases b with
    | ret v =>
      obtain ⟨g, hg, heq⟩ := Option.map_eq_some_iff.mp hfree
      obtain ⟨rfl, rfl⟩ := Prod.mk.inj heq
      obtain ⟨hpc, haw⟩ := running_eq_some.mp hg
      have hscope : (s.rt.task g).scope = false := by
        simp only [Runtime.machine, hg] at hrt
        split_ifs at hrt with hscope
        exact hscope
      obtain ⟨hw, hsize⟩ := hold_of_ret hs hstrict hpc haw hscope
      obtain ⟨bs, hown, hbs, hbs', htop, hmem⟩ := hmain (s.st.deallocate v) hw rfl rfl
      exact ⟨bs, hown, hbs, hbs', htop, hmem.trans (by simp [hsize])⟩
    | _ => cases hfree
  · cases hfree
  · obtain ⟨g', hg', heq⟩ := Option.map_eq_some_iff.mp hfree
    obtain ⟨rfl, rfl⟩ := Prod.mk.inj heq
    obtain rfl : g = g' := Option.some.inj (hg.symm.trans hg')
    obtain ⟨hpc, hw, -⟩ := hold_of_outside hs hg
    have hrun : s.rt.loc g = .run v := hs.inv.run_loc (by rw [hpc]; rfl)
    have hsize : s.size g = s.allocs g + 1 := by
      unfold State.size
      rw [hrun]
      rfl
    obtain ⟨bs, hown, hbs, hbs', htop, hmem⟩ := hmain (s.st.coDelete v g) hw rfl rfl
    exact ⟨bs, hown, hbs, hbs', htop, hmem.trans (by simp [hsize, hpos])⟩

/-- The child of `pair` frees its frame, which lies over that of the root. -/
theorem frees_of_run_handover : ∃ s s', (machine .pair).Run (FewSteals .pair) .init
    (handover.take 8) s ∧ (machine .pair).step s (.code (.ret 0) false 3) = some s' ∧
    ∃ bs, s'.st.chain (s.st.top 0).root = some bs ∧ 1 ∉ bs.map Block.task := by
  obtain ⟨s'', -, hrun, -⟩ := run_handover
  have hsplit : handover = handover.take 8 ++ .code (.ret 0) false 3 :: handover.drop 9 := rfl
  rw [hsplit] at hrun
  obtain ⟨s, hs, -, s', hstep, -⟩ := Machine.run_append.mp hrun
  have hat : ((machine .pair).exec Machine.free .init (handover.take 8)).map
      (fun s => s.frees (.code (.ret 0) false 3)) = some (some (0, 1)) := by decide +kernel
  have hfree : (machine .pair).Run Machine.free .init (handover.take 8) s :=
    hs.mono fun _ _ _ => trivial
  rw [Machine.run_iff_exec.mp hfree, Option.map_some, Option.some.injEq] at hat
  obtain ⟨bs, -, -, hbs, -, hmem⟩ := frees_of_run hs hstep hat
  exact ⟨s, s', hs, hstep, bs, hbs, fun h => nomatch hmem.mp h⟩

end Libfork.Stacks
