import Libfork.Found.Cactus
import Libfork.Stacks.Model

/-!
# Pointers to stacklets

A stack points to the stacklet of its newest block, and a frame remembers the stacklet of the
newest block of its task. What happens to the chains, apart from that, is what happens to the
branches of a cactus stack.

* `Chains.cactus` — the branches.
* `Stacked` — no stacklet but the root is without a block.
* `Pointed` — the pointers are right, where a worker holds the chain.
* The rules after it, one for each operation.

Source: `stack.hpp`; `frame.hpp`, `m_stacklet`.
-/

namespace Libfork.Stacks

open Libfork.Found Libfork.Runtime

/-! ## Chains as branches -/

/-- The chains, without their stacklets. -/
def Chains.cactus (st : Chains) : Cactus ℕ ℕ ℕ where
  branch k := (st.chain k).map (·.map Block.task)
  hand w := (st.mFib w).root
  home f := (st.mStacklet f).root

namespace Chains

variable (st : Chains) (w f root : ℕ) (grow : Bool)

/-- The branches are the chains, without the depths. -/
theorem branch_eq_some {k : ℕ} {xs : List ℕ} :
    st.cactus.branch k = some xs ↔ ∃ bs, st.chain k = some bs ∧ bs.map Block.task = xs :=
  Option.map_eq_some_iff

/-- A chain is there when its branch is. -/
theorem branch_eq_none {k : ℕ} : st.cactus.branch k = none ↔ st.chain k = none :=
  Option.map_eq_none_iff

/-- A change of one chain is a change of one branch. -/
theorem map_update (k : ℕ) (c : Option (List Block)) :
    (fun j => (Function.update st.chain k c j).map (·.map Block.task)) =
      Function.update st.cactus.branch k (c.map (·.map Block.task)) := by
  funext j
  by_cases hj : j = k
  · rw [hj, Function.update_self, Function.update_self]
  · rw [Function.update_of_ne hj, Function.update_of_ne hj]
    rfl

/-- A stack that stays on its chain. -/
theorem root_update (p : Stacklet) (hp : p.root = (st.mFib w).root) :
    (fun v => (Function.update st.mFib w p v).root) = st.cactus.hand := by
  funext v
  by_cases hv : v = w
  · rw [hv, Function.update_self, hp]
    rfl
  · rw [Function.update_of_ne hv]
    rfl

/-- The next stacklet is on the same chain. -/
theorem next_root : (st.next w grow).root = (st.mFib w).root := by
  unfold next
  split_ifs <;> rfl

/-- A new frame is a push. -/
theorem cactus_newFrame : (st.newFrame w f grow).cactus = st.cactus.push w f := by
  apply Cactus.ext
  · refine (st.map_update _ _).trans (congrArg (Function.update _ _) ?_)
    change _ = ((st.chain (st.mFib w).root).map _).map _
    rw [Option.map_map, Option.map_map]
    rfl
  · exact st.root_update w _ (st.next_root w grow)
  · funext g
    change (Function.update st.mStacklet f (Function.update st.mFib w (st.next w grow) w) g).root =
      Function.update st.cactus.home f (st.mFib w).root g
    by_cases hg : g = f
    · rw [hg, Function.update_self, Function.update_self, Function.update_self, st.next_root]
    · rw [Function.update_of_ne hg, Function.update_of_ne hg]
      rfl

/-- A pointer that is set back is a pop. -/
theorem cactus_setSp : (st.setSp w).cactus = st.cactus.pop w := by
  apply Cactus.ext
  · refine (st.map_update _ _).trans (congrArg (Function.update _ _) ?_)
    change _ = ((st.chain (st.mFib w).root).map _).map _
    rw [Option.map_map, Option.map_map]
    congr 1
    funext bs
    exact List.map_tail
  · rfl
  · rfl

/-- So is a deallocation. -/
theorem cactus_deallocate : (st.deallocate w).cactus = st.cactus.pop w := by
  rw [← cactus_setSp]
  unfold deallocate
  split_ifs
  · apply Cactus.ext
    · rfl
    · exact st.root_update w _ rfl
    · rfl
  · rfl

/-- What a frame records is no matter of the cactus. -/
theorem cactus_record {c : Cactus ℕ ℕ ℕ} (hc : st.cactus = c) (hf : c.home f = c.hand w) :
    (st.record w f).cactus = c := by
  subst hc
  apply Cactus.ext
  · rfl
  · rfl
  · funext g
    change (Function.update st.mStacklet f (st.mFib w) g).root = _
    by_cases hg : g = f
    · rw [hg, Function.update_self, hf]
      rfl
    · rw [Function.update_of_ne hg]
      rfl

/-- Taking a chain over. -/
theorem cactus_take : (st.take w (st.mStacklet f)).cactus = st.cactus.take w f := by
  apply Cactus.ext
  · exact st.map_update _ _
  · funext v
    change (Function.update st.mFib w (st.mStacklet f) v).root =
      Function.update st.cactus.hand w (st.mStacklet f).root v
    by_cases hv : v = w
    · rw [hv, Function.update_self, Function.update_self]
    · rw [Function.update_of_ne hv, Function.update_of_ne hv]
      rfl
  · rfl

/-- Releasing a chain for a new one. -/
theorem cactus_release : (st.release w root).cactus = st.cactus.renew w root := by
  apply Cactus.ext
  · exact st.map_update _ _
  · funext v
    change (Function.update st.mFib w ⟨root, 0⟩ v).root = Function.update st.cactus.hand w root v
    by_cases hv : v = w
    · rw [hv, Function.update_self, Function.update_self]
    · rw [Function.update_of_ne hv, Function.update_of_ne hv]
      rfl
  · rfl

/-- Planting a root on a chain of its own. -/
theorem cactus_plant : (st.plant f root grow).cactus = st.cactus.plant f root := by
  apply Cactus.ext
  · exact st.map_update _ _
  · rfl
  · funext g
    change (Function.update st.mStacklet f ⟨root, grow.toNat⟩ g).root =
      Function.update st.cactus.home f root g
    by_cases hg : g = f
    · rw [hg, Function.update_self, Function.update_self]
    · rw [Function.update_of_ne hg, Function.update_of_ne hg]
      rfl

end Chains

/-! ## Pointers -/

/-- The stacklet of the newest block, or the root of an empty chain. -/
def depthOf : List Block → ℕ
  | [] => 0
  | b :: _ => b.depth

/-- Every stacklet between the root and the top has a block. -/
inductive Stacked : List Block → Prop
  | nil : Stacked []
  | cons {b : Block} {bs : List Block} (hb : b.depth = depthOf bs ∨ b.depth = depthOf bs + 1)
      (h : Stacked bs) : Stacked (b :: bs)

/-- No block is deeper than the newest one. -/
theorem Stacked.le {bs : List Block} (h : Stacked bs) : ∀ b ∈ bs, b.depth ≤ depthOf bs := by
  induction h with
  | nil => simp
  | @cons b bs hb _ ih =>
    intro b' hb'
    rcases List.mem_cons.mp hb' with rfl | hb'
    · exact Nat.le_refl _
    · have hle := ih b' hb'
      change b'.depth ≤ b.depth
      omega

/-- The older blocks are stacked as well. -/
theorem Stacked.tail {b : Block} {bs : List Block} (h : Stacked (b :: bs)) : Stacked bs := by
  cases h with
  | cons _ h => exact h

/-- The stacklet of a chain's newest block, once the block before it is gone. -/
theorem Stacked.depth_tail {b : Block} {bs : List Block} (h : Stacked (b :: bs)) :
    (if bs.all (·.depth != b.depth) then b.depth - 1 else b.depth) = depthOf bs := by
  cases h with
  | cons hb h =>
    cases bs with
    | nil =>
      rcases hb with hb | hb <;> simp [hb, depthOf]
    | cons b' bs =>
      rcases hb with hb | hb
      · rw [if_neg, hb]
        simp [hb, depthOf]
      · rw [if_pos, hb, Nat.add_sub_cancel]
        rw [List.all_eq_true]
        intro x hx
        have hle := h.le x hx
        simp
        omega

/-- The pointers are right: a stack that is held points to its top, and every frame remembers the
stacklet of the newest block of its task. -/
structure Pointed (hold : ℕ → Hold ℕ) (st : Chains) : Prop where
  stacked : ∀ k bs, st.chain k = some bs → Stacked bs
  top : ∀ w bs, hold w ≠ .gone → st.chain (st.mFib w).root = some bs →
    (st.mFib w).depth = depthOf bs
  newest : ∀ f bs, st.chain (st.mStacklet f).root = some bs → f ∈ bs.map Block.task →
    bs.find? (·.task = f) = some ⟨f, (st.mStacklet f).depth⟩

section rules

variable {par : ℕ → Option ℕ} {size : ℕ → ℕ} {hold hold' : ℕ → Hold ℕ} {st : Chains}
  {w f root : ℕ} {grow : Bool} {b : Block} {bs : List Block}

/-! ### Reading them -/

/-- A bare chain is empty. -/
theorem chain_of_bare (hk : Kept par size hold st.cactus) (hw : hold w = .bare) :
    st.chain (st.mFib w).root = some [] := by
  have hholds := hk.holds w
  rw [hw] at hholds
  obtain ⟨bs, hbs, hmap⟩ := st.branch_eq_some.mp hholds
  exact hbs.trans (congrArg some (List.map_eq_nil_iff.mp hmap))

/-- A chain that is not bare has the block of its holder on top. -/
theorem chain_of_top (hk : Kept par size hold st.cactus) (hw : hold w = .top f) :
    ∃ b bs, st.chain (st.mFib w).root = some (b :: bs) ∧ b.task = f := by
  have hholds := hk.holds w
  rw [hw] at hholds
  obtain ⟨xs, hxs⟩ := hholds
  obtain ⟨bs, hbs, hmap⟩ := st.branch_eq_some.mp hxs
  obtain ⟨b, bs, rfl, hb, -⟩ := List.map_eq_cons_iff.mp hmap
  exact ⟨b, bs, hbs, hb⟩

/-- What is held by another worker is another chain. -/
theorem root_ne (hk : Kept par size hold st.cactus) (hhold : ∀ v, hold' v ≠ .gone → hold v ≠ .gone)
    (hw : hold w ≠ .gone) {v : ℕ} (hv : hold' v ≠ .gone) (hvw : v ≠ w) :
    (st.mFib v).root ≠ (st.mFib w).root :=
  fun heq => hvw (hk.apart v w (hhold v hv) hw heq)

namespace Pointed

variable (h : Pointed hold st)

include h

/-- A frame with the newest block of its chain remembers the top of the chain. -/
theorem newest_head (hbs : st.chain (st.mStacklet b.task).root = some (b :: bs)) :
    (st.mStacklet b.task).depth = b.depth := by
  have hfind := h.newest b.task _ hbs (List.mem_map_of_mem List.mem_cons_self)
  rw [List.find?_cons_of_pos (by simp)] at hfind
  exact congrArg Block.depth (Option.some.inj hfind).symm

/-- Who holds a chain with the block of a task on top points where its frame does. -/
theorem top_eq (hk : Kept par size hold st.cactus) (hw : hold w = .top f) :
    st.mStacklet f = st.top w := by
  obtain ⟨b, bs, hbs, rfl⟩ := chain_of_top hk hw
  have hroot : (st.mStacklet b.task).root = (st.mFib w).root := (hk.home_of_top hw).1
  have hdepth := h.top w _ (by simp [hw]) hbs
  rw [← hroot] at hbs
  exact congrArg₂ Stacklet.mk hroot ((h.newest_head hbs).trans hdepth.symm)

/-- What a frame remembers is the top of its chain, where it has the newest block. -/
theorem isTop_mStacklet (hbs : st.chain (st.mStacklet b.task).root = some (b :: bs)) :
    st.isTop (st.mStacklet b.task) = true := by
  unfold Chains.isTop
  rw [hbs, Option.any_some, List.all_eq_true]
  intro b' hb'
  rw [h.newest_head hbs]
  exact decide_eq_true ((h.stacked _ _ hbs).le b' hb')

/-- A bare chain is an empty stack. -/
theorem empty_of_bare (hk : Kept par size hold st.cactus) (hw : hold w = .bare) :
    st.empty w = true := by
  have hbs := chain_of_bare hk hw
  have hdepth : (st.mFib w).depth = 0 := h.top w [] (by simp [hw]) hbs
  unfold Chains.empty Chains.vacant
  rw [hbs, Option.any_some, hdepth]
  rfl

/-! ### Keeping them -/

/-- Fewer holders need less. -/
theorem mono (hhold : ∀ v, hold' v ≠ .gone → hold v ≠ .gone) : Pointed hold' st where
  stacked := h.stacked
  top v bs hv := h.top v bs (hhold v hv)
  newest := h.newest

/-- A block for a task that remembers it. -/
theorem newFrame (hk : Kept par size hold st.cactus)
    (hhold : ∀ v, hold' v ≠ .gone → hold v ≠ .gone) (hw : hold w ≠ .gone) :
    Pointed hold' (st.newFrame w f grow) := by
  have hroot := st.next_root w grow
  have hdepth : ∀ bs, st.chain (st.mFib w).root = some bs →
      (st.next w grow).depth = depthOf bs ∨ (st.next w grow).depth = depthOf bs + 1 := by
    intro bs hbs
    rw [← h.top w bs hw hbs]
    unfold Chains.next
    split_ifs
    · exact Or.inr rfl
    · exact Or.inl rfl
  have hchain : ∀ k bs', (st.newFrame w f grow).chain k = some bs' →
      (k ≠ (st.mFib w).root ∧ st.chain k = some bs') ∨
      (k = (st.mFib w).root ∧ ∃ bs, st.chain (st.mFib w).root = some bs ∧
        bs' = ⟨f, (st.next w grow).depth⟩ :: bs) := by
    intro k bs' hbs'
    change Function.update st.chain (st.mFib w).root _ k = some bs' at hbs'
    by_cases hkw : k = (st.mFib w).root
    · rw [hkw, Function.update_self] at hbs'
      obtain ⟨bs, hbs, rfl⟩ := Option.map_eq_some_iff.mp hbs'
      exact Or.inr ⟨hkw, bs, hbs, rfl⟩
    · exact Or.inl ⟨hkw, (Function.update_of_ne hkw ..).symm.trans hbs'⟩
  have hfib : ∀ v, v ≠ w → (st.newFrame w f grow).mFib v = st.mFib v :=
    fun v hv => Function.update_of_ne hv ..
  have hfibw : (st.newFrame w f grow).mFib w = st.next w grow := Function.update_self ..
  have hself : (st.newFrame w f grow).mStacklet f = st.next w grow :=
    (Function.update_self ..).trans hfibw
  refine ⟨?_, ?_, ?_⟩
  · intro k bs' hbs'
    rcases hchain k bs' hbs' with ⟨-, hbs⟩ | ⟨-, bs, hbs, rfl⟩
    · exact h.stacked k bs' hbs
    · exact .cons (hdepth bs hbs) (h.stacked _ bs hbs)
  · intro v bs' hv hbs'
    by_cases hvw : v = w
    · subst hvw
      rw [hfibw] at hbs' ⊢
      rcases hchain _ bs' hbs' with ⟨hne, -⟩ | ⟨-, bs, -, rfl⟩
      · exact absurd hroot hne
      · rfl
    · rw [hfib v hvw] at hbs' ⊢
      rcases hchain _ bs' hbs' with ⟨-, hbs⟩ | ⟨heq, -⟩
      · exact h.top v bs' (hhold v hv) hbs
      · exact absurd heq (root_ne hk hhold hw hv hvw)
  · intro g bs' hbs' hg
    by_cases hgf : g = f
    · subst hgf
      rw [hself] at hbs' ⊢
      rcases hchain _ bs' hbs' with ⟨hne, -⟩ | ⟨-, bs, -, rfl⟩
      · exact absurd hroot hne
      · rw [List.find?_cons_of_pos (by simp)]
    · have hsame : (st.newFrame w f grow).mStacklet g = st.mStacklet g :=
        Function.update_of_ne hgf ..
      rw [hsame] at hbs' ⊢
      rcases hchain _ bs' hbs' with ⟨-, hbs⟩ | ⟨heq, bs, hbs, rfl⟩
      · exact h.newest g bs' hbs hg
      · rw [List.map_cons, List.mem_cons] at hg
        rw [List.find?_cons_of_neg (by simp [Ne.symm hgf])]
        exact h.newest g bs (heq ▸ hbs) (hg.resolve_left hgf)

/-- The newest block of a chain goes, as the stack that holds the chain sees it. -/
theorem deallocate_top (hw : hold w ≠ .gone)
    (hbs : st.chain (st.mFib w).root = some (b :: bs)) :
    (st.deallocate w).chain = Function.update st.chain (st.mFib w).root (some bs) ∧
      (st.deallocate w).mFib =
        Function.update st.mFib w ⟨(st.mFib w).root, depthOf bs⟩ ∧
      (st.deallocate w).mStacklet = st.mStacklet := by
  have hdepth : (st.mFib w).depth = b.depth := h.top w _ hw hbs
  have htail := (h.stacked _ _ hbs).depth_tail
  have hvacant : (st.setSp w).vacant (st.mFib w) = bs.all (·.depth != b.depth) := by
    unfold Chains.vacant Chains.setSp
    rw [hbs, hdepth]
    dsimp only
    rw [Function.update_self]
    rfl
  have hsetSp : (st.setSp w).chain = Function.update st.chain (st.mFib w).root (some bs) := by
    unfold Chains.setSp
    rw [hbs]
    rfl
  unfold Chains.deallocate
  rw [hvacant]
  split_ifs with hall
  · rw [if_pos hall] at htail
    refine ⟨hsetSp, ?_, rfl⟩
    rw [hdepth, htail]
  · rw [if_neg hall] at htail
    refine ⟨hsetSp, ?_, rfl⟩
    rw [← htail, ← hdepth]
    exact (Function.update_eq_self w st.mFib).symm

/-- The newest block of a chain goes. -/
theorem popped {st' : Chains} (hk : Kept par size hold st.cactus)
    (hhold : ∀ v, hold' v ≠ .gone → hold v ≠ .gone) (hw : hold w ≠ .gone)
    (hbs : st.chain (st.mFib w).root = some (b :: bs))
    (hchain : st'.chain = Function.update st.chain (st.mFib w).root (some bs))
    (hfib : st'.mFib = Function.update st.mFib w ⟨(st.mFib w).root, depthOf bs⟩)
    (hother : ∀ g, g ≠ b.task → st'.mStacklet g = st.mStacklet g)
    (hnewest : b.task ∈ bs.map Block.task →
      bs.find? (·.task = b.task) = some ⟨b.task, (st'.mStacklet b.task).depth⟩)
    (hself : (st'.mStacklet b.task).root = (st.mFib w).root) : Pointed hold' st' := by
  refine ⟨?_, ?_, ?_⟩
  · intro k bs' hbs'
    rw [hchain] at hbs'
    by_cases hkw : k = (st.mFib w).root
    · rw [hkw, Function.update_self] at hbs'
      exact Option.some.inj hbs' ▸ (h.stacked _ _ hbs).tail
    · rw [Function.update_of_ne hkw] at hbs'
      exact h.stacked k bs' hbs'
  · intro v bs' hv hbs'
    rw [hchain, hfib] at hbs'
    rw [hfib]
    by_cases hvw : v = w
    · subst hvw
      rw [Function.update_self, Function.update_self] at hbs'
      rw [Function.update_self, ← Option.some.inj hbs']
    · rw [Function.update_of_ne hvw, Function.update_of_ne (root_ne hk hhold hw hv hvw)] at hbs'
      rw [Function.update_of_ne hvw]
      exact h.top v bs' (hhold v hv) hbs'
  · intro g bs' hbs' hg
    rw [hchain] at hbs'
    by_cases hgb : g = b.task
    · subst hgb
      rw [hself, Function.update_self] at hbs'
      cases hbs'
      exact hnewest hg
    · rw [hother g hgb] at hbs' ⊢
      by_cases hkw : (st.mStacklet g).root = (st.mFib w).root
      · rw [hkw, Function.update_self] at hbs'
        cases hbs'
        have hfind := h.newest g (b :: bs) (hkw ▸ hbs) (List.mem_cons_of_mem _ hg)
        rwa [List.find?_cons_of_neg (by simp [Ne.symm hgb])] at hfind
      · rw [Function.update_of_ne hkw] at hbs'
        exact h.newest g bs' hbs' hg

/-- The newest block of a chain goes, with its task. -/
theorem deallocate (hk : Kept par size hold st.cactus)
    (hhold : ∀ v, hold' v ≠ .gone → hold v ≠ .gone) (hw : hold w = .top b.task)
    (hbs : st.chain (st.mFib w).root = some (b :: bs)) (hb : b.task ∉ bs.map Block.task) :
    Pointed hold' (st.deallocate w) := by
  have hgone : hold w ≠ .gone := by simp [hw]
  obtain ⟨hchain, hfib, hstacklet⟩ := h.deallocate_top hgone hbs
  refine h.popped hk hhold hgone hbs hchain hfib (fun g _ => congrFun hstacklet g)
    (fun hmem => absurd hmem hb) ?_
  rw [hstacklet]
  exact (hk.home_of_top hw).1

/-- The newest block of a chain goes, with another one of the same task under it. -/
theorem coDelete {b' : Block} (hk : Kept par size hold st.cactus) (hw : hold w ≠ .gone)
    (hbs : st.chain (st.mFib w).root = some (b :: b' :: bs)) (hb : b'.task = b.task) :
    Pointed hold (st.coDelete w b.task) := by
  obtain ⟨hchain, hfib, hstacklet⟩ := h.deallocate_top hw hbs
  have hself : (st.coDelete w b.task).mStacklet b.task = ⟨(st.mFib w).root, b'.depth⟩ := by
    unfold Chains.coDelete Chains.record Chains.top
    rw [hfib, Function.update_self]
    exact Function.update_self ..
  refine h.popped hk (fun _ hv => hv) hw hbs hchain hfib ?_ ?_ (by rw [hself])
  · intro g hg
    unfold Chains.coDelete Chains.record
    rw [hstacklet]
    exact Function.update_of_ne hg ..
  · intro _
    rw [hself, List.find?_cons_of_pos (by simp [hb]), ← hb]

/-- A chain goes, and the stack points where the frame does that has the newest block of another
chain. -/
theorem take (hhold : ∀ v, v ≠ w → hold' v ≠ .gone → hold v ≠ .gone)
    (hbs : st.chain (st.mStacklet b.task).root = some (b :: bs)) :
    Pointed hold' (st.take w (st.mStacklet b.task)) := by
  have hchain : ∀ k bs', (st.take w (st.mStacklet b.task)).chain k = some bs' →
      st.chain k = some bs' := by
    intro k bs' hbs'
    change Function.update st.chain (st.mFib w).root none k = some bs' at hbs'
    by_cases hkw : k = (st.mFib w).root
    · rw [hkw, Function.update_self] at hbs'
      cases hbs'
    · rwa [Function.update_of_ne hkw] at hbs'
  refine ⟨fun k bs' hbs' => h.stacked k bs' (hchain k bs' hbs'), ?_, ?_⟩
  · intro v bs' hv hbs'
    by_cases hvw : v = w
    · subst hvw
      have hself : (st.take v (st.mStacklet b.task)).mFib v = st.mStacklet b.task :=
        Function.update_self ..
      rw [hself] at hbs' ⊢
      cases hbs.symm.trans (hchain _ bs' hbs')
      exact h.newest_head hbs
    · have hsame : (st.take w (st.mStacklet b.task)).mFib v = st.mFib v :=
        Function.update_of_ne hvw ..
      rw [hsame] at hbs' ⊢
      exact h.top v bs' (hhold v hvw hv) (hchain _ bs' hbs')
  · intro g bs' hbs' hg
    exact h.newest g bs' (hchain _ bs' hbs') hg

/-- A chain appears, and a stack that was given up points to its root. -/
theorem release (hk : Kept par size hold st.cactus) (hroot : st.chain root = none)
    (hhold : ∀ v, v ≠ w → hold' v ≠ .gone → hold v ≠ .gone) :
    Pointed hold' (st.release w root) := by
  have hchain : ∀ k bs, (st.release w root).chain k = some bs →
      (k = root ∧ bs = []) ∨ st.chain k = some bs := by
    intro k bs hbs
    change Function.update st.chain root (some []) k = some bs at hbs
    by_cases hkr : k = root
    · rw [hkr, Function.update_self] at hbs
      exact Or.inl ⟨hkr, (Option.some.inj hbs).symm⟩
    · exact Or.inr ((Function.update_of_ne hkr ..).symm.trans hbs)
  refine ⟨?_, ?_, ?_⟩
  · intro k bs hbs
    rcases hchain k bs hbs with ⟨-, rfl⟩ | hbs
    · exact .nil
    · exact h.stacked k bs hbs
  · intro v bs hv hbs
    by_cases hvw : v = w
    · subst hvw
      have hself : (st.release v root).mFib v = ⟨root, 0⟩ := Function.update_self ..
      rw [hself] at hbs ⊢
      rcases hchain root bs hbs with ⟨-, rfl⟩ | hbs
      · rfl
      · cases hroot.symm.trans hbs
    · have hsame : (st.release w root).mFib v = st.mFib v := Function.update_of_ne hvw ..
      have hne := hk.hand_ne (st.branch_eq_none.mpr hroot) (hhold v hvw hv)
      rw [hsame] at hbs ⊢
      rcases hchain _ bs hbs with ⟨heq, -⟩ | hbs
      · exact absurd heq hne
      · exact h.top v bs (hhold v hvw hv) hbs
  · intro g bs hbs hg
    rcases hchain _ bs hbs with ⟨-, rfl⟩ | hbs
    · cases hg
    · exact h.newest g bs hbs hg

/-- A chain appears, with the frame of a task. -/
theorem plant (hk : Kept par size hold st.cactus) (hroot : st.chain root = none) :
    Pointed hold (st.plant f root grow) := by
  have hchain : ∀ k bs, (st.plant f root grow).chain k = some bs →
      (k = root ∧ bs = [⟨f, grow.toNat⟩]) ∨ (k ≠ root ∧ st.chain k = some bs) := by
    intro k bs hbs
    change Function.update st.chain root _ k = some bs at hbs
    by_cases hkr : k = root
    · rw [hkr, Function.update_self] at hbs
      exact Or.inl ⟨hkr, (Option.some.inj hbs).symm⟩
    · exact Or.inr ⟨hkr, (Function.update_of_ne hkr ..).symm.trans hbs⟩
  refine ⟨?_, ?_, ?_⟩
  · intro k bs hbs
    rcases hchain k bs hbs with ⟨-, rfl⟩ | ⟨-, hbs⟩
    · refine .cons ?_ .nil
      cases grow
      · exact Or.inl rfl
      · exact Or.inr rfl
    · exact h.stacked k bs hbs
  · intro v bs hv hbs
    rcases hchain _ bs hbs with ⟨heq, -⟩ | ⟨-, hbs⟩
    · exact absurd heq (hk.hand_ne (st.branch_eq_none.mpr hroot) hv)
    · exact h.top v bs hv hbs
  · intro g bs hbs hg
    by_cases hgf : g = f
    · subst hgf
      have hself : (st.plant g root grow).mStacklet g = ⟨root, grow.toNat⟩ :=
        Function.update_self ..
      rw [hself] at hbs ⊢
      rcases hchain _ bs hbs with ⟨-, rfl⟩ | ⟨hne, -⟩
      · rw [List.find?_cons_of_pos (by simp)]
      · exact absurd rfl hne
    · have hsame : (st.plant f root grow).mStacklet g = st.mStacklet g :=
        Function.update_of_ne hgf ..
      rw [hsame] at hbs ⊢
      rcases hchain _ bs hbs with ⟨-, rfl⟩ | ⟨-, hbs⟩
      · exact absurd (List.mem_singleton.mp hg) hgf
      · exact h.newest g bs hbs hg

end Pointed

end rules

end Libfork.Stacks
