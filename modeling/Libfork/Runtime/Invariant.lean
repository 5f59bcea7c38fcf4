import Libfork.Runtime.Fresh

/-!
# The invariant of the workers

The shape of the deques, the places of the handles and the accounts of the frames hold together:
which task a worker resumes depends on the counters of its frame, and what the counters say
depends on where its continuation is. All of it is kept as long as no scope sees 65535 steals.

* `FewSteals` — the guard. A continuation that its worker is bound to take from its own deque
  counts from the moment it is: the source calls it effectively stolen.
* `Inv` — the invariant.
* **`inv_of_run`** — it holds in every state that a run with few steals reaches.

Source: `promise.hpp`, `final_await_suspend`; `awaitables.hpp`; `resume.hpp`.
-/

namespace Libfork.Runtime

open Libfork.Found Libfork.Join

variable {T : Tree} {s s' : State} {a : Act} {as : List Act}

/-- No continuation is taken 65535 times in one scope. -/
def FewSteals (T : Tree) (s : State) (a : Act) : Prop :=
  ∀ s', (machine T).step s a = some s' → ∀ f, (s'.task f).taken < 65535

/-! ### Short runs -/

/-- No continuation was taken more than `n` times in one scope. -/
def TakenLe (n : ℕ) (s : State) : Prop := ∀ f, (s.task f).taken ≤ n

namespace TakenLe

variable {n : ℕ} (hs : TakenLe n s)

include hs

/-- A task is changed that was not taken more often. -/
theorem modify {f : ℕ} {h : Task → Task} (hh : (h (s.task f)).taken ≤ n) :
    TakenLe n (s.modify f h) := by
  intro g
  by_cases hg : g = f
  · rw [hg, State.modify_self]
    exact hh
  · rw [State.modify_of_ne _ _ _ _ hg]
    exact hs g

/-- A task gets a new place. -/
theorem place (f : ℕ) (l : Loc) : TakenLe n (s.place f l) := hs.modify (hs f)

/-- A worker goes on. -/
theorem goto (w : ℕ) (pc : Pc) : TakenLe n (s.goto w pc) := hs

/-- A worker enters a task. -/
theorem enter (w f : ℕ) : TakenLe n (s.enter w f) := hs.place f _

/-- A bound may be larger. -/
theorem succ : TakenLe (n + 1) s := fun f => (hs f).trans (Nat.le_succ n)

/-- A task is taken once more. -/
theorem take (f : ℕ) : TakenLe (n + 1) (s.modify f Task.take) := by
  refine hs.succ.modify ?_
  unfold Task.take
  split
  · exact hs.succ f
  · split_ifs
    · exact hs.succ f
    · exact Nat.succ_le_succ (hs f)

/-- So is the newest of a deque. -/
theorem takeHead (w : ℕ) : TakenLe (n + 1) (s.takeHead w) := by
  unfold State.takeHead
  split
  · exact hs.succ
  · exact hs.take _

end TakenLe

/-- One step takes a continuation once. -/
theorem takenLe_of_moves {n : ℕ} (h : Moves T s a s') (hs : TakenLe n s) : TakenLe (n + 1) s' := by
  cases h with
  | spawn hl ht => exact (hs.place _ _).succ
  | schedule hl => exact (hs.place _ _).succ
  | popAll hpc htodo hq => exact hs.succ
  | @resume w f fs hpc htodo => exact (hs.place f (.run w)).succ
  | @steal w v f q hpc htodo hq => exact (TakenLe.take hs f).place f _
  | @fork w f c hpc haw hl ht hp =>
      exact (((hs.modify (h := (Task.forks · c)) (hs f)).place f _).enter w c).succ
  | call hpc haw hl ht hp => exact ((hs.place _ _).enter _ _).succ
  | retRoot hpc haw hscope ht => exact (hs.place _ _).succ
  | retCall hpc haw hscope ht => exact ((hs.place _ _).enter _ _).succ
  | retFork hpc haw hscope ht => exact (hs.place _ _).succ
  | shortcut hpc haw hz => exact (hs.modify (Nat.zero_le n)).succ
  | joinCall hpc haw hz => exact hs.succ
  | @switch w f hpc haw => exact ((hs.place f .outside).goto w _).takeHead w
  | @addSteal w f hpc => exact ((hs.modify (h := Task.addSteal) (hs f)).enter w f).succ
  | @awaitResume w f hpc haw => exact (hs.modify (hs f)).succ
  | @pop w c d q hpc hq =>
      have hs₁ : TakenLe n ((s.setDeque w q).place c .dead) := TakenLe.place hs c .dead
      exact ((hs₁.modify (h := (Task.popped · c)) (hs₁ _)).enter w _).succ
  | popNone hpc hq => exact hs.succ
  | @decLast w c hpc hold =>
      have hs₁ := hs.place c .dead
      have hs₂ := hs₁.modify (h := (Task.decremented · c)) (hs₁ (T.parent c))
      exact ((hs₂.modify (h := Task.reset) (Nat.zero_le n)).enter w _).succ
  | @dec w c hpc hold =>
      have hs₁ := hs.place c .dead
      exact (hs₁.modify (h := (Task.decremented · c)) (hs₁ (T.parent c))).succ
  | yield hpc => exact hs.succ
  | ready hpc heq => exact (hs.modify (h := Task.reset) (Nat.zero_le n)).succ
  | notReady hpc => exact hs.succ
  | @win w f hpc heq =>
      have hs₁ := hs.modify (h := fun t => { t with
        frame := t.frame.fetchSubJoins (kU16Max - (s.task f).frame.loadSteals) }) (hs f)
      exact (hs₁.modify (h := Task.reset) (Nat.zero_le n)).succ
  | @lose w f hpc hne =>
      have hs₁ := hs.modify (h := fun t => { t with
        frame := t.frame.fetchSubJoins (kU16Max - (s.task f).frame.loadSteals) }) (hs f)
      exact ((hs₁.place f .joining).goto w .selfSteal).takeHead w
  | release hpc => exact hs.succ
  | @selfPop w d q hpc hq =>
      have hs₁ : TakenLe n (s.setDeque w q) := hs
      exact ((hs₁.modify (h := Task.addSteal) (hs₁ d)).enter w d).succ
  | selfNone hpc hq => exact hs.succ

/-- A run of fewer than 65535 steps has few steals. -/
theorem run_fewSteals {n : ℕ} (h : (machine T).Run Machine.free s as s') (hs : TakenLe n s)
    (hlen : n + as.length < 65535) : (machine T).Run (FewSteals T) s as s' := by
  induction as generalizing s n with
  | nil => exact h
  | cons a as ih =>
      obtain ⟨-, m, hstep, h⟩ := h
      rw [List.length_cons, ← Nat.add_assoc, Nat.add_right_comm] at hlen
      have hm := takenLe_of_moves (moves_of_step hstep) hs
      refine ⟨?_, m, hstep, ih h hm hlen⟩
      intro m' hstep' f
      obtain rfl : m = m' := Option.some.inj (hstep.symm.trans hstep')
      exact (hm f).trans_lt (Nat.lt_of_le_of_lt (Nat.le_add_right _ _) hlen)

/-! ## The invariant -/

/-- What holds in every state. -/
structure Inv (T : Tree) (s : State) : Prop where
  lined : AllLined T s
  placed : Placed s
  fresh : AllFresh T s
  accounts : ∀ p, Accounts T s.status p (s.task p)

/-- It holds before anything happens. -/
theorem inv_init : Inv T .init where
  lined w := Eq.refl (State.init.deque w)
  placed := placed_init
  fresh _ := trivial
  accounts _ := accounts_new

/-! ## What is alive -/

/-- A task whose place is that of a live one is alive. -/
theorem State.status_eq_alive {f : ℕ} {l : Loc} (h : s.loc f = l) (hl : l.status = .alive) :
    s.status f = .alive := by
  unfold State.status
  rw [h, hl]

namespace Inv

variable (h : Inv T s)

include h

/-- The caller of a live task waits for it. -/
theorem calling {c : ℕ} (ht : T.tag c = .call) (hc : s.status c = .alive) :
    s.loc (T.parent c) = .calling c :=
  ((h.accounts (T.parent c)).calling c).mpr ⟨ht, rfl, hc⟩

/-- What a live task is part of is alive, and calls on the way to the task, unless it is it. -/
theorem base (x : ℕ) (hx : s.status x = .alive) :
    s.status (T.base x) = .alive ∧ (T.base x = x ∨ ∃ c, s.loc (T.base x) = .calling c) := by
  induction x using Nat.strong_induction_on with
  | _ x ih =>
    by_cases ht : T.tag x = .call
    · have hp := h.calling ht hx
      have hlt := T.parent_lt x (by simp [ht])
      obtain ⟨halive, hor⟩ := ih _ hlt (State.status_eq_alive hp rfl)
      rw [Tree.base_of_call ht]
      refine ⟨halive, Or.inr ?_⟩
      rcases hor with heq | hcalling
      · exact ⟨x, (congrArg s.loc heq).trans hp⟩
      · exact hcalling
    · rw [Tree.base_of_ne_call ht]
      exact ⟨hx, Or.inl rfl⟩

/-- What a worker runs is alive. -/
theorem alive_of_code {w f : ℕ} (hf : (s.pc w).code = some f) : s.status f = .alive :=
  State.status_eq_alive ((h.placed.run w f).mp hf) rfl

/-- Who looks for its parent is alive. -/
theorem alive_of_returned {w c : ℕ} (hc : (s.pc w).returned = some c) : s.status c = .alive :=
  State.status_eq_alive ((h.placed.final w c).mp hc) rfl

/-- What is in a deque is alive. -/
theorem alive_of_mem_deque {w d : ℕ} (hd : d ∈ s.deque w) : s.status d = .alive :=
  State.status_eq_alive ((h.placed.queued w d).mp hd) rfl

end Inv

/-- In a chain, everything but the head comes after something. -/
theorem exists_rel_of_isChain {R : ℕ → ℕ → Prop} {x d : ℕ} {q : List ℕ}
    (h : List.IsChain R (x :: q)) (hd : d ∈ q) : ∃ y, (y = x ∨ y ∈ q) ∧ R y d := by
  induction q generalizing x with
  | nil => cases hd
  | cons e q ih =>
      obtain ⟨hxe, hq⟩ := List.isChain_cons_cons.mp h
      rcases List.mem_cons.mp hd with rfl | hd
      · exact ⟨x, Or.inl rfl, hxe⟩
      · obtain ⟨y, hy, hyd⟩ := ih hq hd
        refine ⟨y, Or.inr ?_, hyd⟩
        rcases hy with rfl | hy
        · exact List.mem_cons_self
        · exact List.mem_cons_of_mem e hy

namespace Inv

variable (h : Inv T s)

include h

/-- A task that was not taken is in a deque for a live task: one that its worker runs, or one that
is in the same deque. -/
theorem exists_forked {v p : ℕ} (hp : p ∈ s.deque v) (hph : (s.task p).counted = false) :
    ∃ x, T.Forked x p ∧
      ((s.pc v).code = some x ∨ s.pc v = .final x ∨ s.loc x = .queued v) := by
  have hmem : ∀ {x : ℕ}, List.IsChain T.Forked (x :: s.deque v) →
      ∃ y, T.Forked y p ∧ (y = x ∨ s.loc y = .queued v) := by
    intro x hx
    obtain ⟨y, hy, hyp⟩ := exists_rel_of_isChain hx hp
    exact ⟨y, hyp, hy.imp_right (h.placed.queued v y).mp⟩
  have hhead : (∀ d ∈ (s.deque v).head?, (s.task d).counted = true) →
      List.IsChain T.Forked (s.deque v) → ∃ y, T.Forked y p ∧ s.loc y = .queued v := by
    intro hcounted hq
    cases hdeque : s.deque v with
    | nil =>
        rw [hdeque] at hp
        cases hp
    | cons e q =>
        rw [hdeque] at hcounted hq hp
        rcases List.mem_cons.mp hp with rfl | hp
        · cases hph.symm.trans (hcounted p rfl)
        · obtain ⟨y, hy, hyp⟩ := exists_rel_of_isChain hq hp
          refine ⟨y, hyp, (h.placed.queued v y).mp ?_⟩
          rw [hdeque]
          exact List.mem_cons.mpr hy
  have hline := h.lined v
  have hfresh := h.fresh v
  cases hpc : s.pc v with
  | run f =>
      rw [hpc] at hline
      obtain ⟨y, hyp, rfl | hy⟩ := hmem hline
      · exact ⟨y, hyp, Or.inl rfl⟩
      · exact ⟨y, hyp, Or.inr (Or.inr hy)⟩
  | joinLoad f =>
      rw [hpc] at hline
      obtain ⟨y, hyp, rfl | hy⟩ := hmem hline
      · exact ⟨y, hyp, Or.inl rfl⟩
      · exact ⟨y, hyp, Or.inr (Or.inr hy)⟩
  | joinSub f =>
      rw [hpc] at hline
      obtain ⟨y, hyp, rfl | hy⟩ := hmem hline
      · exact ⟨y, hyp, Or.inl rfl⟩
      · exact ⟨y, hyp, Or.inr (Or.inr hy)⟩
  | final c =>
      rw [hpc] at hline
      obtain ⟨y, hyp, rfl | hy⟩ := hmem hline.2
      · exact ⟨y, hyp, Or.inr (Or.inl rfl)⟩
      · exact ⟨y, hyp, Or.inr (Or.inr hy)⟩
  | switched f steals =>
      rw [hpc] at hline hfresh
      obtain ⟨y, hyp, hy⟩ := hhead hfresh.1 hline
      exact ⟨y, hyp, Or.inr (Or.inr hy)⟩
  | selfSteal =>
      rw [hpc] at hline hfresh
      obtain ⟨y, hyp, hy⟩ := hhead hfresh.1 hline
      exact ⟨y, hyp, Or.inr (Or.inr hy)⟩
  | idle =>
      rw [hpc] at hline
      rw [show s.deque v = [] from hline] at hp
      cases hp
  | stolen f =>
      rw [hpc] at hline
      rw [show s.deque v = [] from hline] at hp
      cases hp
  | subJoin c =>
      rw [hpc] at hline
      rw [show s.deque v = [] from hline] at hp
      cases hp
  | lost c =>
      rw [hpc] at hline
      rw [show s.deque v = [] from hline] at hp
      cases hp

/-- A child that found its parent gone is not the one whose fork still flies. -/
theorem other_owed {w c : ℕ} (hpc : s.pc w = .subJoin c)
    (hph : (s.task (T.parent c)).phase = .waits) :
    ((s.task (T.parent c)).owed.erase c).Nonempty := by
  obtain ⟨v, hv⟩ : ∃ v, s.loc (T.parent c) = .queued v := by
    unfold Task.phase at hph
    split at hph
    · next v hv => exact ⟨v, hv⟩
    · cases hph
    · cases hph
    · cases hph
  have hcounted : (s.task (T.parent c)).counted = false := by
    have hloc : (s.task (T.parent c)).loc = .queued v := hv
    simp only [Task.phase, hloc] at hph
    split_ifs at hph with hc
    exact Bool.eq_false_iff.mpr hc
  obtain ⟨x, ⟨hfork, hparent⟩, hx⟩ :=
    h.exists_forked ((h.placed.queued v _).mpr hv) hcounted
  have halive : s.status x = .alive := by
    rcases hx with hcode | hfinal | hqueued
    · exact h.alive_of_code hcode
    · exact h.alive_of_returned (w := v) (by rw [hfinal]; rfl)
    · exact State.status_eq_alive hqueued rfl
  obtain ⟨hbase, hor⟩ := h.base x halive
  refine ⟨T.base x, Finset.mem_erase.mpr ⟨?_, ?_⟩⟩
  · -- the child stands at `subJoin`, and what is in a deque for it stands elsewhere
    intro heq
    have hc : s.loc c = .final w := (h.placed.final w c).mp (by rw [hpc]; rfl)
    rcases hor with hself | ⟨c', hcalling⟩
    · obtain rfl : x = c := hself.symm.trans heq
      rcases hx with hcode | hfinal | hqueued
      · cases hc.symm.trans ((h.placed.run v x).mp hcode)
      · have hv' : s.loc x = .final v := (h.placed.final v x).mp (by rw [hfinal]; rfl)
        obtain rfl : w = v := by
          rw [hc] at hv'
          exact Loc.final.inj hv'
        cases hpc.symm.trans hfinal
      · cases hc.symm.trans hqueued
    · rw [heq, hc] at hcalling
      cases hcalling
  · exact ((h.accounts _).owed _).mpr ⟨hfork, hparent, hbase⟩

end Inv

/-! ## The forks that wait -/

/-- The forks do not change. -/
theorem Fresh.of_awaits {pc : Pc} {q : List ℕ} (h : Fresh T s pc q) (haw : s'.awaits = s.awaits) :
    Fresh T s' pc q :=
  h.congr (fun d _ => congrFun haw d) fun f _ => congrFun haw f

/-- One worker moves on, with its own deque, and no fork changes. -/
theorem AllFresh.moved {w : ℕ} {pc : Pc} {q : List ℕ} (hs : AllFresh T s) (hp : Placed s)
    (hpc : s'.pc = Function.update s.pc w pc) (hq : s'.deque = Function.update s.deque w q)
    (haw : s'.awaits = s.awaits) (h : Fresh T s pc q) : AllFresh T s' :=
  hs.update hp hpc hq (fun _ _ d _ => congrFun haw d) (h.of_awaits haw)

/-- One worker moves on, and nothing else changes. -/
theorem AllFresh.goto {w : ℕ} {pc : Pc} (hs : AllFresh T s) (hp : Placed s)
    (hpc : s'.pc = Function.update s.pc w pc) (hq : s'.deque = s.deque)
    (haw : s'.awaits = s.awaits) (h : Fresh T s pc (s.deque w)) : AllFresh T s' :=
  hs.moved hp hpc (by rw [hq, Function.update_eq_self]) haw h

/-- No worker moves on, and no fork changes. -/
theorem AllFresh.stay (hs : AllFresh T s) (hpc : s'.pc = s.pc) (hq : s'.deque = s.deque)
    (haw : s'.awaits = s.awaits) : AllFresh T s' := by
  intro w
  rw [hpc, hq]
  exact (hs w).of_awaits haw

/-- A task that is taken counts as such. -/
theorem counted_take {t : Task} {k : Fork} (hk : t.awaiting = some k) : t.take.counted = true := by
  unfold Task.take Task.counted
  rw [hk]
  dsimp only
  split_ifs with htaken
  · rw [hk]
    exact htaken
  · rfl

/-- What a worker gives up leaves the newest task of its deque behind, to be taken. -/
theorem fresh_takeHead {x : ℕ} {q : List ℕ} (hnodup : q.Nodup)
    (h : List.IsChain (s.Attached T) (x :: q)) {w : ℕ} (hq : s.deque w = q) :
    (∀ d ∈ q.head?, ((s.takeHead w).task d).counted = true) ∧
      List.IsChain ((s.takeHead w).Attached T) q := by
  cases q with
  | nil => exact ⟨by simp, .nil⟩
  | cons d q =>
      obtain ⟨⟨k, hk, -⟩, hchain⟩ := List.isChain_cons_cons.mp h
      constructor
      · intro d' hd'
        obtain rfl : d = d' := by simpa using hd'
        have htake : s.takeHead w = s.modify d Task.take := by
          unfold State.takeHead
          rw [hq]
        rw [htake, State.modify_self]
        exact counted_take hk
      · refine isChain_attached ?_ hchain
        intro e he
        apply State.awaits_takeHead
        rw [hq]
        rintro heq
        obtain rfl : d = e := by simpa using heq
        exact (List.nodup_cons.mp hnodup).1 he

/-! ### Case by case -/

namespace Inv

variable (h : Inv T s)

include h

/-- The tasks that other workers hold are not affected. -/
theorem awaits_takeHead {w v d : ℕ} (hv : v ≠ w) (hd : s.loc d = .queued v ∨ s.loc d = .run v) :
    d ∉ (s.deque w).head? := by
  intro hmem
  have hloc := (h.placed.queued w d).mp (List.mem_of_mem_head? hmem)
  rcases hd with hd | hd
  · rw [hd] at hloc
    exact hv (Loc.queued.inj hloc)
  · cases hd.symm.trans hloc

/-- A worker that resumes a task with nothing in its deque. -/
theorem fresh_enter {w f : ℕ} (hempty : s.deque w = [])
    (hpc : s'.pc = Function.update s.pc w (.run f)) (hq : s'.deque = s.deque)
    (haw : s'.awaits = s.awaits) : AllFresh T s' := by
  have hs : AllFresh T s := h.fresh
  refine hs.goto h.placed hpc hq haw ?_
  rw [hempty]
  exact List.IsChain.singleton f

/-- A thief takes the oldest continuation. -/
theorem fresh_steal {w v f : ℕ} {q : List ℕ} (hq : s.deque v = q ++ [f]) :
    AllFresh T (s.steal w v f q) := by
  have hp := h.placed
  have hnodup := hp.deque_nodup v
  rw [hq] at hnodup
  have hloc : s.loc f = .queued v := (hp.queued v f).mp (by simp [hq])
  have haw : ∀ d, d ≠ f → (s.steal w v f q).awaits d = s.awaits d := by
    intro d hd
    unfold State.steal
    rw [State.awaits_goto, State.awaits_place, State.awaits_modify_of_ne _ _ _ hd,
      State.awaits_setDeque]
  intro u
  by_cases huw : u = w
  · subst huw
    have hpc' : (s.steal u v f q).pc u = .stolen f := by simp [State.steal]
    rw [hpc']
    trivial
  · have hpc' : (s.steal w v f q).pc u = s.pc u := by simp [State.steal, huw]
    rw [hpc']
    have hcode : ∀ g, (s.pc u).code = some g → g ≠ f := by
      rintro g hg rfl
      cases hloc.symm.trans ((hp.run u g).mp hg)
    by_cases huv : u = v
    · subst huv
      have hq' : (s.steal w u f q).deque u = q := by simp [State.steal]
      have hu := h.fresh u
      rw [hq] at hu
      rw [hq']
      refine hu.of_append.congr ?_ fun g hg => haw g (hcode g hg)
      intro d hd
      apply haw
      rintro rfl
      exact (List.disjoint_of_nodup_append hnodup) hd (List.mem_singleton_self d)
    · have hq' : (s.steal w v f q).deque u = s.deque u := by simp [State.steal, huv]
      rw [hq']
      refine (h.fresh u).congr ?_ fun g hg => haw g (hcode g hg)
      intro d hd
      apply haw
      rintro rfl
      have hd' := (hp.queued u d).mp hd
      rw [hloc] at hd'
      exact huv (Loc.queued.inj hd').symm

/-- A task forks a child, and its continuation waits for it. -/
theorem fresh_fork {w f c : ℕ} (hpc : s.pc w = .run f) (ht : T.tag c = .fork) :
    AllFresh T (s.fork w f c) := by
  have hp := h.placed
  have hs : AllFresh T s := h.fresh
  have hw := hs w
  rw [hpc] at hw
  have hloc : s.loc f = .run w := (hp.run w f).mp (by rw [hpc]; rfl)
  have hself : (s.fork w f c).awaits f = some ⟨c, (s.task f).frame.loadSteals, false⟩ := by
    unfold State.fork
    rw [State.awaits_enter, State.awaits_place]
    unfold State.awaits
    rw [State.modify_self]
    rfl
  have hne : ∀ d, d ≠ f → (s.fork w f c).awaits d = s.awaits d := by
    intro d hd
    unfold State.fork
    rw [State.awaits_enter, State.awaits_place, State.awaits_modify_of_ne _ _ _ hd,
      State.awaits_setDeque]
  refine hs.update hp rfl rfl ?_ ?_
  · intro v hv d hd
    apply hne
    rintro rfl
    rcases hd with hd | hd
    · cases hloc.symm.trans hd
    · rw [hloc] at hd
      exact hv (Loc.run.inj hd).symm
  · refine List.isChain_cons_cons.mpr ⟨⟨_, hself, ?_, rfl⟩, isChain_attached ?_ hw⟩
    · exact (Tree.base_of_ne_call (by simp [ht])).symm
    · intro d hd
      apply hne
      rintro rfl
      cases hloc.symm.trans ((hp.queued w d).mp hd)

/-- A task calls a child, which stands for it. -/
theorem fresh_call {w f c : ℕ} (hpc : s.pc w = .run f) (ht : T.tag c = .call)
    (hpar : T.parent c = f) : AllFresh T (s.call w f c) := by
  have hs : AllFresh T s := h.fresh
  have hw := hs w
  rw [hpc, ← hpar] at hw
  refine hs.goto h.placed rfl rfl ?_ (isChain_replace (fun d hd => hd.to_call ht) hw)
  unfold State.call
  rw [State.awaits_enter, State.awaits_place]

/-- A called task returns to the task that it stands for. -/
theorem fresh_retCall {w f : ℕ} (hpc : s.pc w = .run f) (ht : T.tag f = .call) :
    AllFresh T ((s.place f .dead).enter w (T.parent f)) := by
  have hs : AllFresh T s := h.fresh
  have hw := hs w
  rw [hpc] at hw
  exact hs.goto h.placed rfl rfl (by simp) (isChain_replace (fun d hd => hd.of_call ht) hw)

/-- A worker gives up its task, and is bound to take the rest of its deque. -/
theorem fresh_suspend {w f : ℕ} {pc : Pc} {s₁ : State} (hpc : s₁.pc = Function.update s.pc w pc)
    (hq : s₁.deque = s.deque) (haw : s₁.awaits = s.awaits)
    (hw : List.IsChain (s.Attached T) (f :: s.deque w))
    (hgives : pc = .selfSteal ∨ ∃ g steals, pc = .switched g steals) :
    AllFresh T (s₁.takeHead w) := by
  have hs : AllFresh T s := h.fresh
  have hw₁ : List.IsChain (s₁.Attached T) (f :: s.deque w) :=
    isChain_attached (fun d _ => congrFun haw d) hw
  have hnew : Fresh T (s₁.takeHead w) pc (s.deque w) := by
    have hhead := fresh_takeHead (h.placed.deque_nodup w) hw₁ (w := w) (congrFun hq w)
    rcases hgives with rfl | ⟨g, steals, rfl⟩ <;> exact hhead
  refine hs.update (w := w) h.placed ?_ ?_ ?_ hnew
  · rw [State.takeHead_pc, hpc]
  · rw [State.takeHead_deque, hq, Function.update_eq_self]
  · intro v hv d hd
    have hsame : (s₁.takeHead w).awaits d = s₁.awaits d := by
      apply State.awaits_takeHead
      rw [hq]
      exact h.awaits_takeHead hv hd
    rw [hsame, haw]

/-- A continuation passes its fork. -/
theorem fresh_awaitResume {w f : ℕ} (hpc : s.pc w = .run f) :
    AllFresh T (s.modify f fun t => { t with awaiting := none }) := by
  have hp := h.placed
  have hs : AllFresh T s := h.fresh
  have hw := hs w
  rw [hpc] at hw
  have hloc : s.loc f = .run w := (hp.run w f).mp (by rw [hpc]; rfl)
  have hnew : Fresh T (s.modify f fun t => { t with awaiting := none }) (.run f)
      (s.deque w) := by
    refine isChain_attached ?_ hw
    intro d hd
    apply State.awaits_modify_of_ne
    rintro rfl
    cases hloc.symm.trans ((hp.queued w d).mp hd)
  refine hs.update (w := w) hp ?_ ?_ ?_ hnew
  · rw [← hpc]
    simp
  · simp
  · intro v hv d hd
    apply State.awaits_modify_of_ne
    rintro rfl
    rcases hd with hd | hd
    · cases hloc.symm.trans hd
    · rw [hloc] at hd
      exact hv (Loc.run.inj hd).symm

/-- A forked child that is over pops its parent. -/
theorem fresh_pop {w c d : ℕ} {q : List ℕ} (hpc : s.pc w = .final c) (hq : s.deque w = d :: q) :
    AllFresh T ((((s.setDeque w q).place c .dead).modify (T.parent c)
      (Task.popped · c)).enter w (T.parent c)) := by
  have hs : AllFresh T s := h.fresh
  have hw := hs w
  have hline := h.lined w
  rw [hpc, hq] at hw hline
  obtain rfl : d = T.parent c := (lined_pop hline.1 hline.2).1
  exact hs.moved h.placed rfl rfl (by simp) (List.isChain_cons_cons.mp hw).2

end Inv

/-! ### The step lemma -/

/-- The step lemma for the forks that wait. -/
theorem fresh_of_moves (h : Moves T s a s') (hI : Inv T s) : AllFresh T s' := by
  have hs := hI.fresh
  have hp := hI.placed
  cases h with
  | spawn hl ht => exact hs.stay rfl rfl (by simp)
  | @schedule f w hl => exact hs.stay rfl rfl (s.awaits_place f _)
  | popAll hpc htodo hq => exact hs.stay rfl rfl rfl
  | @resume w f fs hpc htodo =>
      have hline := hI.lined w
      rw [hpc] at hline
      exact hI.fresh_enter hline rfl rfl (State.awaits_enter _ w f)
  | steal hpc htodo hq => exact hI.fresh_steal hq
  | fork hpc haw hl ht hpar => exact hI.fresh_fork hpc ht
  | call hpc haw hl ht hpar => exact hI.fresh_call hpc ht hpar
  | retRoot hpc haw hscope ht => exact hs.goto hp rfl rfl (by simp) trivial
  | retCall hpc haw hscope ht => exact hI.fresh_retCall hpc ht
  | @retFork w f hpc haw hscope ht =>
      have hw := hs w
      rw [hpc] at hw
      exact hs.goto hp rfl rfl (by simp) hw
  | shortcut hpc haw hz => exact hs.stay rfl rfl (by simp)
  | @joinCall w f hpc haw hz =>
      have hw := hs w
      rw [hpc] at hw
      exact hs.goto hp rfl rfl rfl ⟨haw, hw⟩
  | @switch w f hpc haw =>
      have hw := hs w
      rw [hpc] at hw
      exact hI.fresh_suspend rfl rfl (by simp) hw (.inr ⟨f, _, rfl⟩)
  | @addSteal w f hpc =>
      have hline := hI.lined w
      rw [hpc] at hline
      exact hI.fresh_enter hline rfl rfl (by simp)
  | awaitResume hpc haw => exact hI.fresh_awaitResume hpc
  | pop hpc hq => exact hI.fresh_pop hpc hq
  | @popNone w c hpc hq =>
      have hline := hI.lined w
      rw [hpc] at hline
      exact hs.goto hp rfl rfl rfl hline.1
  | @decLast w c hpc hold =>
      have hline := hI.lined w
      rw [hpc] at hline
      exact hI.fresh_enter hline rfl rfl (by simp)
  | dec hpc hold => exact hs.goto hp rfl rfl (by simp) trivial
  | yield hpc => exact hs.goto hp rfl rfl rfl trivial
  | @ready w f hpc heq =>
      have hw := hs w
      rw [hpc] at hw
      exact hs.goto hp rfl rfl (by simp) hw.2
  | @notReady w f hpc =>
      have hw := hs w
      rw [hpc] at hw
      exact hs.goto hp rfl rfl rfl hw
  | @win w f hpc heq =>
      have hw := hs w
      rw [hpc] at hw
      exact hs.goto hp rfl rfl (by simp) hw.2
  | @lose w f hpc hne =>
      have hw := hs w
      rw [hpc] at hw
      exact hI.fresh_suspend rfl rfl (by simp) hw.2 (.inl rfl)
  | @release w f steals hpc =>
      have hw := hs w
      rw [hpc] at hw
      exact hs.goto hp rfl rfl rfl hw
  | @selfPop w d q hpc hq =>
      have hw := hs w
      rw [hpc, hq] at hw
      exact hs.moved hp rfl rfl (by simp) hw.2
  | selfNone hpc hq => exact hs.goto hp rfl rfl rfl trivial

end Libfork.Runtime
