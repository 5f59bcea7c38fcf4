import Libfork.Runtime.Accounts

/-!
# What is in a deque was not taken

The tasks in a deque are suspended in the forks of the very children that they are held for, and
none of them counts as stolen, but where a worker has just given up what it ran: then the newest
of them does. This is the part of a deque's shape that changes as the tasks run.

Source: `awaitables.hpp`, `try_self_stealing`; `promise.hpp`, `final_await_suspend`.
-/

namespace Libfork.Runtime

open Libfork.Found

/-! ## The forks that tasks are suspended in -/

namespace State

variable (s : State) (w f c d : ℕ) (pc : Pc) (q : List ℕ) (l : Loc) {h : Task → Task}

/-- The fork that a task is suspended in. -/
def awaits (f : ℕ) : Option Fork := (s.task f).awaiting

@[simp] theorem awaits_goto : (s.goto w pc).awaits = s.awaits := rfl
@[simp] theorem awaits_setDeque : (s.setDeque w q).awaits = s.awaits := rfl

/-- What leaves the fork of one task alone leaves all of them alone. -/
theorem awaits_modify (hh : (h (s.task f)).awaiting = (s.task f).awaiting) :
    (s.modify f h).awaits = s.awaits := by
  funext g
  unfold awaits
  by_cases hg : g = f
  · rw [hg, modify_self, hh]
  · rw [modify_of_ne _ _ _ _ hg]

/-- What changes one task leaves the forks of the others alone. -/
theorem awaits_modify_of_ne (hd : d ≠ f) : (s.modify f h).awaits d = s.awaits d := by
  unfold awaits
  rw [modify_of_ne _ _ _ _ hd]

@[simp] theorem awaits_place : (s.place f l).awaits = s.awaits := s.awaits_modify f rfl
@[simp] theorem awaits_enter : (s.enter w f).awaits = s.awaits := s.awaits_place f _

@[simp] theorem awaits_addSteal : (s.modify f Task.addSteal).awaits = s.awaits :=
  s.awaits_modify f rfl

@[simp] theorem awaits_leave : (s.modify f Task.leave).awaits = s.awaits := s.awaits_modify f rfl
@[simp] theorem awaits_reset : (s.modify f Task.reset).awaits = s.awaits := s.awaits_modify f rfl

@[simp] theorem awaits_popped : (s.modify f (Task.popped · c)).awaits = s.awaits :=
  s.awaits_modify f rfl

@[simp] theorem awaits_decremented : (s.modify f (Task.decremented · c)).awaits = s.awaits :=
  s.awaits_modify f rfl

@[simp] theorem awaits_frame {fr : Task → Frame} :
    (s.modify f fun t => { t with frame := fr t }).awaits = s.awaits := s.awaits_modify f rfl

/-- Counting what is left in a deque as stolen concerns the newest of it. -/
theorem awaits_takeHead (hd : d ∉ (s.deque w).head?) : (s.takeHead w).awaits d = s.awaits d := by
  unfold takeHead
  split
  · rfl
  · next d' q hq =>
    rw [hq] at hd
    apply awaits_modify_of_ne
    rintro rfl
    exact hd rfl

end State

/-! ## The shape -/

variable {T : Tree} {s s' : State} {a : Act} {pc : Pc} {q : List ℕ}

/-- `d` is suspended in the fork of what `x` is part of, and was not taken since. -/
def State.Attached (T : Tree) (s : State) (x d : ℕ) : Prop :=
  ∃ k, s.awaits d = some k ∧ k.child = T.base x ∧ k.taken = false

/-- What is known of the tasks in the deque of a worker that stands at a point. -/
def Fresh (T : Tree) (s : State) : Pc → List ℕ → Prop
  | .run f, q => List.IsChain (s.Attached T) (f :: q)
  | .joinLoad f, q => s.awaits f = none ∧ List.IsChain (s.Attached T) (f :: q)
  | .joinSub f, q => s.awaits f = none ∧ List.IsChain (s.Attached T) (f :: q)
  | .final c, q => List.IsChain (s.Attached T) (c :: q)
  | .switched _ _, q =>
      (∀ d ∈ q.head?, (s.task d).counted = true) ∧ List.IsChain (s.Attached T) q
  | .selfSteal, q =>
      (∀ d ∈ q.head?, (s.task d).counted = true) ∧ List.IsChain (s.Attached T) q
  | .subJoin c, _ => T.tag c = .fork
  | .idle, _ => True
  | .stolen _, _ => True
  | .lost _, _ => True

/-- A chain over the same tasks. -/
theorem isChain_attached {x : ℕ}
    (h : ∀ d ∈ q, s'.awaits d = s.awaits d)
    (hq : List.IsChain (s.Attached T) (x :: q)) : List.IsChain (s'.Attached T) (x :: q) := by
  refine hq.imp_of_mem_tail_imp ?_
  rintro y d - hd ⟨k, hk, hchild, htaken⟩
  exact ⟨k, (h d hd).trans hk, hchild, htaken⟩

/-- It is about the forks that the tasks are suspended in. -/
theorem Fresh.congr (hf : Fresh T s pc q)
    (h : ∀ d ∈ q, s'.awaits d = s.awaits d)
    (hcode : ∀ f, pc.code = some f → s'.awaits f = s.awaits f) :
    Fresh T s' pc q := by
  have hhead : (∀ d ∈ q.head?, (s.task d).counted = true) →
      ∀ d ∈ q.head?, (s'.task d).counted = true := by
    intro hc d hd
    have hsame : (s'.task d).awaiting = (s.task d).awaiting := h d (List.mem_of_mem_head? hd)
    rw [Task.counted, hsame]
    exact hc d hd
  have htail : List.IsChain (s.Attached T) q → List.IsChain (s'.Attached T) q := by
    intro hq
    cases q with
    | nil => exact .nil
    | cons d q => exact isChain_attached (fun d' hd' => h d' (List.mem_cons_of_mem d hd')) hq
  cases pc with
  | run f => exact isChain_attached h hf
  | joinLoad f => exact ⟨(hcode f rfl).trans hf.1, isChain_attached h hf.2⟩
  | joinSub f => exact ⟨(hcode f rfl).trans hf.1, isChain_attached h hf.2⟩
  | final c => exact isChain_attached h hf
  | switched f steals => exact ⟨hhead hf.1, htail hf.2⟩
  | selfSteal => exact ⟨hhead hf.1, htail hf.2⟩
  | subJoin c => exact hf
  | idle => trivial
  | stolen f => trivial
  | lost c => trivial

/-- A thief shortens the far end. -/
theorem Fresh.of_append {r : List ℕ} (h : Fresh T s pc (q ++ r)) : Fresh T s pc q := by
  have hhead : (∀ d ∈ (q ++ r).head?, (s.task d).counted = true) →
      ∀ d ∈ q.head?, (s.task d).counted = true := by
    intro hc d hd
    apply hc d
    rw [List.head?_append, hd]
    rfl
  cases pc with
  | run f => exact isChain_prefix h
  | joinLoad f => exact ⟨h.1, isChain_prefix h.2⟩
  | joinSub f => exact ⟨h.1, isChain_prefix h.2⟩
  | final c => exact isChain_prefix h
  | switched f steals => exact ⟨hhead h.1, h.2.left_of_append⟩
  | selfSteal => exact ⟨hhead h.1, h.2.left_of_append⟩
  | subJoin c => exact h
  | idle => trivial
  | stolen f => trivial
  | lost c => trivial

/-- At every worker. -/
def AllFresh (T : Tree) (s : State) : Prop := ∀ w, Fresh T s (s.pc w) (s.deque w)

/-- One worker moves on, with its own deque, and the forks of nobody else change. -/
theorem AllFresh.update {w : ℕ} (hs : AllFresh T s) (hp : Placed s)
    (hpc : s'.pc = Function.update s.pc w pc) (hq : s'.deque = Function.update s.deque w q)
    (haw : ∀ v, v ≠ w → ∀ d, s.loc d = .queued v ∨ s.loc d = .run v →
      s'.awaits d = s.awaits d)
    (h : Fresh T s' pc q) : AllFresh T s' := by
  intro v
  rw [hpc, hq]
  by_cases hv : v = w
  · subst hv
    rwa [Function.update_self, Function.update_self]
  · rw [Function.update_of_ne hv, Function.update_of_ne hv]
    refine (hs v).congr ?_ ?_
    · intro d hd
      exact haw v hv d (Or.inl ((hp.queued v d).mp hd))
    · intro f hf
      exact haw v hv f (Or.inr ((hp.run v f).mp hf))

/-- A task that the code it runs for calls is part of the same. -/
theorem State.Attached.to_call {c d : ℕ} (ht : T.tag c = .call)
    (h : s.Attached T (T.parent c) d) : s.Attached T c d := by
  obtain ⟨k, hk, hchild, htaken⟩ := h
  exact ⟨k, hk, hchild.trans (Tree.base_of_call ht).symm, htaken⟩

/-- What hangs on a called task hangs on its caller. -/
theorem State.Attached.of_call {f d : ℕ} (ht : T.tag f = .call)
    (h : s.Attached T f d) : s.Attached T (T.parent f) d := by
  obtain ⟨k, hk, hchild, htaken⟩ := h
  exact ⟨k, hk, hchild.trans (Tree.base_of_call ht), htaken⟩

/-- The head of a chain may be replaced by one that is attached to the same task. -/
theorem isChain_replace {x y : ℕ} (hxy : ∀ d, s.Attached T x d → s.Attached T y d)
    (h : List.IsChain (s.Attached T) (x :: q)) : List.IsChain (s.Attached T) (y :: q) := by
  cases q with
  | nil => exact .singleton y
  | cons d q =>
      obtain ⟨hd, hq⟩ := List.isChain_cons_cons.mp h
      exact List.isChain_cons_cons.mpr ⟨hxy d hd, hq⟩

end Libfork.Runtime
