import Libfork.Future.Model

/-!
# The life of one shared state

* `Life` — everything that concerns one shared state: its call of `schedule`, its root task, its
  contents, the pointers to it, and the futures that hold it, each with where it stands.
* `Life.Step` — what may happen to it.
* `Good` — what holds of it at any time: the stages of the call and of the task go together, at
  most one future holds it, the semaphore counts one from the end of the task to the first wait,
  and what the first `get` gives is what the task ended with.
* **`good_of_step`** — every step keeps it so.

Source: `sync_wait.hpp`, `future_shared_state`, `future`, `schedule`; `promise.hpp`,
`final_awaitable`.
-/

namespace Libfork.Future

variable {R E : Type}

/-- One shared state, and everybody who has to do with it. -/
structure Life (R E : Type) where
  call : CallPc
  task : TaskPc
  cell : SharedState R E
  ended : Option (Ended R E)
  shareState : Option ℕ
  combinator : Option ℕ
  promise : Option ℕ
  /-- The futures that hold it. -/
  pcs : ℕ → Option FuturePc
  answers : List (Answer R E)

/-- What may happen to the shared state `i`. -/
inductive Life.Step (i : ℕ) (v : Life R E) : Life R E → Prop
  | same : Step i v v
  | make (isVoid : Bool) (hc : v.call = .uncalled) :
      Step i v { v with shareState := some i, cell := .new isVoid, call := .combine }
  | combine (hc : v.call = .combine) :
      Step i v { v with combinator := v.shareState, call := .create }
  | create (hc : v.call = .create) : Step i v { v with
      promise := v.combinator, combinator := none, call := .release, task := .suspended }
  | release (hc : v.call = .release) : Step i v { v with call := .publish }
  | publish (hc : v.call = .publish) : Step i v { v with call := .handOver, task := .submitted }
  | throws (hc : v.call = .combine ∨ v.call = .create ∨ v.call = .release ∨ v.call = .publish) :
      Step i v { v with
        shareState := none, combinator := none, promise := none, call := .finished,
        task := .absent }
  | handOver (k : ℕ) (hc : v.call = .handOver) : Step i v { v with
      shareState := none, call := .finished, pcs := Function.update v.pcs k (some .idle) }
  | resume (ht : v.task = .submitted) : Step i v { v with task := .running }
  | finish (e : Ended R E) (ht : v.task = .running) (he : e.fits v.cell.isVoid = true) :
      Step i v { v with
        cell := { v.cell with result := e.store v.cell.result }, task := .returned
        ended := some e }
  | increments (ht : v.task = .returned) : Step i v { v with
      cell := { v.cell with sem := v.cell.sem + 1 }, task := .released }
  | notifies (ht : v.task = .released) : Step i v { v with task := .notified }
  | destroys (ht : v.task = .notified) : Step i v { v with promise := none, task := .gone }
  | blocks (k : ℕ) (op : Op) (hk : v.pcs k = some .idle) (hs : v.cell.status = .noWait) :
      Step i v { v with pcs := Function.update v.pcs k (some (.acquiring op)) }
  | acquires (k : ℕ) (op : Op) (hk : v.pcs k = some (.acquiring op)) (hs : v.cell.sem ≠ 0) :
      Step i v { v with
        cell := { v.cell with sem := v.cell.sem - 1 }
        pcs := Function.update v.pcs k (some (.acquired op)) }
  | waited (k : ℕ) (hk : v.pcs k = some (.acquired .wait)) : Step i v { v with
      cell := { v.cell with status := .ready }, pcs := Function.update v.pcs k (some .idle) }
  | gets (k : ℕ) (hk : v.pcs k = some (.acquired .get) ∨
        v.pcs k = some .idle ∧ v.cell.status = .ready) : Step i v { v with
      cell := { v.cell with
        status := .retrievd, result := (v.cell.result.take v.cell.isVoid).2 }
      pcs := Function.update v.pcs k (some .idle)
      answers := v.answers ++ [(v.cell.result.take v.cell.isVoid).1] }
  | getsAgain (k : ℕ) (hs : v.cell.status = .retrievd) :
      Step i v { v with answers := v.answers ++ [.emptyFuture] }
  | drops (k : ℕ) : Step i v { v with pcs := Function.update v.pcs k none }
  | moves (k k' : ℕ) (hk : v.pcs k = some .idle) : Step i v { v with
      pcs := Function.update (Function.update v.pcs k none) k' (some .idle) }

/-! ## What holds of it -/

/-- The call of `schedule` has its `share_state`. -/
def CallPc.holds : CallPc → Bool
  | .uncalled => false
  | .finished => false
  | _ => true

/-- The root task has a frame. -/
def TaskPc.framed : TaskPc → Bool
  | .absent => false
  | .gone => false
  | _ => true

/-- The scheduler has accepted the root task. -/
def TaskPc.accepted : TaskPc → Bool
  | .absent => false
  | .suspended => false
  | _ => true

/-- How far the root task is while the call of `schedule` stands there. -/
def Stage : CallPc → TaskPc → Prop
  | .uncalled, t => t = .absent
  | .combine, t => t = .absent
  | .create, t => t = .absent
  | .release, t => t = .suspended
  | .publish, t => t = .suspended
  | .handOver, t => t.accepted = true
  | .finished, t => t = .absent ∨ t.accepted = true

/-- The token of a future that holds the state: the semaphore counts one from the end of the task
until somebody waits, and whoever has acquired it has it until the status says so. -/
def Token (c : SharedState R E) (t : TaskPc) : FuturePc → Prop
  | .dead => False
  | .idle => c.sem = if c.status = .noWait then t.over.toNat else 0
  | .acquiring _ => c.status = .noWait ∧ c.sem = t.over.toNat
  | .acquired _ => c.status = .noWait ∧ c.sem = 0 ∧ t.over = true

/-- The contents of a shared state. -/
structure Stored (c : SharedState R E) (t : TaskPc) (ended : Option (Ended R E)) : Prop where
  sem_le : c.sem ≤ t.over.toNat
  status : t.over = false → c.status = .noWait
  empty : t.over = false → t ≠ .returned → c.result = .empty ∧ ended = none
  result : t.over = true ∨ t = .returned → ∃ e, ended = some e ∧ e.fits c.isVoid = true ∧
    (c.status ≠ .retrievd → c.result = e.store .empty)

/-- The answers so far: none, or what the task ended with, once, and then none again. -/
def Answered (c : SharedState R E) (ended : Option (Ended R E)) (answers : List (Answer R E)) :
    Prop :=
  if c.status = .retrievd then
    ∃ e n, ended = some e ∧ answers = e.answer :: List.replicate n .emptyFuture
  else answers = []

/-- What holds of the shared state `i` at any time. -/
structure Good (i : ℕ) (v : Life R E) : Prop where
  shareState : v.shareState = if v.call.holds then some i else none
  combinator : v.combinator = if v.call = .create then some i else none
  promise : v.promise = if v.task.framed then some i else none
  stage : Stage v.call v.task
  /-- Until the call returns nobody has waited. -/
  calling : v.call ≠ .finished → v.cell.status = .noWait ∧ v.cell.sem = v.task.over.toNat
  held : ∀ k pc, v.pcs k = some pc → v.call = .finished ∧ v.task.accepted = true
  unique : ∀ k k' pc pc', v.pcs k = some pc → v.pcs k' = some pc' → k = k'
  token : ∀ k pc, v.pcs k = some pc → Token v.cell v.task pc
  stored : Stored v.cell v.task v.ended
  answered : Answered v.cell v.ended v.answers

variable {i : ℕ} {v v' : Life R E}

/-! ## What is stored and taken -/

/-- An empty `try_eventually` is what the assertions of its assignments ask for. -/
theorem Stored.isEmpty {c : SharedState R E} {t : TaskPc} {ended : Option (Ended R E)}
    (h : Stored c t ended) (ht : t = .running) : c.result.isEmpty c.isVoid = true := by
  rw [(h.empty (by rw [ht]; rfl) (by rw [ht]; nofun)).1]
  rfl

/-- What is taken after the end of a task is what it ended with. -/
theorem take_store {isVoid : Bool} (e : Ended R E) (he : e.fits isVoid = true) :
    ((e.store .empty).take isVoid).1 = e.answer := by
  cases e with
  | value r =>
      have : isVoid = false := by simpa [Ended.fits] using he
      rw [this]
      rfl
  | void =>
      have : isVoid = true := he
      rw [this]
      rfl
  | exception e => cases isVoid <;> rfl

/-! ## The steps keep it -/

/-- The future `k` is the only one that may hold the state. -/
theorem Good.pcs_eq (h : Good i v) {k k' : ℕ} {pc pc' : FuturePc} (hk : v.pcs k = some pc)
    (hk' : v.pcs k' = some pc') : k = k' := h.unique k k' pc pc' hk hk'

/-- Nothing but where the only future stands, or whether there is one, changes. -/
theorem Good.goto (h : Good i v) {k k' : ℕ} {pc pc' : FuturePc} (hk : v.pcs k = some pc)
    (htoken : Token v.cell v.task pc') :
    Good i { v with pcs := Function.update (Function.update v.pcs k none) k' (some pc') } := by
  have hother : ∀ j p, Function.update (Function.update v.pcs k none) k' (some pc') j = some p →
      j = k' ∧ p = pc' := by
    intro j p hj
    by_cases hjk' : j = k'
    · subst hjk'
      rw [Function.update_self] at hj
      exact ⟨rfl, (Option.some.inj hj).symm⟩
    · rw [Function.update_of_ne hjk'] at hj
      by_cases hjk : j = k
      · rw [hjk, Function.update_self] at hj
        cases hj
      · rw [Function.update_of_ne hjk] at hj
        exact absurd (h.pcs_eq hj hk) hjk
  refine ⟨h.shareState, h.combinator, h.promise, h.stage, h.calling, fun _ _ _ => h.held k pc hk,
    fun a b p q ha hb => ?_, fun j p hj => ?_, h.stored, h.answered⟩
  · rw [(hother a p ha).1, (hother b q hb).1]
  · rw [(hother j p hj).2]
    exact htoken

/-- The only future goes on, and the contents change as well. -/
theorem Good.write (h : Good i v) {k : ℕ} {pc pc' : FuturePc} {c : SharedState R E}
    {answers : List (Answer R E)} (hk : v.pcs k = some pc) (htoken : Token c v.task pc')
    (hstored : Stored c v.task v.ended) (hanswered : Answered c v.ended answers) :
    Good i { v with
      cell := c, pcs := Function.update v.pcs k (some pc'), answers := answers } := by
  have hother : ∀ j p, Function.update v.pcs k (some pc') j = some p → j = k ∧ p = pc' := by
    intro j p hj
    by_cases hjk : j = k
    · subst hjk
      rw [Function.update_self] at hj
      exact ⟨rfl, (Option.some.inj hj).symm⟩
    · rw [Function.update_of_ne hjk] at hj
      exact absurd (h.pcs_eq hj hk) hjk
  have hover := h.held k pc hk
  refine ⟨h.shareState, h.combinator, h.promise, h.stage, fun hc => absurd hover.1 hc,
    fun _ _ _ => hover, fun a b p q ha hb => ?_, fun j p hj => ?_, hstored, hanswered⟩
  · rw [(hother a p ha).1, (hother b q hb).1]
  · rw [(hother j p hj).2]
    exact htoken

/-- No future holds the state before the call has returned. -/
theorem Good.pcs_eq_none (h : Good i v) (hc : v.call ≠ .finished) (k : ℕ) : v.pcs k = none := by
  cases hk : v.pcs k with
  | none => rfl
  | some pc => exact absurd (h.held k pc hk).1 hc

/-- A step of the call before it returns. -/
theorem Good.step_call (h : Good i v) (hc : v.call ≠ .finished) {c : CallPc} {t : TaskPc}
    {cell : SharedState R E} {p q r : Option ℕ} (hover : t.over = false)
    (hret : t ≠ .returned) (hended : v.ended = none) (hanswers : v.answers = [])
    (hcell : cell.result = .empty ∧ cell.sem = 0 ∧ cell.status = .noWait)
    (hp : p = if c.holds then some i else none) (hq : q = if c = .create then some i else none)
    (hr : r = if t.framed then some i else none) (hstage : Stage c t) :
    Good i { v with
      call := c, task := t, cell := cell, shareState := p, combinator := q, promise := r } := by
  have hnone := h.pcs_eq_none hc
  refine ⟨hp, hq, hr, hstage, fun _ => ⟨hcell.2.2, ?_⟩, fun k pc hk => ?_, fun k k' pc pc' hk => ?_,
    fun k pc hk => ?_, ⟨?_, fun _ => hcell.2.2, fun _ _ => ⟨hcell.1, hended⟩, ?_⟩, ?_⟩
  · rw [hcell.2.1, hover]
    rfl
  · rw [hnone k] at hk
    cases hk
  · rw [hnone k] at hk
    cases hk
  · rw [hnone k] at hk
    cases hk
  · rw [hcell.2.1]
    exact Nat.zero_le _
  · rintro (ht | ht)
    · rw [hover] at ht
      cases ht
    · exact absurd ht hret
  · unfold Answered
    rw [if_neg (by rw [hcell.2.2]; nofun)]
    exact hanswers

/-- Before the task runs there is nothing in the state. -/
theorem Good.blank (h : Good i v) (hc : v.call ≠ .finished) (ht : v.task = .absent ∨
    v.task = .suspended) : v.ended = none ∧ v.answers = [] ∧
      v.cell.result = .empty ∧ v.cell.sem = 0 ∧ v.cell.status = .noWait := by
  obtain ⟨hstatus, hsem⟩ := h.calling hc
  have hover : v.task.over = false := by
    rcases ht with ht | ht <;> rw [ht] <;> rfl
  have hret : v.task ≠ .returned := by
    rcases ht with ht | ht <;> rw [ht] <;> nofun
  obtain ⟨hempty, hended⟩ := h.stored.empty hover hret
  have hanswers := h.answered
  unfold Answered at hanswers
  rw [if_neg (by rw [hstatus]; nofun)] at hanswers
  rw [hover] at hsem
  exact ⟨hended, hanswers, hempty, hsem, hstatus⟩

/-- A step of the task that the call and the futures do not see. -/
theorem Good.step_task (h : Good i v) {t : TaskPc} (ht : v.task.accepted = true)
    (haccepted : t.accepted = true) (hover : t.over = v.task.over)
    (hret : t = .returned ↔ v.task = .returned) {r : Option ℕ}
    (hr : r = if t.framed then some i else none) :
    Good i { v with task := t, promise := r } := by
  have hcall : v.call = .handOver ∨ v.call = .finished := by
    have hstage := h.stage
    revert hstage
    cases v.call <;> intro hstage
    case handOver => exact .inl rfl
    case finished => exact .inr rfl
    all_goals
      simp only [Stage] at hstage
      rw [hstage] at ht
      cases ht
  refine ⟨h.shareState, h.combinator, hr, ?_, fun hc => ?_, fun k pc hk => ?_, h.unique,
    fun k pc hk => ?_, ?_, h.answered⟩
  · rcases hcall with hc | hc <;> simp only [hc, Stage]
    · exact haccepted
    · exact .inr haccepted
  · dsimp only
    rw [hover]
    exact h.calling hc
  · exact ⟨(h.held k pc hk).1, haccepted⟩
  · have := h.token k pc hk
    cases pc <;> simp only [Token, hover] at this ⊢ <;> exact this
  · obtain ⟨hsem, hstatus, hempty, hresult⟩ := h.stored
    refine ⟨by dsimp only; rw [hover]; exact hsem, fun ho => hstatus (hover ▸ ho),
      fun ho hn => hempty (hover ▸ ho) fun heq => hn (hret.mpr heq), fun hor => ?_⟩
    exact hresult (hor.imp (fun ho => hover ▸ ho) hret.mp)

/-- The end of the task: what it writes while the semaphore has not been incremented. -/
theorem Good.step_end (h : Good i v) (ht : v.task.accepted = true) (hover : v.task.over = false)
    {t : TaskPc} {c : SharedState R E} {ended : Option (Ended R E)} (haccepted : t.accepted = true)
    (hframed : t.framed = v.task.framed) (hstatus : c.status = v.cell.status)
    (hsem : c.sem = t.over.toNat) (hstored : Stored c t ended) :
    Good i { v with task := t, cell := c, ended := ended } := by
  have hwait : c.status = .noWait := hstatus.trans (h.stored.status hover)
  have hstage : Stage v.call t := by
    have hstage := h.stage
    revert hstage
    cases v.call <;> intro hstage
    case handOver => exact haccepted
    case finished => exact .inr haccepted
    all_goals
      simp only [Stage] at hstage
      rw [hstage] at ht
      cases ht
  refine ⟨h.shareState, h.combinator, ?_, hstage, fun _ => ⟨hwait, hsem⟩, fun k pc hk => ?_,
    h.unique, fun k pc hk => ?_, hstored, ?_⟩
  · dsimp only
    rw [hframed]
    exact h.promise
  · exact ⟨(h.held k pc hk).1, haccepted⟩
  · have htoken := h.token k pc hk
    cases pc with
    | dead => exact htoken
    | idle =>
        simp only [Token]
        rw [if_pos hwait, hsem]
    | acquiring op => exact ⟨hwait, hsem⟩
    | acquired op =>
        have := htoken.2.2
        rw [hover] at this
        cases this
  · have hanswered := h.answered
    unfold Answered at hanswered ⊢
    rw [h.stored.status hover, if_neg (by nofun)] at hanswered
    dsimp only
    rw [hwait, if_neg (by nofun)]
    exact hanswered

/-- What a future that has acquired the semaphore, or whose status is `ready`, finds. -/
theorem Good.result (h : Good i v) {k : ℕ} (hk : v.pcs k = some (.acquired .get) ∨
    v.pcs k = some .idle ∧ v.cell.status = .ready) :
    v.task.over = true ∧ v.cell.sem = 0 ∧ v.cell.status ≠ .retrievd ∧
      ∃ e, v.ended = some e ∧ e.fits v.cell.isVoid = true ∧ v.cell.result = e.store .empty := by
  have hover : v.task.over = true ∧ v.cell.sem = 0 ∧ v.cell.status ≠ .retrievd := by
    rcases hk with hk | ⟨hk, hs⟩
    · obtain ⟨hs, hsem, hover⟩ := h.token k _ hk
      exact ⟨hover, hsem, by rw [hs]; nofun⟩
    · have htoken := h.token k _ hk
      simp only [Token] at htoken
      rw [hs, if_neg (by nofun)] at htoken
      refine ⟨?_, htoken, by rw [hs]; nofun⟩
      by_contra hover
      have := h.stored.status (Bool.not_eq_true _ ▸ hover)
      rw [hs] at this
      cases this
  obtain ⟨e, hended, he, hresult⟩ := h.stored.result (.inl hover.1)
  exact ⟨hover.1, hover.2.1, hover.2.2, e, hended, he, hresult hover.2.2⟩

/-- `schedule` makes the shared state. -/
theorem Good.make (h : Good i v) (isVoid : Bool) (hc : v.call = .uncalled) :
    Good i { v with shareState := some i, cell := .new isVoid, call := .combine } := by
  have hne : v.call ≠ .finished := by rw [hc]; nofun
  have ht : v.task = .absent := by simpa [hc, Stage] using h.stage
  obtain ⟨hended, hanswers, -⟩ := h.blank hne (.inl ht)
  refine h.step_call hne (by rw [ht]; rfl) (by rw [ht]; nofun) hended hanswers ⟨rfl, rfl, rfl⟩
    rfl ?_ h.promise ht
  rw [h.combinator, hc]
  rfl

/-- The combinator gets the shared state. -/
theorem Good.combine (h : Good i v) (hc : v.call = .combine) :
    Good i { v with combinator := v.shareState, call := .create } := by
  have hne : v.call ≠ .finished := by rw [hc]; nofun
  have ht : v.task = .absent := by simpa [hc, Stage] using h.stage
  obtain ⟨hended, hanswers, hcell⟩ := h.blank hne (.inl ht)
  have hshare : v.shareState = some i := by rw [h.shareState, hc]; rfl
  exact h.step_call hne (by rw [ht]; rfl) (by rw [ht]; nofun) hended hanswers hcell
    hshare hshare h.promise ht

/-- The frame of the root task gets the pointer of the combinator. -/
theorem Good.create (h : Good i v) (hc : v.call = .create) :
    Good i { v with
      promise := v.combinator, combinator := none, call := .release, task := .suspended } := by
  have hne : v.call ≠ .finished := by rw [hc]; nofun
  have ht : v.task = .absent := by simpa [hc, Stage] using h.stage
  obtain ⟨hended, hanswers, hcell⟩ := h.blank hne (.inl ht)
  refine h.step_call hne rfl (by nofun) hended hanswers hcell ?_ rfl ?_ rfl
  · rw [h.shareState, hc]
    rfl
  · rw [h.combinator, hc]
    rfl

/-- The stack of the caller is released. -/
theorem Good.release (h : Good i v) (hc : v.call = .release) :
    Good i { v with call := .publish } := by
  have hne : v.call ≠ .finished := by rw [hc]; nofun
  have ht : v.task = .suspended := by simpa [hc, Stage] using h.stage
  obtain ⟨hended, hanswers, hcell⟩ := h.blank hne (.inr ht)
  refine h.step_call hne (by rw [ht]; rfl) (by rw [ht]; nofun) hended hanswers hcell ?_ ?_
    h.promise ht
  · rw [h.shareState, hc]
    rfl
  · rw [h.combinator, hc]
    rfl

/-- The scheduler accepts the root task. -/
theorem Good.publish (h : Good i v) (hc : v.call = .publish) :
    Good i { v with call := .handOver, task := .submitted } := by
  have hne : v.call ≠ .finished := by rw [hc]; nofun
  have ht : v.task = .suspended := by simpa [hc, Stage] using h.stage
  obtain ⟨hended, hanswers, hcell⟩ := h.blank hne (.inr ht)
  refine h.step_call hne rfl (by nofun) hended hanswers hcell ?_ ?_ ?_ rfl
  · rw [h.shareState, hc]
    rfl
  · rw [h.combinator, hc]
    rfl
  · rw [h.promise, ht]
    rfl

/-- A step of `schedule` throws, and everything that points to the state is gone. -/
theorem Good.throws (h : Good i v)
    (hc : v.call = .combine ∨ v.call = .create ∨ v.call = .release ∨ v.call = .publish) :
    Good i { v with
      shareState := none, combinator := none, promise := none, call := .finished,
      task := .absent } := by
  have hne : v.call ≠ .finished := by
    rcases hc with hc | hc | hc | hc <;> rw [hc] <;> nofun
  have ht : v.task = .absent ∨ v.task = .suspended := by
    have hstage := h.stage
    rcases hc with hc | hc | hc | hc <;> simp only [hc, Stage] at hstage
    · exact .inl hstage
    · exact .inl hstage
    · exact .inr hstage
    · exact .inr hstage
  obtain ⟨hended, hanswers, hcell⟩ := h.blank hne ht
  exact h.step_call hne rfl (by nofun) hended hanswers hcell rfl rfl rfl (.inl rfl)

/-- `schedule` hands the state over to its first future. -/
theorem Good.handOver (h : Good i v) (k : ℕ) (hc : v.call = .handOver) :
    Good i { v with
      shareState := none, call := .finished, pcs := Function.update v.pcs k (some .idle) } := by
  have hne : v.call ≠ .finished := by rw [hc]; nofun
  have hnone := h.pcs_eq_none hne
  obtain ⟨hstatus, hsem⟩ := h.calling hne
  have haccepted : v.task.accepted = true := by simpa [hc, Stage] using h.stage
  have hother : ∀ j p, Function.update v.pcs k (some .idle) j = some p →
      j = k ∧ p = .idle := by
    intro j p hj
    by_cases hjk : j = k
    · subst hjk
      rw [Function.update_self] at hj
      exact ⟨rfl, (Option.some.inj hj).symm⟩
    · rw [Function.update_of_ne hjk, hnone j] at hj
      cases hj
  refine ⟨rfl, ?_, h.promise, .inr haccepted, fun hc => absurd rfl hc,
    fun _ _ _ => ⟨rfl, haccepted⟩, fun a b p q ha hb => ?_, fun j p hj => ?_, h.stored,
    h.answered⟩
  · dsimp only
    rw [h.combinator, hc]
    rfl
  · rw [(hother a p ha).1, (hother b q hb).1]
  · rw [(hother j p hj).2]
    simp only [Token]
    rw [if_pos hstatus, hsem]

/-- A worker resumes the root task. -/
theorem Good.resume (h : Good i v) (ht : v.task = .submitted) :
    Good i { v with task := .running } := by
  refine h.step_task (by rw [ht]; rfl) rfl (by rw [ht]; rfl) (by rw [ht]; simp) ?_
  rw [h.promise, ht]
  rfl

/-- The root task ends, and its result is stored. -/
theorem Good.finish (h : Good i v) (e : Ended R E) (ht : v.task = .running)
    (he : e.fits v.cell.isVoid = true) : Good i { v with
      cell := { v.cell with result := e.store v.cell.result }, task := .returned
      ended := some e } := by
  have hover : v.task.over = false := by rw [ht]; rfl
  have hempty := (h.stored.empty hover (by rw [ht]; nofun)).1
  have hsem : v.cell.sem = 0 := by simpa [hover] using h.stored.sem_le
  refine h.step_end (by rw [ht]; rfl) hover rfl (by rw [ht]; rfl) rfl hsem
    ⟨hsem.le, fun _ => h.stored.status hover, fun _ hn => absurd rfl hn, fun _ => ?_⟩
  exact ⟨e, rfl, he, fun _ => congrArg e.store hempty⟩

/-- The semaphore is incremented. -/
theorem Good.increments (h : Good i v) (ht : v.task = .returned) :
    Good i { v with cell := { v.cell with sem := v.cell.sem + 1 }, task := .released } := by
  have hover : v.task.over = false := by rw [ht]; rfl
  have hsem : v.cell.sem = 0 := by simpa [hover] using h.stored.sem_le
  have hsem' : v.cell.sem + 1 = TaskPc.released.over.toNat := by rw [hsem]; rfl
  refine h.step_end (by rw [ht]; rfl) hover rfl (by rw [ht]; rfl) rfl hsem'
    ⟨hsem'.le, by nofun, by nofun, fun _ => ?_⟩
  exact h.stored.result (.inr ht)

/-- Whoever waits for the semaphore is notified. -/
theorem Good.notifies (h : Good i v) (ht : v.task = .released) :
    Good i { v with task := .notified } := by
  refine h.step_task (by rw [ht]; rfl) rfl (by rw [ht]; rfl) (by rw [ht]; simp) ?_
  rw [h.promise, ht]
  rfl

/-- A future begins to wait. -/
theorem Good.blocks (h : Good i v) (k : ℕ) (op : Op) (hk : v.pcs k = some .idle)
    (hs : v.cell.status = .noWait) :
    Good i { v with pcs := Function.update v.pcs k (some (.acquiring op)) } := by
  have htoken := h.token k _ hk
  simp only [Token] at htoken
  rw [if_pos hs] at htoken
  exact h.write hk ⟨hs, htoken⟩ h.stored h.answered

/-- A future acquires the semaphore. -/
theorem Good.acquires (h : Good i v) (k : ℕ) (op : Op) (hk : v.pcs k = some (.acquiring op))
    (hs : v.cell.sem ≠ 0) : Good i { v with
      cell := { v.cell with sem := v.cell.sem - 1 }
      pcs := Function.update v.pcs k (some (.acquired op)) } := by
  obtain ⟨hstatus, hsem⟩ := h.token k _ hk
  have hover : v.task.over = true := by
    by_contra hover
    rw [Bool.not_eq_true] at hover
    rw [hsem, hover] at hs
    exact hs rfl
  have hzero : v.cell.sem - 1 = 0 := by rw [hsem, hover]; rfl
  refine h.write hk ⟨hstatus, hzero, hover⟩ ⟨?_, h.stored.status, h.stored.empty,
    h.stored.result⟩ h.answered
  exact hzero.le.trans (Nat.zero_le _)

/-- A future that has waited notes that the result is there. -/
theorem Good.waited (h : Good i v) (k : ℕ) (hk : v.pcs k = some (.acquired .wait)) :
    Good i { v with
      cell := { v.cell with status := .ready }
      pcs := Function.update v.pcs k (some .idle) } := by
  obtain ⟨hstatus, hsem, hover⟩ := h.token k _ hk
  obtain ⟨e, hended, he, hresult⟩ := h.stored.result (.inl hover)
  refine h.write hk ?_ ⟨h.stored.sem_le, fun ho => ?_, h.stored.empty, fun _ => ?_⟩ ?_
  · simp only [Token]
    rw [if_neg (by nofun)]
    exact hsem
  · rw [hover] at ho
    cases ho
  · exact ⟨e, hended, he, fun _ => hresult (by rw [hstatus]; nofun)⟩
  · have hanswered := h.answered
    unfold Answered at hanswered ⊢
    rw [if_neg (by rw [hstatus]; nofun)] at hanswered
    exact hanswered

/-- A future takes the result. -/
theorem Good.gets (h : Good i v) (k : ℕ) (hk : v.pcs k = some (.acquired .get) ∨
      v.pcs k = some .idle ∧ v.cell.status = .ready) : Good i { v with
      cell := { v.cell with
        status := .retrievd, result := (v.cell.result.take v.cell.isVoid).2 }
      pcs := Function.update v.pcs k (some .idle)
      answers := v.answers ++ [(v.cell.result.take v.cell.isVoid).1] } := by
  obtain ⟨hover, hsem, hstatus, e, hended, he, hresult⟩ := h.result hk
  obtain ⟨pc, hpc⟩ : ∃ pc, v.pcs k = some pc := by
    rcases hk with hk | ⟨hk, -⟩ <;> exact ⟨_, hk⟩
  refine h.write hpc ?_ ⟨h.stored.sem_le, fun ho => ?_, fun ho => ?_, fun _ => ?_⟩ ?_
  · simp only [Token]
    rw [if_neg (by nofun)]
    exact hsem
  · rw [hover] at ho
    cases ho
  · rw [hover] at ho
    cases ho
  · exact ⟨e, hended, he, fun hn => absurd rfl hn⟩
  · have hanswered := h.answered
    unfold Answered at hanswered ⊢
    rw [if_neg hstatus] at hanswered
    rw [if_pos rfl, hanswered, hresult]
    exact ⟨e, 0, hended, congrArg (· :: []) (take_store e he)⟩

/-- A `get` after the first one throws. -/
theorem Good.getsAgain (h : Good i v) (hs : v.cell.status = .retrievd) :
    Good i { v with answers := v.answers ++ [.emptyFuture] } := by
  refine ⟨h.shareState, h.combinator, h.promise, h.stage, h.calling, h.held, h.unique, h.token,
    h.stored, ?_⟩
  have hanswered := h.answered
  unfold Answered at hanswered ⊢
  rw [if_pos hs] at hanswered
  obtain ⟨e, n, hended, hanswers⟩ := hanswered
  dsimp only
  rw [if_pos hs, hanswers]
  exact ⟨e, n + 1, hended, by rw [List.cons_append, List.replicate_succ']⟩

/-- A future lets the state go. -/
theorem Good.drops (h : Good i v) (k : ℕ) :
    Good i { v with pcs := Function.update v.pcs k none } := by
  have hle : ∀ j pc, Function.update v.pcs k none j = some pc → v.pcs j = some pc := by
    intro j pc hj
    by_cases hjk : j = k
    · rw [hjk, Function.update_self] at hj
      cases hj
    · rwa [Function.update_of_ne hjk] at hj
  exact ⟨h.shareState, h.combinator, h.promise, h.stage, h.calling,
    fun j pc hj => h.held j pc (hle j pc hj),
    fun a b p q ha hb => h.unique a b p q (hle a p ha) (hle b q hb),
    fun j pc hj => h.token j pc (hle j pc hj), h.stored, h.answered⟩

/-- **Every step of the life of a shared state keeps it good.** -/
theorem good_of_step (h : Good i v) (hstep : v.Step i v') : Good i v' := by
  cases hstep with
  | same => exact h
  | make isVoid hc => exact h.make isVoid hc
  | combine hc => exact h.combine hc
  | create hc => exact h.create hc
  | release hc => exact h.release hc
  | publish hc => exact h.publish hc
  | throws hc => exact h.throws hc
  | handOver k hc => exact h.handOver k hc
  | resume ht => exact h.resume ht
  | finish e ht he => exact h.finish e ht he
  | increments ht => exact h.increments ht
  | notifies ht => exact h.notifies ht
  | destroys ht =>
      exact h.step_task (by rw [ht]; rfl) rfl (by rw [ht]; rfl) (by rw [ht]; simp) rfl
  | blocks k op hk hs => exact h.blocks k op hk hs
  | acquires k op hk hs => exact h.acquires k op hk hs
  | waited k hk => exact h.waited k hk
  | gets k hk => exact h.gets k hk
  | getsAgain k hs => exact h.getsAgain hs
  | drops k => exact h.drops k
  | moves k k' hk => exact h.goto hk (h.token k _ hk)

end Libfork.Future
