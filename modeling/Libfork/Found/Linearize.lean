import Mathlib.Data.List.Induction
import Mathlib.Logic.Function.Basic
import Mathlib.Tactic.Common

/-!
# Linearization points

An object under concurrent use is judged by its **history**: the calls, the returns, and the
instants in between at which the operations take effect.

* `SeqSpec` — the sequential object: which results an operation may have, and what it leaves.
* `History S q₀ log q phase` — `log` is a history in which every operation takes effect at one
  instant of its own, `q` is the state of the sequential object after these instants, and
  `phase c` says where the call of `c` stands. It is the abstract machine that an implementation
  is shown to refine: each step of the implementation is a few rules of `History`.
* `Linearizable S q₀ log` — what the callers may rely on, read off the history alone.
* **`History.linearizable`** — every history of the abstract machine has it.
* `Forces S q₀ seen P` — where the object can be after the calls and returns `seen`, for every
  choice of the instants; **`Forces.not_linearizable`** — if it can be nowhere, there is no such
  choice.

Nothing here is about a particular program.
-/

namespace Libfork.Found

/-- A sequential object with states `σ`, operations `ω` and results `ρ`. -/
structure SeqSpec (σ ω ρ : Type) where
  /-- From the state `q` the operation `o` may have the result `r` and leave the state `q'`. -/
  step : σ → ω → ρ → σ → Prop

namespace Linearize

/-- What a history records of the threads `κ`. -/
inductive Event (κ ω ρ : Type)
  /-- `c` calls the operation `o`. -/
  | call (c : κ) (o : ω)
  /-- The call of `o` by `c` takes effect, with the result `r`. -/
  | point (c : κ) (o : ω) (r : ρ)
  /-- The call of `c` returns `r`. -/
  | ret (c : κ) (r : ρ)
deriving DecidableEq, Repr

/-- Where a thread stands. -/
inductive Phase (ω ρ : Type)
  /-- Between two calls. -/
  | out
  /-- In a call of `o` that has not taken effect. -/
  | pending (o : ω)
  /-- In a call that has taken effect, with the result `r`. -/
  | done (r : ρ)

variable {σ κ ω ρ : Type}

/-- Who an event is about. -/
def Event.caller : Event κ ω ρ → κ
  | call c _ => c
  | point c _ _ => c
  | ret c _ => c

/-- The operation and its result, if the event is an operation taking effect. -/
def Event.effect : Event κ ω ρ → Option (ω × ρ)
  | call _ _ => none
  | point _ o r => some (o, r)
  | ret _ _ => none

/-- The operations of a history in the order in which they take effect. -/
def effects (log : List (Event κ ω ρ)) : List (ω × ρ) := log.filterMap Event.effect

/-- The operations `l`, one after another, lead from the state `q` to `q'`. -/
def Legal (S : SeqSpec σ ω ρ) : σ → List (ω × ρ) → σ → Prop
  | q, [], q' => q = q'
  | q, (o, r) :: l, q' => ∃ m, S.step q o r m ∧ Legal S m l q'

/-- What an event does to where its thread stands: a call takes effect once, as the operation
that was called, and returns the result it had then. -/
inductive Moves : Phase ω ρ → Event κ ω ρ → Phase ω ρ → Prop
  | call (c : κ) (o : ω) : Moves .out (.call c o) (.pending o)
  | point (c : κ) (o : ω) (r : ρ) : Moves (.pending o) (.point c o r) (.done r)
  | ret (c : κ) (r : ρ) : Moves (.done r) (.ret c r) .out

/-- The events `l` of one thread are calls, one after another. -/
def Calls : Phase ω ρ → List (Event κ ω ρ) → Phase ω ρ → Prop
  | p, [], p' => p = p'
  | p, e :: l, p' => ∃ m, Moves p e m ∧ Calls m l p'

/-- **Linearizability** with the instants at which the operations take effect. -/
structure Linearizable [DecidableEq κ] (S : SeqSpec σ ω ρ) (q₀ : σ) (log : List (Event κ ω ρ)) :
    Prop where
  /-- In the order of these instants the operations are a run of the sequential object. -/
  legal : ∃ q, Legal S q₀ (effects log) q
  /-- Each instant lies between the call and the return of its operation. -/
  calls : ∀ c, ∃ p, Calls .out (log.filter fun e => e.caller = c) p

/-- The abstract machine. -/
inductive History [DecidableEq κ] (S : SeqSpec σ ω ρ) (q₀ : σ) :
    List (Event κ ω ρ) → σ → (κ → Phase ω ρ) → Prop
  | new : History S q₀ [] q₀ fun _ => .out
  | call {log q phase} (c : κ) (o : ω) (h : History S q₀ log q phase) (hc : phase c = .out) :
      History S q₀ (log ++ [.call c o]) q (Function.update phase c (.pending o))
  | point {log q phase} (c : κ) (o : ω) (r : ρ) (q' : σ) (h : History S q₀ log q phase)
      (hc : phase c = .pending o) (hstep : S.step q o r q') :
      History S q₀ (log ++ [.point c o r]) q' (Function.update phase c (.done r))
  | ret {log q phase} (c : κ) (r : ρ) (h : History S q₀ log q phase) (hc : phase c = .done r) :
      History S q₀ (log ++ [.ret c r]) q (Function.update phase c .out)

/-! ## Histories are linearizable -/

variable {S : SeqSpec σ ω ρ} {q₀ q q' : σ} {log : List (Event κ ω ρ)} {l : List (ω × ρ)}

/-- The effects, with one more event. -/
theorem effects_snoc (log : List (Event κ ω ρ)) (e : Event κ ω ρ) :
    effects (log ++ [e]) = effects log ++ e.effect.toList := by
  rw [effects, List.filterMap_append]
  cases e <;> rfl

/-- One more operation. -/
theorem Legal.snoc {o : ω} {r : ρ} (h : Legal S q₀ l q) (hstep : S.step q o r q') :
    Legal S q₀ (l ++ [(o, r)]) q' := by
  induction l generalizing q₀ with
  | nil =>
      obtain rfl : q₀ = q := h
      exact ⟨q', hstep, rfl⟩
  | cons x l ih =>
      obtain ⟨m, hm, h⟩ := h
      exact ⟨m, hm, ih h⟩

/-- One more event of a thread. -/
theorem Calls.snoc {p₀ p p' : Phase ω ρ} {e : Event κ ω ρ} {l : List (Event κ ω ρ)}
    (h : Calls p₀ l p) (hmove : Moves p e p') : Calls p₀ (l ++ [e]) p' := by
  induction l generalizing p₀ with
  | nil =>
      obtain rfl : p₀ = p := h
      exact ⟨p', hmove, rfl⟩
  | cons x l ih =>
      obtain ⟨m, hm, h⟩ := h
      exact ⟨m, hm, ih h⟩

variable [DecidableEq κ] {phase : κ → Phase ω ρ}

/-- One more event of a history. -/
theorem calls_snoc {e : Event κ ω ρ} {p : Phase ω ρ}
    (h : ∀ c, Calls .out (log.filter fun e => e.caller = c) (phase c))
    (hmove : Moves (phase e.caller) e p) (c : κ) :
    Calls .out ((log ++ [e]).filter fun e => e.caller = c)
      (Function.update phase e.caller p c) := by
  rw [List.filter_append]
  by_cases hc : e.caller = c
  · subst hc
    rw [Function.update_self, List.filter_cons_of_pos (by simp), List.filter_nil]
    exact (h e.caller).snoc hmove
  · rw [Function.update_of_ne (Ne.symm hc), List.filter_cons_of_neg (by simpa using hc),
      List.filter_nil, List.append_nil]
    exact h c

/-- The instants of a history are a run of the sequential object. -/
theorem History.legal (h : History S q₀ log q phase) : Legal S q₀ (effects log) q := by
  induction h with
  | new => rfl
  | call c o _ _ ih => rwa [effects_snoc, Event.effect, Option.toList_none, List.append_nil]
  | point c o r q' _ _ hstep ih => exact effects_snoc _ _ ▸ ih.snoc hstep
  | ret c r _ _ ih => rwa [effects_snoc, Event.effect, Option.toList_none, List.append_nil]

/-- The threads of a history call one operation after another. -/
theorem History.calls (h : History S q₀ log q phase) (c : κ) :
    Calls .out (log.filter fun e => e.caller = c) (phase c) := by
  induction h generalizing c with
  | new => rfl
  | call c' o _ hc ih => exact calls_snoc (e := .call c' o) ih (hc ▸ .call c' o) c
  | point c' o r q' _ hc _ ih => exact calls_snoc (e := .point c' o r) ih (hc ▸ .point c' o r) c
  | ret c' r _ hc ih => exact calls_snoc (e := .ret c' r) ih (hc ▸ .ret c' r) c

/-- **Every history of the abstract machine is linearizable.** -/
theorem History.linearizable (h : History S q₀ log q phase) : Linearizable S q₀ log where
  legal := ⟨q, h.legal⟩
  calls := fun c => ⟨phase c, h.calls c⟩

/-- An operation that returns right when it takes effect. -/
theorem History.point_ret (h : History S q₀ log q phase) (c : κ) {o : ω} (r : ρ)
    (hc : phase c = .pending o) (hstep : S.step q o r q') :
    History S q₀ (log ++ [.point c o r, .ret c r]) q' (Function.update phase c .out) := by
  have h' := (h.point c o r q' hc hstep).ret c r (Function.update_self ..)
  rwa [Function.update_idem, List.append_assoc, List.singleton_append] at h'

/-! ## What the callers see -/

omit [DecidableEq κ] in
/-- The last of some operations. -/
theorem Legal.of_snoc {o : ω} {r : ρ} (h : Legal S q₀ (l ++ [(o, r)]) q') :
    ∃ q, Legal S q₀ l q ∧ S.step q o r q' := by
  induction l generalizing q₀ with
  | nil =>
      obtain ⟨m, hm, rfl⟩ := h
      exact ⟨q₀, rfl, hm⟩
  | cons x l ih =>
      obtain ⟨m, hm, h⟩ := h
      obtain ⟨q, hq, hstep⟩ := ih h
      exact ⟨q, ⟨m, hm, hq⟩, hstep⟩

omit [DecidableEq κ] in
/-- The last event of a thread. -/
theorem Calls.of_snoc {p₀ p' : Phase ω ρ} {e : Event κ ω ρ} {l : List (Event κ ω ρ)}
    (h : Calls p₀ (l ++ [e]) p') : ∃ p, Calls p₀ l p ∧ Moves p e p' := by
  induction l generalizing p₀ with
  | nil =>
      obtain ⟨m, hm, rfl⟩ := h
      exact ⟨p₀, rfl, hm⟩
  | cons x l ih =>
      obtain ⟨m, hm, h⟩ := h
      obtain ⟨p, hp, hmove⟩ := ih h
      exact ⟨p, ⟨m, hm, hp⟩, hmove⟩

omit [DecidableEq κ] in
/-- An event moves a phase to one other. -/
theorem Moves.unique {p p' p'' : Phase ω ρ} {e : Event κ ω ρ} (h : Moves p e p')
    (h' : Moves p e p'') : p' = p'' := by
  cases h <;> cases h' <;> rfl

omit [DecidableEq κ] in
/-- The events of a thread say where it stands. -/
theorem Calls.unique {p₀ p p' : Phase ω ρ} {l : List (Event κ ω ρ)} (h : Calls p₀ l p)
    (h' : Calls p₀ l p') : p = p' := by
  induction l generalizing p₀ with
  | nil => exact h.symm.trans h'
  | cons e l ih =>
      obtain ⟨m, hm, h⟩ := h
      obtain ⟨m', hm', h'⟩ := h'
      obtain rfl := hm.unique hm'
      exact ih h h'

/-- Every event of a linearizable history is a rule of the abstract machine. -/
theorem History.of_legal_calls (hlegal : Legal S q₀ (effects log) q)
    (hcalls : ∀ c, ∃ p, Calls .out (log.filter fun e => e.caller = c) p) :
    ∃ phase, History S q₀ log q phase := by
  induction log using List.reverseRecOn generalizing q with
  | nil =>
      obtain rfl : q₀ = q := hlegal
      exact ⟨_, .new⟩
  | append_singleton log e ih =>
      have hprefix : ∀ c, ∃ p, Calls .out (log.filter fun e => e.caller = c) p := by
        intro c
        obtain ⟨p, hp⟩ := hcalls c
        rw [List.filter_append] at hp
        by_cases hc : e.caller = c
        · rw [List.filter_cons_of_pos (by simpa using hc), List.filter_nil] at hp
          obtain ⟨p', hp', -⟩ := hp.of_snoc
          exact ⟨p', hp'⟩
        · rw [List.filter_cons_of_neg (by simpa using hc), List.filter_nil, List.append_nil] at hp
          exact ⟨p, hp⟩
      obtain ⟨p', hp'⟩ := hcalls e.caller
      rw [List.filter_append, List.filter_cons_of_pos (by simp), List.filter_nil] at hp'
      obtain ⟨p, hp, hmove⟩ := hp'.of_snoc
      rw [effects_snoc] at hlegal
      -- the thread stands where its last event finds it
      cases e with
      | call c o =>
          rw [Event.effect, Option.toList_none, List.append_nil] at hlegal
          obtain ⟨phase, h⟩ := ih hlegal hprefix
          have hc := (h.calls c).unique hp
          cases hmove
          exact ⟨_, h.call c o hc⟩
      | point c o r =>
          obtain ⟨m, hm, hstep⟩ := hlegal.of_snoc
          obtain ⟨phase, h⟩ := ih hm hprefix
          have hc := (h.calls c).unique hp
          cases hmove
          exact ⟨_, h.point c o r q hc hstep⟩
      | ret c r =>
          rw [Event.effect, Option.toList_none, List.append_nil] at hlegal
          obtain ⟨phase, h⟩ := ih hlegal hprefix
          have hc := (h.calls c).unique hp
          cases hmove
          exact ⟨_, h.ret c r hc⟩

/-- The callers see calls and returns. -/
def Event.visible : Event κ ω ρ → Bool
  | call _ _ => true
  | point _ _ _ => false
  | ret _ _ => true

/-- Operations that take effect keep `P`. -/
def Silent (S : SeqSpec σ ω ρ) (P : σ → (κ → Phase ω ρ) → Prop) : Prop :=
  ∀ q phase c o r q', P q phase → phase c = .pending o → S.step q o r q' →
    P q' (Function.update phase c (.done r))

/-- Wherever the operations have taken effect, `P` holds after the calls and returns `seen`. -/
def Forces (S : SeqSpec σ ω ρ) (q₀ : σ) (seen : List (Event κ ω ρ))
    (P : σ → (κ → Phase ω ρ) → Prop) : Prop :=
  ∀ log q phase, History S q₀ log q phase → log.filter Event.visible = seen → P q phase

namespace Forces

variable {seen : List (Event κ ω ρ)} {P Q : σ → (κ → Phase ω ρ) → Prop}

omit [DecidableEq κ] in
/-- The calls and returns, with one more event. -/
theorem filter_snoc (log : List (Event κ ω ρ)) (e : Event κ ω ρ) :
    (log ++ [e]).filter Event.visible =
      log.filter Event.visible ++ if e.visible then [e] else [] := by
  rw [List.filter_append]
  cases e <;> rfl

/-- Before the first call the object is new. -/
theorem new (hnew : P q₀ fun _ => .out) (hP : Silent S P) : Forces S q₀ [] P := by
  intro log q phase h
  induction h with
  | new => exact fun _ => hnew
  | call c o _ _ _ | ret c r _ _ _ =>
      intro hseen
      rw [filter_snoc] at hseen
      simp [Event.visible] at hseen
  | point c o r q' _ hc hstep ih =>
      intro hseen
      rw [filter_snoc] at hseen
      exact hP _ _ c o r q' (ih (by simpa [Event.visible] using hseen)) hc hstep

/-- One more call or return. -/
theorem snoc (h : Forces S q₀ seen P) {e : Event κ ω ρ} (he : e.visible = true)
    (hmove : ∀ q phase p, P q phase → Moves (phase e.caller) e p →
      Q q (Function.update phase e.caller p)) (hQ : Silent S Q) :
    Forces S q₀ (seen ++ [e]) Q := by
  intro log q phase hlog
  have hlast : ∀ {log : List (Event κ ω ρ)} {e' : Event κ ω ρ}, e'.visible = true →
      (log ++ [e']).filter Event.visible = seen ++ [e] →
        log.filter Event.visible = seen ∧ e' = e := by
    intro log e' he' hseen
    rw [filter_snoc, if_pos he'] at hseen
    exact List.concat_inj.mp (by simpa using hseen)
  induction hlog with
  | new =>
      intro hseen
      simp at hseen
  | call c o hlog hc _ =>
      intro hseen
      obtain ⟨hbefore, rfl⟩ := hlast rfl hseen
      exact hmove _ _ _ (h _ _ _ hlog hbefore) (hc ▸ .call c o)
  | point c o r q' _ hc hstep ih =>
      intro hseen
      rw [filter_snoc] at hseen
      exact hQ _ _ c o r q' (ih (by simpa [Event.visible] using hseen)) hc hstep
  | ret c r hlog hc _ =>
      intro hseen
      obtain ⟨hbefore, rfl⟩ := hlast rfl hseen
      exact hmove _ _ _ (h _ _ _ hlog hbefore) (hc ▸ .ret c r)

/-- A call becomes pending. -/
theorem call (h : Forces S q₀ seen P) (c : κ) (o : ω)
    (hcall : ∀ q phase, P q phase → phase c = .out → Q q (Function.update phase c (.pending o)))
    (hQ : Silent S Q) : Forces S q₀ (seen ++ [.call c o]) Q := by
  refine h.snoc rfl (fun q phase p hp hmove => ?_) hQ
  generalize hc : phase (Event.caller (.call c o : Event κ ω ρ)) = p₀ at hmove
  cases hmove
  exact hcall q phase hp hc

/-- A call returns what its effect has answered. -/
theorem ret (h : Forces S q₀ seen P) (c : κ) (r : ρ)
    (hret : ∀ q phase, P q phase → phase c = .done r → Q q (Function.update phase c .out))
    (hQ : Silent S Q) : Forces S q₀ (seen ++ [.ret c r]) Q := by
  refine h.snoc rfl (fun q phase p hp hmove => ?_) hQ
  generalize hc : phase (Event.caller (.ret c r : Event κ ω ρ)) = p₀ at hmove
  cases hmove
  exact hret q phase hp hc

/-- **Not linearizable**, wherever the operations are said to take effect. -/
theorem not_linearizable (h : Forces S q₀ seen fun _ _ => False)
    (hlog : log.filter Event.visible = seen) : ¬ Linearizable S q₀ log := by
  rintro ⟨⟨q, hlegal⟩, hcalls⟩
  obtain ⟨phase, hhist⟩ := History.of_legal_calls hlegal hcalls
  exact h log q phase hhist hlog

end Forces

end Linearize

end Libfork.Found
