import Libfork.Found.Log
import Mathlib.Data.List.Nodup
import Mathlib.Logic.Function.Basic
import Mathlib.Tactic.Common

/-!
# The ideal deque and what its logs look like

A deque under concurrent use is judged by its **log**: the list of the instants at which its
operations take effect, in the order in which they do.

* `Event ι α κ` — an item is pushed at an index, the thread `c : κ` claims the `k`-th pushed
  occurrence, a thread returns the value it claimed, a pop reports empty. An *occurrence* is the
  position of a push among the pushes of the log, and `side c` is the end at which the calls of
  the thread `c` claim.
* `Ideal side log held hold` — **the ideal deque**: `log` is a log in which every claim takes the
  occurrence at its end of the occurrences `held`, and `hold c` is the occurrence that the call
  of `c` has claimed and not yet returned. It is the abstract machine that an implementation is
  shown to refine: each step of the implementation is at most one rule of `Ideal`.
* `ExactlyOnce side log` — what users of the deque rely on, read off the log alone.
* **`Ideal.exactlyOnce`** — every log of the ideal deque has it; `Ideal.frontClaims_sorted`
  adds that the claims at the front come in push order.
* `occurrences occ lo hi` — the occurrences held at a window of indices, for implementations that
  keep the items at consecutive indices.

Nothing here is about a particular program.
-/

namespace Libfork.Found

/-- The two ends of a deque. -/
inductive Side
  /-- Where items are pushed and popped. -/
  | back
  /-- Where items are stolen. -/
  | front
deriving DecidableEq, Repr

/-- The instants at which deque operations take effect. -/
inductive Event (ι α κ : Type)
  /-- The item `v` is pushed at the index `i`. -/
  | push (i : ι) (v : α)
  /-- A call of `c` claims the occurrence `k`. -/
  | claim (c : κ) (k : ℕ)
  /-- The call of `c` that claimed the occurrence `k`, at the index `i`, returns `v`. -/
  | deliver (c : κ) (k : ℕ) (i : ι) (v : α)
  /-- A pop reports that the deque is empty. -/
  | empty
deriving DecidableEq, Repr

namespace Event

variable {ι α κ : Type}

/-- Index and value, if the event is a push. -/
def pushed : Event ι α κ → Option (ι × α)
  | push i v => some (i, v)
  | _ => none

/-- The occurrence, if the event is a claim. -/
def claimed : Event ι α κ → Option ℕ
  | claim _ k => some k
  | _ => none

/-- The occurrence, if the event is a claim at the front. -/
def claimedFront (side : κ → Side) : Event ι α κ → Option ℕ
  | claim c k => match side c with
      | .front => some k
      | .back => none
  | _ => none

/-- The occurrence, if the event is a delivery. -/
def delivered : Event ι α κ → Option ℕ
  | deliver _ k _ _ => some k
  | _ => none

/-- The thread, if the event is a claim or a delivery. -/
def caller : Event ι α κ → Option κ
  | claim c _ => some c
  | deliver c _ _ _ => some c
  | _ => none

end Event

section logs

variable {ι α κ : Type}

/-- The pushes of a log, in order: the occurrence `k` is the entry at position `k`. -/
def pushes (log : List (Event ι α κ)) : List (ι × α) := log.filterMap Event.pushed

/-- The claimed occurrences of a log, in the order of the claims. -/
def claims (log : List (Event ι α κ)) : List ℕ := log.filterMap Event.claimed

/-- The occurrences claimed at the front, in the order of the claims. -/
def frontClaims (side : κ → Side) (log : List (Event ι α κ)) : List ℕ :=
  log.filterMap (Event.claimedFront side)

/-- The delivered occurrences of a log, in order. -/
def deliveries (log : List (Event ι α κ)) : List ℕ := log.filterMap Event.delivered

/-- The occurrences pushed and not yet claimed, oldest first. -/
def unclaimed (log : List (Event ι α κ)) : List ℕ :=
  (List.range (pushes log).length).filter (· ∉ claims log)

/-- The last claim or delivery of a thread. -/
def lastOf [DecidableEq κ] (c : κ) (log : List (Event ι α κ)) : Option (Event ι α κ) :=
  (log.filter fun e => e.caller = some c).getLast?

/-- What entitles a log that has grown to `pre` to its next event. A claim at the back takes the
newest unclaimed occurrence and one at the front the oldest; a delivery returns the value pushed
at the index that its own call claimed; a pop reports empty only when every pushed occurrence
has been claimed. -/
def Justified [DecidableEq κ] (side : κ → Side) (pre : List (Event ι α κ)) :
    Event ι α κ → Prop
  | .push _ _ => True
  | .claim c k => match side c with
      | .back => (unclaimed pre).getLast? = some k
      | .front => (unclaimed pre).head? = some k
  | .deliver c k i v => (pushes pre)[k]? = some (i, v) ∧ lastOf c pre = some (.claim c k)
  | .empty => unclaimed pre = []

/-- **Exactly-once delivery**, as a property of a log. -/
structure ExactlyOnce [DecidableEq κ] (side : κ → Side) (log : List (Event ι α κ)) : Prop where
  /-- No occurrence is delivered by two calls. -/
  once : (deliveries log).Nodup
  /-- Every event is justified by the events before it. -/
  justified : AllJustified (Justified side) log

end logs

/-! ## The ideal deque -/

section ideal

variable {ι α κ : Type} [DecidableEq κ]

/-- The ideal deque: `held` are the unclaimed occurrences, oldest first, and `hold c` the
occurrence that the call of `c` has claimed and not yet returned. -/
inductive Ideal (side : κ → Side) : List (Event ι α κ) → List ℕ → (κ → Option ℕ) → Prop
  | nil : Ideal side [] [] fun _ => none
  | push {log held hold} (i : ι) (v : α) (h : Ideal side log held hold) :
      Ideal side (log ++ [.push i v]) (held ++ [(pushes log).length]) hold
  | claimBack {log held hold} {k : ℕ} (c : κ) (hside : side c = .back)
      (h : Ideal side log (held ++ [k]) hold) (hc : hold c = none) :
      Ideal side (log ++ [.claim c k]) held (Function.update hold c (some k))
  | claimFront {log held hold} {k : ℕ} (c : κ) (hside : side c = .front)
      (h : Ideal side log (k :: held) hold) (hc : hold c = none) :
      Ideal side (log ++ [.claim c k]) held (Function.update hold c (some k))
  | deliver {log held hold} {k : ℕ} {i : ι} {v : α} (c : κ) (h : Ideal side log held hold)
      (hc : hold c = some k) (hv : (pushes log)[k]? = some (i, v)) :
      Ideal side (log ++ [.deliver c k i v]) held (Function.update hold c none)
  | empty {log hold} (h : Ideal side log [] hold) : Ideal side (log ++ [.empty]) [] hold

end ideal

/-! ### How the derived lists grow -/

section grow

variable {ι α κ : Type} (log : List (Event ι α κ))

/-- The pushes, with one more event. -/
@[simp] theorem pushes_snoc (e : Event ι α κ) :
    pushes (log ++ [e]) = pushes log ++ e.pushed.toList := by
  cases h : e.pushed <;> simp [pushes, h]

/-- The claims. -/
@[simp] theorem claims_snoc (e : Event ι α κ) :
    claims (log ++ [e]) = claims log ++ e.claimed.toList := by
  cases h : e.claimed <;> simp [claims, h]

/-- The claims at the front. -/
@[simp] theorem frontClaims_snoc (side : κ → Side) (e : Event ι α κ) :
    frontClaims side (log ++ [e]) = frontClaims side log ++ (e.claimedFront side).toList := by
  cases h : e.claimedFront side <;> simp [frontClaims, h]

/-- The deliveries. -/
@[simp] theorem deliveries_snoc (e : Event ι α κ) :
    deliveries (log ++ [e]) = deliveries log ++ e.delivered.toList := by
  cases h : e.delivered <;> simp [deliveries, h]

/-- The event of a thread is its last one. -/
theorem lastOf_snoc_self [DecidableEq κ] {c : κ} {e : Event ι α κ} (h : e.caller = some c) :
    lastOf c (log ++ [e]) = some e := by
  simp [lastOf, List.filter_append, h]

/-- An event of another thread, or of none, changes nothing. -/
theorem lastOf_snoc_of_ne [DecidableEq κ] {c : κ} {e : Event ι α κ} (h : e.caller ≠ some c) :
    lastOf c (log ++ [e]) = lastOf c log := by
  simp [lastOf, List.filter_append, h]

/-- An occurrence keeps its index and value as the log grows. -/
theorem pushes_snoc_of_some {k : ℕ} {x : ι × α} (e : Event ι α κ)
    (h : (pushes log)[k]? = some x) : (pushes (log ++ [e]))[k]? = some x := by
  obtain ⟨hk, -⟩ := List.getElem?_eq_some_iff.mp h
  rw [pushes_snoc, List.getElem?_append_left hk, h]

/-- The next occurrence is the one being pushed. -/
theorem pushes_push_last (i : ι) (v : α) :
    (pushes (log ++ [.push i v]))[(pushes log).length]? = some (i, v) := by
  simp [Event.pushed]

/-- A push adds the next occurrence, provided no claim ran ahead of the pushes. -/
theorem unclaimed_push (i : ι) (v : α) (hlt : ∀ k ∈ claims log, k < (pushes log).length) :
    unclaimed (log ++ [.push i v]) = unclaimed log ++ [(pushes log).length] := by
  have hnew : (pushes log).length ∉ claims log := fun h => Nat.lt_irrefl _ (hlt _ h)
  simp [unclaimed, Event.pushed, Event.claimed, List.range_succ, List.filter_append, hnew]

/-- A claim removes the claimed occurrence. -/
theorem unclaimed_claim (c : κ) (k : ℕ) :
    unclaimed (log ++ [.claim c k]) = (unclaimed log).filter (· ≠ k) := by
  simp only [unclaimed, pushes_snoc, claims_snoc, Event.pushed, Event.claimed, Option.toList_none,
    Option.toList_some, List.append_nil, List.filter_filter]
  refine List.filter_congr fun j _ => ?_
  simp only [List.mem_append, List.mem_singleton, not_or, Bool.decide_and]
  exact Bool.and_comm _ _

/-- An event that is neither a push nor a claim leaves the unclaimed occurrences alone. -/
theorem unclaimed_other {e : Event ι α κ} (hp : e.pushed = none) (hc : e.claimed = none) :
    unclaimed (log ++ [e]) = unclaimed log := by
  simp [unclaimed, hp, hc]

/-- The unclaimed occurrences are listed oldest first. -/
theorem unclaimed_sorted : (unclaimed log).Pairwise (· < ·) :=
  (List.pairwise_lt_range).filter _

/-- What is unclaimed was pushed and not claimed. -/
theorem mem_unclaimed {k : ℕ} :
    k ∈ unclaimed log ↔ k < (pushes log).length ∧ k ∉ claims log := by
  simp [unclaimed]

end grow

/-! ### Logs of the ideal deque -/

section ideal

variable {ι α κ : Type} [DecidableEq κ] {side : κ → Side} {log : List (Event ι α κ)}
  {held : List ℕ} {hold : κ → Option ℕ}

/-- What the rules of the ideal deque keep true of its three components. -/
structure Ideal.Facts (log : List (Event ι α κ)) (held : List ℕ) (hold : κ → Option ℕ) :
    Prop where
  held_eq : held = unclaimed log
  claims_lt : ∀ k ∈ claims log, k < (pushes log).length
  deliveries_nodup : (deliveries log).Nodup
  hold_claimed : ∀ c k, hold c = some k → lastOf c log = some (.claim c k)
  hold_pending : ∀ c k, hold c = some k → k ∉ deliveries log
  hold_inj : ∀ c c' k, hold c = some k → hold c' = some k → c = c'
  delivered_claimed : ∀ k ∈ deliveries log, k ∈ claims log

/-- A thread's last claim is a claimed occurrence. -/
theorem mem_claims_of_lastOf {c : κ} {k : ℕ} (h : lastOf c log = some (.claim c k)) :
    k ∈ claims log := by
  have hmem : Event.claim c k ∈ log :=
    (List.mem_filter.mp (List.mem_of_getLast? h)).1
  exact List.mem_filterMap.mpr ⟨_, hmem, rfl⟩

/-- Claiming an occurrence that was held. -/
theorem Ideal.Facts.claim (h : Ideal.Facts log held hold) {c : κ} {k : ℕ}
    (hk : k ∈ held) (hc : hold c = none) :
    Ideal.Facts (log ++ [.claim c k]) (held.filter (· ≠ k))
      (Function.update hold c (some k)) := by
  have hfresh : k ∉ claims log := ((mem_unclaimed log).mp (h.held_eq ▸ hk)).2
  have hlt : k < (pushes log).length := ((mem_unclaimed log).mp (h.held_eq ▸ hk)).1
  have hother : ∀ c' k', Function.update hold c (some k) c' = some k' →
      (c' = c ∧ k' = k) ∨ (c' ≠ c ∧ hold c' = some k') := by
    intro c' k' h'
    by_cases hcc : c' = c
    · subst hcc
      rw [Function.update_self] at h'
      exact Or.inl ⟨rfl, (Option.some.inj h').symm⟩
    · rw [Function.update_of_ne hcc] at h'
      exact Or.inr ⟨hcc, h'⟩
  have hne : ∀ c' k', hold c' = some k' → k' ≠ k := by
    rintro c' k' h' rfl
    exact hfresh (mem_claims_of_lastOf (h.hold_claimed c' k' h'))
  refine ⟨?_, ?_, ?_, ?_, ?_, ?_, ?_⟩
  · rw [unclaimed_claim, h.held_eq]
  · intro j hj
    simp only [claims_snoc, Event.claimed, Option.toList_some, List.mem_append,
      List.mem_singleton] at hj
    simp only [pushes_snoc, Event.pushed, Option.toList_none, List.append_nil]
    rcases hj with hj | rfl
    · exact h.claims_lt j hj
    · exact hlt
  · simpa [Event.delivered] using h.deliveries_nodup
  · intro c' k' h'
    rcases hother c' k' h' with ⟨rfl, rfl⟩ | ⟨hcc, h'⟩
    · exact lastOf_snoc_self log rfl
    · rw [lastOf_snoc_of_ne log (by simpa [Event.caller] using Ne.symm hcc)]
      exact h.hold_claimed c' k' h'
  · intro c' k' h'
    simp only [deliveries_snoc, Event.delivered, Option.toList_none, List.append_nil]
    rcases hother c' k' h' with ⟨-, rfl⟩ | ⟨-, h'⟩
    · exact fun hd => hfresh (h.delivered_claimed _ hd)
    · exact h.hold_pending c' k' h'
  · intro c₁ c₂ k' h₁ h₂
    rcases hother c₁ k' h₁ with ⟨rfl, hk₁⟩ | ⟨-, h₁'⟩ <;>
      rcases hother c₂ k' h₂ with ⟨rfl, hk₂⟩ | ⟨-, h₂'⟩
    · rfl
    · exact absurd hk₁ (hne c₂ _ h₂')
    · exact absurd hk₂ (hne c₁ _ h₁')
    · exact h.hold_inj c₁ c₂ k' h₁' h₂'
  · intro j hj
    simp only [deliveries_snoc, Event.delivered, Option.toList_none, List.append_nil] at hj
    simp only [claims_snoc, List.mem_append]
    exact Or.inl (h.delivered_claimed j hj)

/-- Filtering the newest occurrence out of an ascending list drops its last entry. -/
theorem filter_ne_last {l : List ℕ} {k : ℕ} (h : (l ++ [k]).Pairwise (· < ·)) :
    (l ++ [k]).filter (· ≠ k) = l := by
  have hlt : ∀ j ∈ l, j < k := fun j hj =>
    (List.pairwise_append.mp h).2.2 j hj k (List.mem_singleton_self k)
  rw [List.filter_append, List.filter_eq_self.mpr]
  · simp
  · intro j hj
    simpa using Nat.ne_of_lt (hlt j hj)

/-- Filtering the oldest occurrence out of an ascending list drops its first entry. -/
theorem filter_ne_head {l : List ℕ} {k : ℕ} (h : (k :: l).Pairwise (· < ·)) :
    (k :: l).filter (· ≠ k) = l := by
  have hlt : ∀ j ∈ l, k < j := fun j hj => (List.pairwise_cons.mp h).1 j hj
  rw [List.filter_cons_of_neg (by simp), List.filter_eq_self]
  intro j hj
  simpa using Nat.ne_of_gt (hlt j hj)

/-- The ideal deque keeps its facts. -/
theorem Ideal.facts (h : Ideal side log held hold) : Ideal.Facts log held hold := by
  induction h with
  | nil => exact ⟨rfl, by simp [claims], by simp [deliveries], by simp, by simp, by simp,
      by simp [deliveries]⟩
  | @push log held hold i v _ ih =>
      refine ⟨?_, ?_, ?_, ?_, ?_, ih.hold_inj, ?_⟩
      · rw [unclaimed_push log i v ih.claims_lt, ih.held_eq]
      · intro k hk
        have := ih.claims_lt k (by simpa [Event.claimed] using hk)
        simpa [Event.pushed] using Nat.lt_succ_of_lt this
      · simpa [Event.delivered] using ih.deliveries_nodup
      · intro c k hc
        rw [lastOf_snoc_of_ne log (by simp [Event.caller])]
        exact ih.hold_claimed c k hc
      · simpa [Event.delivered] using ih.hold_pending
      · simpa [Event.delivered, Event.claimed] using ih.delivered_claimed
  | @claimBack log held hold k c _ _ hc ih =>
      have hs := unclaimed_sorted log
      rw [← ih.held_eq] at hs
      have := ih.claim (k := k) (by simp) hc
      rwa [filter_ne_last hs] at this
  | @claimFront log held hold k c _ _ hc ih =>
      have hs := unclaimed_sorted log
      rw [← ih.held_eq] at hs
      have := ih.claim (k := k) (by simp) hc
      rwa [filter_ne_head hs] at this
  | @deliver log held hold k i v c _ hc hv ih =>
      have hother : ∀ c' k', Function.update hold c none c' = some k' →
          c' ≠ c ∧ hold c' = some k' := by
        intro c' k' h'
        by_cases hcc : c' = c
        · subst hcc
          simp at h'
        · rw [Function.update_of_ne hcc] at h'
          exact ⟨hcc, h'⟩
      refine ⟨?_, ?_, ?_, ?_, ?_, ?_, ?_⟩
      · rw [unclaimed_other _ rfl rfl, ih.held_eq]
      · simpa [Event.claimed, Event.pushed] using ih.claims_lt
      · simpa [Event.delivered, List.nodup_append, ih.deliveries_nodup] using
          fun j hj (hjk : j = k) => ih.hold_pending c k hc (hjk ▸ hj)
      · intro c' k' h'
        obtain ⟨hcc, h'⟩ := hother c' k' h'
        rw [lastOf_snoc_of_ne log (by simpa [Event.caller] using Ne.symm hcc)]
        exact ih.hold_claimed c' k' h'
      · intro c' k' h'
        obtain ⟨hcc, h'⟩ := hother c' k' h'
        simp only [deliveries_snoc, Event.delivered, Option.toList_some, List.mem_append,
          List.mem_singleton, not_or]
        refine ⟨ih.hold_pending c' k' h', ?_⟩
        rintro rfl
        exact hcc (ih.hold_inj c' c _ h' hc)
      · intro c₁ c₂ k' h₁ h₂
        exact ih.hold_inj c₁ c₂ k' (hother c₁ k' h₁).2 (hother c₂ k' h₂).2
      · intro j hj
        simp only [deliveries_snoc, Event.delivered, Option.toList_some, List.mem_append,
          List.mem_singleton] at hj
        simp only [claims_snoc, List.mem_append]
        rcases hj with hj | rfl
        · exact Or.inl (ih.delivered_claimed j hj)
        · exact Or.inl (mem_claims_of_lastOf (ih.hold_claimed c _ hc))
  | @empty log hold _ ih =>
      refine ⟨?_, ?_, ?_, ?_, ?_, ih.hold_inj, ?_⟩
      · rw [unclaimed_other _ rfl rfl, ih.held_eq]
      · simpa [Event.claimed, Event.pushed] using ih.claims_lt
      · simpa [Event.delivered] using ih.deliveries_nodup
      · intro c k hc
        rw [lastOf_snoc_of_ne log (by simp [Event.caller])]
        exact ih.hold_claimed c k hc
      · simpa [Event.delivered] using ih.hold_pending
      · simpa [Event.delivered, Event.claimed] using ih.delivered_claimed

/-- What has been claimed has been delivered, or is on its way out. -/
theorem Ideal.claimed_or (h : Ideal side log held hold) :
    (claims log).Nodup ∧ ∀ k ∈ claims log, k ∈ deliveries log ∨ ∃ c, hold c = some k := by
  have hclaim : ∀ (log : List (Event ι α κ)) (hold : κ → Option ℕ) (c : κ) (k : ℕ),
      k ∈ unclaimed log → hold c = none →
      ((claims log).Nodup ∧ ∀ j ∈ claims log, j ∈ deliveries log ∨ ∃ c, hold c = some j) →
      (claims (log ++ [.claim c k])).Nodup ∧ ∀ j ∈ claims (log ++ [.claim c k]),
        j ∈ deliveries (log ++ [.claim c k]) ∨
          ∃ c', Function.update hold c (some k) c' = some j := by
    rintro log hold c k hk hc ⟨hnodup, hheld⟩
    have hfresh : k ∉ claims log := ((mem_unclaimed log).mp hk).2
    simp only [claims_snoc, deliveries_snoc, Event.claimed, Event.delivered, Option.toList_some,
      Option.toList_none, List.append_nil, List.mem_append, List.mem_singleton]
    refine ⟨?_, ?_⟩
    · simpa [List.nodup_append, hnodup] using fun j hj (hjk : j = k) => hfresh (hjk ▸ hj)
    · rintro j (hj | rfl)
      · rcases hheld j hj with hj | ⟨c', hc'⟩
        · exact Or.inl hj
        · have hne : c' ≠ c := by
            rintro rfl
            rw [hc] at hc'
            cases hc'
          exact Or.inr ⟨c', by rwa [Function.update_of_ne hne]⟩
      · exact Or.inr ⟨c, Function.update_self _ _ _⟩
  induction h with
  | nil => simp [claims]
  | push i v _ ih => simpa [Event.claimed, Event.delivered] using ih
  | @claimBack log held hold k c _ h hc ih =>
      exact hclaim log hold c k (by rw [← h.facts.held_eq]; simp) hc ih
  | @claimFront log held hold k c _ h hc ih =>
      exact hclaim log hold c k (by rw [← h.facts.held_eq]; simp) hc ih
  | @deliver log held hold k i v c _ hc _ ih =>
      obtain ⟨hnodup, hheld⟩ := ih
      simp only [claims_snoc, deliveries_snoc, Event.claimed, Event.delivered, Option.toList_some,
        Option.toList_none, List.append_nil, List.mem_append, List.mem_singleton]
      refine ⟨hnodup, ?_⟩
      intro j hj
      rcases hheld j hj with hj | ⟨c', hc'⟩
      · exact Or.inl (Or.inl hj)
      · by_cases hcc : c' = c
        · subst hcc
          exact Or.inl (Or.inr (Option.some.inj (hc'.symm.trans hc)))
        · exact Or.inr ⟨c', by rwa [Function.update_of_ne hcc]⟩
  | empty _ ih => simpa [Event.claimed, Event.delivered] using ih

/-- What is held has been pushed and not claimed. -/
theorem Ideal.length_held (h : Ideal side log held hold) :
    held.length + (claims log).length = (pushes log).length := by
  induction h with
  | nil => rfl
  | push i v _ ih =>
      simp only [claims_snoc, pushes_snoc, Event.claimed, Event.pushed, Option.toList_some,
        Option.toList_none, List.append_nil, List.length_append, List.length_singleton]
      omega
  | claimBack c _ _ _ ih =>
      simp only [List.length_append, List.length_singleton] at ih
      simp only [claims_snoc, pushes_snoc, Event.claimed, Event.pushed, Option.toList_some,
        Option.toList_none, List.append_nil, List.length_append, List.length_singleton]
      omega
  | claimFront c _ _ _ ih =>
      simp only [List.length_cons] at ih
      simp only [claims_snoc, pushes_snoc, Event.claimed, Event.pushed, Option.toList_some,
        Option.toList_none, List.append_nil, List.length_append, List.length_singleton]
      omega
  | deliver c _ _ _ ih => simpa [Event.claimed, Event.pushed] using ih
  | empty _ ih => simpa [Event.claimed, Event.pushed] using ih

/-- When no call is in progress, everything claimed has been delivered. -/
theorem Ideal.length_deliveries (h : Ideal side log held hold) (hidle : ∀ c, hold c = none) :
    held.length + (deliveries log).length = (pushes log).length := by
  obtain ⟨hnodup, hclaimed⟩ := h.claimed_or
  have hperm : (deliveries log).Perm (claims log) := by
    rw [List.perm_ext_iff_of_nodup h.facts.deliveries_nodup hnodup]
    intro k
    refine ⟨h.facts.delivered_claimed k, fun hk => ?_⟩
    rcases hclaimed k hk with hk | ⟨c, hc⟩
    · exact hk
    · rw [hidle c] at hc
      cases hc
  rw [hperm.length_eq]
  exact h.length_held

/-- Every event of the ideal deque is justified when it is logged. -/
theorem Ideal.justified (h : Ideal side log held hold) : AllJustified (Justified side) log := by
  induction h with
  | nil => exact allJustified_nil
  | push i v h ih => exact allJustified_snoc ih trivial
  | @claimBack log held hold k c hside h hc ih =>
      refine allJustified_snoc ih ?_
      simp [Justified, hside, ← h.facts.held_eq]
  | @claimFront log held hold k c hside h hc ih =>
      refine allJustified_snoc ih ?_
      simp [Justified, hside, ← h.facts.held_eq]
  | deliver c h hc hv ih => exact allJustified_snoc ih ⟨hv, h.facts.hold_claimed c _ hc⟩
  | empty h ih => exact allJustified_snoc ih h.facts.held_eq.symm

/-- **Every log of the ideal deque delivers exactly once.** -/
theorem Ideal.exactlyOnce (h : Ideal side log held hold) : ExactlyOnce side log :=
  ⟨h.facts.deliveries_nodup, h.justified⟩

/-- Occurrences claimed at the front have left the held ones, which are all newer. -/
theorem Ideal.frontClaims_lt_held (h : Ideal side log held hold) :
    (∀ j ∈ frontClaims side log, ∀ k ∈ held, j < k) ∧
      (∀ j ∈ frontClaims side log, j < (pushes log).length) ∧
      (frontClaims side log).Pairwise (· < ·) := by
  induction h with
  | nil => simp [frontClaims]
  | @push log held hold i v h ih =>
      obtain ⟨ihk, ihn, ihs⟩ := ih
      refine ⟨?_, ?_, ?_⟩
      · intro j hj k hk
        have hj' : j ∈ frontClaims side log := by simpa [Event.claimedFront] using hj
        rcases List.mem_append.mp hk with hk | hk
        · exact ihk j hj' k hk
        · exact List.mem_singleton.mp hk ▸ ihn j hj'
      · intro j hj
        have hj' : j ∈ frontClaims side log := by simpa [Event.claimedFront] using hj
        simpa [Event.pushed] using Nat.lt_succ_of_lt (ihn j hj')
      · simpa [Event.claimedFront] using ihs
  | @claimBack log held hold k c hside h hc ih =>
      obtain ⟨ihk, ihn, ihs⟩ := ih
      refine ⟨?_, ?_, ?_⟩
      · intro j hj k' hk'
        exact ihk j (by simpa [Event.claimedFront, hside] using hj) k' (List.mem_append_left _ hk')
      · simpa [Event.claimedFront, Event.pushed, hside] using ihn
      · simpa [Event.claimedFront, hside] using ihs
  | @claimFront log held hold k c hside h hc ih =>
      obtain ⟨ihk, ihn, ihs⟩ := ih
      have hsorted : (k :: held).Pairwise (· < ·) := h.facts.held_eq ▸ unclaimed_sorted log
      have hkn : k < (pushes log).length :=
        ((mem_unclaimed log).mp (h.facts.held_eq ▸ List.mem_cons_self)).1
      refine ⟨?_, ?_, ?_⟩
      · intro j hj k' hk'
        have hj' : j ∈ frontClaims side log ∨ j = k := by simpa [Event.claimedFront, hside] using hj
        rcases hj' with hj' | rfl
        · exact ihk j hj' k' (List.mem_cons_of_mem _ hk')
        · exact (List.pairwise_cons.mp hsorted).1 k' hk'
      · intro j hj
        have hj' : j ∈ frontClaims side log ∨ j = k := by simpa [Event.claimedFront, hside] using hj
        rcases hj' with hj' | rfl
        · simpa [Event.pushed] using ihn j hj'
        · simpa [Event.pushed] using hkn
      · simp only [frontClaims_snoc, Event.claimedFront, hside, Option.toList_some]
        exact List.pairwise_append.mpr ⟨ihs, List.pairwise_singleton _ _,
          fun j hj k' hk' => List.mem_singleton.mp hk' ▸ ihk j hj k List.mem_cons_self⟩
  | @deliver log held hold k i v c h hc hv ih =>
      simpa [Event.claimedFront, Event.pushed] using ih
  | @empty log hold h ih => simpa [Event.claimedFront, Event.pushed] using ih

/-- **Claims at the front come in push order.** -/
theorem Ideal.frontClaims_sorted (h : Ideal side log held hold) :
    (frontClaims side log).Pairwise (· < ·) :=
  h.frontClaims_lt_held.2.2

end ideal

/-! ## Occurrences at a window of indices -/

/-- The occurrences at the indices `[lo, hi)`, where `occ` is the last occurrence pushed at an
index. -/
def occurrences (occ : ℕ → ℕ) (lo hi : ℕ) : List ℕ := (List.range' lo (hi - lo)).map occ

/-- A push at the back adds its occurrence. -/
theorem occurrences_push (occ : ℕ → ℕ) {lo hi : ℕ} (h : lo ≤ hi) (n : ℕ) :
    occurrences (Function.update occ hi n) lo (hi + 1) = occurrences occ lo hi ++ [n] := by
  have hlen : hi + 1 - lo = (hi - lo) + 1 := by omega
  have hlast : lo + (hi - lo) = hi := by omega
  unfold occurrences
  rw [hlen, List.range'_concat, List.map_append, Nat.one_mul, hlast]
  congr 1
  · refine List.map_congr_left fun i hi' => ?_
    have : i < hi := by
      have := List.mem_range'_1.mp hi'
      omega
    exact Function.update_of_ne (by omega) _ _
  · simp

/-- The back index holds the newest occurrence. -/
theorem occurrences_back (occ : ℕ → ℕ) {lo hi : ℕ} (h : lo ≤ hi) :
    occurrences occ lo (hi + 1) = occurrences occ lo hi ++ [occ hi] := by
  have hlen : hi + 1 - lo = (hi - lo) + 1 := by omega
  have hlast : lo + (hi - lo) = hi := by omega
  unfold occurrences
  rw [hlen, List.range'_concat, List.map_append, Nat.one_mul, hlast]
  rfl

/-- The front index holds the oldest occurrence. -/
theorem occurrences_front (occ : ℕ → ℕ) {lo hi : ℕ} (h : lo < hi) :
    occurrences occ lo hi = occ lo :: occurrences occ (lo + 1) hi := by
  have hlen : hi - lo = (hi - (lo + 1)) + 1 := by omega
  unfold occurrences
  rw [hlen, List.range'_succ, List.map_cons]

/-- An empty interval has no occurrences. -/
theorem occurrences_empty (occ : ℕ → ℕ) {lo hi : ℕ} (h : hi ≤ lo) :
    occurrences occ lo hi = [] := by
  unfold occurrences
  rw [Nat.sub_eq_zero_of_le h]
  rfl

end Libfork.Found
