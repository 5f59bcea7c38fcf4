import Libfork.Lazy.Wakeups

/-!
# No domain is stranded

The invariant of the scheduler is: if there is an active, then every domain has a thief or no
sleeper. The counters change one at a time, so the invariant proper has more cases.

* `Pc.Attends`, `Pc.Rouses` — the workers that will see to a domain: a worker of the domain that
  will be a thief or that will notify it, a first active that has not come to it yet, and a
  notifier that will unblock somebody.
* `Attended` — somebody sees to the domain, or nobody is asleep in it.
* `Kept` — **the invariant**: if there is an active and a domain has no thief, it is attended.
* **`not_stranded`** — while a worker is inside `resume`, and nobody is on its way there, no
  domain has a blocked worker and besides only workers that are blocked or inside `resume`.
* `domain_stranded` — `2 ^ 32` notifications between `prepare_wait` and the comparison of `wait` go
  unnoticed, and so do `2 ^ 32` waiters.

Source: `lazy_pool.hpp`, `thief_work_sleep`, `lazy_work`; `event_count.hpp`.
-/

namespace Libfork.Lazy

open Libfork.Found Libfork.EventCount

/-- The worker will see to domain `i`, which had `n` notifications. `mine`: it is of the
domain. -/
def Pc.Attends (mine : Prop) (i n : ℕ) : Pc → Prop
  | .wakeUp | .loadActive _ _ | .sleepCancel | .leave | .lastNotify => mine
  | .check _ since => mine ∧ since < n
  | .loop j | .loopNotify j => j ≤ i
  | .loopWake j _ => j < i
  | _ => False

/-- The worker is about to unblock a worker of domain `i`, after `k` other notifications. -/
def Pc.Rouses (mine : Prop) (i k : ℕ) : Pc → Prop
  | .lastWake k' => mine ∧ k' = k
  | .loopWake j k' => j = i ∧ k' = k
  | _ => False

/-- The worker is asleep, or about to be. -/
def Pc.dozes : Pc → Bool
  | .check _ _ | .blocked _ _ _ => true
  | _ => false

/-- The worker sees to no domain, and is not asleep. -/
def Pc.plain : Pc → Bool
  | .wakeUp | .loadActive _ _ | .sleepCancel | .leave | .lastNotify | .check _ _
  | .loop _ | .loopNotify _ | .loopWake _ _ | .lastWake _ | .blocked _ _ _ => false
  | _ => true

/-- Somebody sees to domain `i`, or nobody is asleep in it. -/
inductive Attended (K : Config) (s : State) (i : ℕ) : Prop
  | attends {u} (hu : u < K.numThreads)
      (h : (s.worker u).Attends (K.node u = i) i (s.notified i)) : Attended K s i
  | rouses {v u k} (hv : v < K.numThreads) (h : (s.worker v).Rouses (K.node v = i) i k)
      (hu : u < K.numThreads) (hnode : K.node u = i) (he : (s.worker u).eligible k = true) :
      Attended K s i
  | awake (h : ∀ u < K.numThreads, K.node u = i → (s.worker u).dozes = false) : Attended K s i

variable {K : Config} {s s' : State} {a : Act} {w i j k : ℕ} {pc : Pc} {n n' : ℕ} {mine : Prop}

/-! ## The cases -/

/-- Who sees to a domain goes on doing so after further notifications. -/
theorem Pc.Attends.mono (h : pc.Attends mine i n) (hn : n ≤ n') : pc.Attends mine i n' := by
  cases pc with
  | check => exact ⟨h.1, Nat.lt_of_lt_of_le h.2 hn⟩
  | _ => exact h

/-- A worker that is not asleep and sees to no domain, sees to none. -/
theorem not_attends (h : pc.plain = true) : ¬ pc.Attends mine i n := by
  cases pc <;> first | exact id | cases h

/-- It is about to unblock nobody, either. -/
theorem not_rouses (h : pc.plain = true) : ¬ pc.Rouses mine i k := by
  cases pc <;> first | exact id | cases h

/-- It is not blocked. -/
theorem not_blocked_of_plain (h : pc.plain = true) : pc.isBlocked = false := by
  cases pc <;> first | rfl | cases h

/-- Who sees to a domain is not blocked. -/
theorem Pc.Attends.not_blocked (h : pc.Attends mine i n) : pc.isBlocked = false := by
  cases pc <;> first | rfl | exact h.elim

/-- Who is about to unblock somebody is not blocked. -/
theorem Pc.Rouses.not_blocked (h : pc.Rouses mine i k) : pc.isBlocked = false := by
  cases pc <;> first | rfl | exact h.elim

/-- Who is about to unblock has notified the domain. -/
theorem Pc.Rouses.lt {m : ℕ → ℕ} (h : pc.Rouses (K.node w = i) i k)
    (hrecalls : pc.Recalls m (K.node w)) : k < m i := by
  cases pc with
  | lastWake =>
    obtain ⟨rfl, rfl⟩ := h
    exact hrecalls
  | loopWake =>
    obtain ⟨rfl, rfl⟩ := h
    exact hrecalls
  | _ => exact h.elim

/-- A worker that was unblocked by a notification will not block. -/
theorem attends_unblocked {m : ℕ → ℕ} (he : pc.eligible k = true) (hk : k < m i)
    (hrecalls : pc.Recalls m i) (hmine : mine) : pc.unblocked.Attends mine i (m i) := by
  cases pc with
  | blocked =>
    have hseen := of_decide_eq_true he
    exact ⟨hmine, Nat.lt_of_le_of_lt (hrecalls.2.1.trans hseen) hk⟩
  | _ => cases he

/-- A blocked worker is asleep. -/
theorem dozes_of_blocked (h : pc.isBlocked = true) : pc.dozes = true := by
  cases pc with
  | blocked => rfl
  | _ => cases h

/-- A blocked worker is no thief. -/
theorem not_thief_of_blocked (h : pc.isBlocked = true) : pc.isThief = false := by
  cases pc with
  | blocked => rfl
  | _ => cases h

/-- A first active that goes on from domain `j` will see to the domains after it. -/
theorem attends_afterDomain (hj : j < i) (hi : i < K.numNuma) :
    (afterDomain K j).Attends mine i n := by
  rw [afterDomain, if_pos (Nat.lt_of_le_of_lt hj hi)]
  exact hj

/-- It is not asleep. -/
theorem dozes_afterDomain (j : ℕ) : (afterDomain K j).dozes = false := by
  unfold afterDomain
  split <;> rfl

/-! ## One worker goes on -/

/-- The worker that goes on sees to the domain now. -/
theorem attended_self (hw : w < K.numThreads) (hworker : s'.worker = (s.goto w pc).worker)
    (h : pc.Attends (K.node w = i) i (s'.notified i)) : Attended K s' i := by
  refine .attends hw ?_
  rw [hworker, goto_self]
  exact h

/-- What the domain has besides the worker that goes on stays. -/
theorem Attended.goto (h : Attended K s i) (hn : s.notified i ≤ s'.notified i)
    (hworker : s'.worker = (s.goto w pc).worker) (hb : (s.worker w).isBlocked = false)
    (hattends : (s.worker w).Attends (K.node w = i) i (s.notified i) → Attended K s' i)
    (hrouses : ∀ u < K.numThreads, ∀ k, (s.worker w).Rouses (K.node w = i) i k →
      K.node u = i → (s.worker u).eligible k = true → Attended K s' i)
    (hdozes : K.node w = i → pc.dozes = true → (s.worker w).dozes = true) : Attended K s' i := by
  have hother : ∀ u ≠ w, s'.worker u = s.worker u := by
    intro u hu
    rw [hworker, goto_other _ _ hu]
  cases h with
  | @attends u hu hatt =>
    obtain rfl | hne := eq_or_ne u w
    · exact hattends hatt
    · exact .attends hu (by rw [hother u hne]; exact hatt.mono hn)
  | @rouses v u k hv hr hu hnode he =>
    obtain rfl | hne := eq_or_ne v w
    · exact hrouses u hu k hr hnode he
    · have huw : u ≠ w := by
        rintro rfl
        rw [isBlocked_of_eligible he] at hb
        cases hb
      exact .rouses hv (by rw [hother v hne]; exact hr) hu hnode (by rw [hother u huw]; exact he)
  | awake hall =>
    refine .awake fun u hu hnode => ?_
    obtain rfl | hne := eq_or_ne u w
    · have hold := hall u hu hnode
      rw [hworker, goto_self]
      by_contra hd
      rw [hdozes hnode (by simpa using hd)] at hold
      cases hold
    · rw [hother u hne]
      exact hall u hu hnode

/-- A worker that unblocks nobody goes on, and not to sleep. -/
theorem Attended.goto_awake (h : Attended K s i) (hn : s.notified i ≤ s'.notified i)
    (hworker : s'.worker = (s.goto w pc).worker) (hb : (s.worker w).isBlocked = false)
    (hrouses : ∀ k, ¬ (s.worker w).Rouses (K.node w = i) i k) (hdozes : pc.dozes = false)
    (hattends : (s.worker w).Attends (K.node w = i) i (s.notified i) → Attended K s' i) :
    Attended K s' i := by
  refine h.goto hn hworker hb hattends (fun _ _ k hr => absurd hr (hrouses k)) fun _ hd => ?_
  rw [hdozes] at hd
  cases hd

/-- A worker that sees to nothing goes on. -/
theorem Attended.goto_plain (h : Attended K s i) (hn : s.notified i ≤ s'.notified i)
    (hworker : s'.worker = (s.goto w pc).worker) (hplain : (s.worker w).plain = true)
    (hdozes : K.node w = i → pc.dozes = false) : Attended K s' i := by
  refine h.goto hn hworker (not_blocked_of_plain hplain)
    (fun hatt => absurd hatt (not_attends hplain))
    (fun _ _ _ hr => absurd hr (not_rouses hplain)) fun hnode hd => ?_
  rw [hdozes hnode] at hd
  cases hd

/-- A worker stays where it is, or is unblocked. -/
theorem unblock_cases (s : State) (u v : ℕ) : (unblock s u).worker v = s.worker v ∨
    (unblock s u).worker v = (s.worker v).unblocked := by
  obtain rfl | hv := eq_or_ne v u
  · exact Or.inr (goto_self ..)
  · exact Or.inl (goto_other _ _ hv)

/-- `epoch()->notify_all()` leaves each worker where it is, or unblocks it. -/
theorem wakeAll_cases (s : State) (i k u : ℕ) : (wakeAll K s i k).worker u = s.worker u ∨
    (wakeAll K s i k).worker u = (s.worker u).unblocked := by
  change (if _ then _ else _ : Pc) = _ ∨ (if _ then _ else _ : Pc) = _
  split
  · exact Or.inr rfl
  · exact Or.inl rfl

/-- Workers are unblocked. -/
theorem Attended.unblock (h : Attended K s i) (hs : Sound K s)
    (hn : s.notified i ≤ s'.notified i)
    (hworker : ∀ u, s'.worker u = s.worker u ∨ s'.worker u = (s.worker u).unblocked) :
    Attended K s' i := by
  cases h with
  | @attends u hu hatt =>
    refine .attends hu ?_
    obtain hsame | hun := hworker u
    · rw [hsame]
      exact hatt.mono hn
    · rw [hun, unblocked_eq hatt.not_blocked]
      exact hatt.mono hn
  | @rouses v u k hv hr hu hnode he =>
    have hv' : s'.worker v = s.worker v := by
      obtain hsame | hun := hworker v
      · exact hsame
      · rw [hun, unblocked_eq hr.not_blocked]
    obtain hsame | hun := hworker u
    · exact .rouses hv (by rw [hv']; exact hr) hu hnode (by rw [hsame]; exact he)
    · refine .attends hu ?_
      have hrecalls := hs.keyed.worker u
      rw [hnode] at hrecalls
      rw [hun]
      exact (attends_unblocked he (hr.lt (hs.keyed.worker v)) hrecalls hnode).mono hn
  | awake hall =>
    refine .awake fun u hu hnode => ?_
    have hold := hall u hu hnode
    obtain hsame | hun := hworker u
    · rw [hsame]
      exact hold
    · rw [hun]
      cases hpc : s.worker u <;> rw [hpc] at hold <;> first | rfl | exact hold

/-- The domain is notified by a worker that is going to unblock somebody if there are waiters. -/
theorem attended_notified (hs : Sound K s) (hw : w < K.numThreads)
    (hworker : s'.worker = (s.goto w pc).worker) (hn : s'.notified i = s.notified i + 1)
    (hold : (s.worker w).dozes = false) (hnew : pc.dozes = false)
    (hrouses : hasWaiters (s.mVal i) = true → pc.Rouses (K.node w = i) i (s.notified i)) :
    Attended K s' i := by
  by_cases hd : ∃ u < K.numThreads, K.node u = i ∧ (s.worker u).dozes = true
  · obtain ⟨u, hu, hnode, hdozes⟩ := hd
    have hne : u ≠ w := by
      rintro rfl
      rw [hold] at hdozes
      cases hdozes
    have hsame : s'.worker u = s.worker u := by rw [hworker, goto_other _ _ hne]
    have hrecalls := hs.keyed.worker u
    cases hpc : s.worker u with
    | check key since =>
      rw [hpc, hnode] at hrecalls
      refine .attends hu ?_
      rw [hsame, hpc, hn]
      exact ⟨hnode, Nat.lt_succ_of_le hrecalls.2⟩
    | blocked key since seen =>
      have hwaiters := hs.hasWaiters hu (by rw [hpc]; rfl)
      rw [hnode] at hwaiters
      rw [hpc, hnode] at hrecalls
      refine .rouses hw (k := s.notified i) ?_ hu hnode ?_
      · rw [hworker, goto_self]
        exact hrouses hwaiters
      · rw [hsame, hpc]
        exact decide_eq_true hrecalls.2.2
    | _ => rw [hpc] at hdozes; cases hdozes
  · refine .awake fun u hu hnode => ?_
    obtain rfl | hne := eq_or_ne u w
    · rw [hworker, goto_self]
      exact hnew
    · rw [hworker, goto_other _ _ hne]
      by_contra hdozes
      exact hd ⟨u, hu, hnode, by simpa using hdozes⟩

/-! ## The moves -/

/-- An access that changes nothing else leaves the domains attended. -/
theorem Quiet.attended (hq : Quiet K s w pc) (hs : Sound K s) (hw : w < K.numThreads)
    (hi : i < K.numNuma) (hactive : 0 < s.active) (hthief : s.thief i = 0) (h : Attended K s i) :
    Attended K (s.goto w pc) i := by
  have hle := Nat.le_refl (s.notified i)
  cases hq with
  | popNone hpc _ | stealNone hpc | steal hpc | popAgain hpc _ | stopping hpc _ | going hpc _
  | resumed hpc => exact h.goto_plain hle rfl (by rw [hpc]; rfl) fun _ => rfl
  | busy hpc _ =>
    refine h.goto_awake hle rfl (by rw [hpc]; rfl) (by rw [hpc]; exact fun _ => id) rfl
      fun hatt => ?_
    rw [hpc] at hatt
    exact attended_self hw rfl hatt
  | missed hpc _ =>
    refine h.goto_awake hle rfl (by rw [hpc]; rfl) (by rw [hpc]; exact fun _ => id) rfl
      fun hatt => ?_
    rw [hpc] at hatt
    exact attended_self hw rfl hatt.1
  | calm hpc ha =>
    rw [ha] at hactive
    exact absurd hactive (Nat.lt_irrefl 0)
  | block hpc hepoch hbound =>
    refine h.goto hle rfl (by rw [hpc]; rfl) (fun hatt => ?_) (fun u _ k hr => ?_) (fun _ _ => ?_)
    · rw [hpc] at hatt
      obtain ⟨rfl, hlt⟩ := hatt
      rw [hs.passes hpc hepoch hbound] at hlt
      exact absurd hlt (Nat.lt_irrefl _)
    · rw [hpc] at hr
      exact hr.elim
    · rw [hpc]
      rfl
  | found hpc _ =>
    refine h.goto_awake hle rfl (by rw [hpc]; rfl) (by rw [hpc]; exact fun _ => id) rfl
      fun hatt => ?_
    rw [hpc] at hatt
    exact attended_self hw rfl hatt
  | @skip j hpc ht =>
    refine h.goto_awake hle rfl (by rw [hpc]; rfl) (by rw [hpc]; exact fun _ => id)
      (dozes_afterDomain j) fun hatt => ?_
    rw [hpc] at hatt
    have hne : j ≠ i := fun hji => ht (hji ▸ hthief)
    exact attended_self hw rfl (attends_afterDomain (Nat.lt_of_le_of_ne hatt hne) hi)
  | lastNobody hpc hnone =>
    refine h.goto hle rfl (by rw [hpc]; rfl) (fun hatt => ?_) (fun u hu k hr hnode he => ?_)
      (fun _ hd => ?_)
    · rw [hpc] at hatt
      exact hatt.elim
    · rw [hpc] at hr
      obtain ⟨rfl, rfl⟩ := hr
      rw [hnone u hu hnode] at he
      cases he
    · cases hd
  | @loopNobody j k hpc hnone =>
    refine h.goto hle rfl (by rw [hpc]; rfl) (fun hatt => ?_) (fun u hu k' hr hnode he => ?_)
      (fun _ hd => ?_)
    · rw [hpc] at hatt
      exact attended_self hw rfl (attends_afterDomain hatt hi)
    · rw [hpc] at hr
      obtain ⟨rfl, rfl⟩ := hr
      rw [hnone u hu hnode] at he
      cases he
    · rw [dozes_afterDomain] at hd
      cases hd

/-- Who subtracts from `thief` is counted in it. -/
theorem Subs.isThief (h : Subs K s w pc) : (s.worker w).isThief = true := by
  cases h with
  | sleepLast hpc _ | sleep hpc _ | workLast hpc _ | work hpc _ | stop hpc => rw [hpc]; rfl

/-- A thief less. If it was the last of the domain, it sees to it. -/
theorem Subs.attended (hsub : Subs K s w pc) (hw : w < K.numThreads)
    (hgoes : (s.worker w).stops = false)
    (hthief : K.node w = i → s.thief i = 1) (hworker : s'.worker = (s.goto w pc).worker)
    (hn : s'.notified = s.notified) (h : K.node w ≠ i → Attended K s i) : Attended K s' i := by
  by_cases hnode : K.node w = i
  · have hone := hthief hnode
    rw [← hnode] at hone
    cases hsub with
    | sleepLast | workLast => exact attended_self hw hworker hnode
    | sleep _ ht | work _ ht => exact absurd hone ht
    | stop hpc => rw [hpc] at hgoes; cases hgoes
  · refine (h hnode).goto_plain (by rw [hn]) hworker ?_ (absurd · hnode)
    cases hsub with
    | sleepLast hpc _ | workLast hpc _ | sleep hpc _ | work hpc _ | stop hpc => rw [hpc]; rfl

/-- Leaving the wait leaves the domains attended. -/
theorem Leaves.attended (hl : Leaves s w pc) (hw : w < K.numThreads)
    (hworker : s'.worker = (s.goto w pc).worker) (hn : s'.notified = s.notified)
    (h : Attended K s i) : Attended K s' i := by
  have hle : s.notified i ≤ s'.notified i := by rw [hn]
  cases hl with
  | pop hpc | stop hpc => exact h.goto_plain hle hworker (by rw [hpc]; rfl) fun _ => rfl
  | sleep hpc | wait hpc =>
    refine h.goto_awake hle hworker (by rw [hpc]; rfl) (by rw [hpc]; exact fun _ => id) rfl
      fun hatt => ?_
    rw [hpc] at hatt
    exact attended_self hw hworker hatt

/-- So does a notification: who was to see to the domain has done so, or will compare again. -/
theorem Notifies.attended (hnot : Notifies K s w j pc) (hs : Sound K s) (hw : w < K.numThreads)
    (hi : i < K.numNuma) (hgoes : (s.worker w).stops = false) (h : Attended K s i) :
    Attended K ((s.notify j).goto w pc) i := by
  have hle : s.notified i ≤ ((s.notify j).goto w pc).notified i := notified_le s j i
  have hworker : ((s.notify j).goto w pc).worker = (s.goto w pc).worker := rfl
  cases hnot with
  | stopWake hpc _ | stopNone hpc _ => rw [hpc] at hgoes; cases hgoes
  | lastWake hpc hwaits =>
    obtain rfl | hne := eq_or_ne i (K.node w)
    · exact attended_notified hs hw hworker (notify_self ..) (by rw [hpc]; rfl) rfl
        fun _ => ⟨rfl, rfl⟩
    · refine h.goto_awake hle hworker (by rw [hpc]; rfl) (by rw [hpc]; exact fun _ => id) rfl
        fun hatt => ?_
      rw [hpc] at hatt
      exact absurd hatt hne.symm
  | lastNone hpc hwaits =>
    obtain rfl | hne := eq_or_ne i (K.node w)
    · refine attended_notified hs hw hworker (notify_self ..) (by rw [hpc]; rfl) rfl
        fun hsome => ?_
      rw [hwaits] at hsome
      cases hsome
    · refine h.goto_awake hle hworker (by rw [hpc]; rfl) (by rw [hpc]; exact fun _ => id) rfl
        fun hatt => ?_
      rw [hpc] at hatt
      exact absurd hatt hne.symm
  | loopWake hpc hwaits =>
    obtain rfl | hne := eq_or_ne i j
    · exact attended_notified hs hw hworker (notify_self ..) (by rw [hpc]; rfl) rfl
        fun _ => ⟨rfl, rfl⟩
    · refine h.goto_awake hle hworker (by rw [hpc]; rfl) (by rw [hpc]; exact fun _ => id) rfl
        fun hatt => ?_
      rw [hpc] at hatt
      exact attended_self hw hworker (Nat.lt_of_le_of_ne hatt hne.symm)
  | loopNone hpc hwaits =>
    obtain rfl | hne := eq_or_ne i j
    · refine attended_notified hs hw hworker (notify_self ..) (by rw [hpc]; rfl)
        (dozes_afterDomain i) fun hsome => ?_
      rw [hwaits] at hsome
      cases hsome
    · refine h.goto_awake hle hworker (by rw [hpc]; rfl) (by rw [hpc]; exact fun _ => id)
        (dozes_afterDomain j) fun hatt => ?_
      rw [hpc] at hatt
      exact attended_self hw hworker (attends_afterDomain (Nat.lt_of_le_of_ne hatt hne.symm) hi)

/-- A `notify_one` comes after the notification that it belongs to. -/
theorem Wakes.lt (h : Wakes K s w j k pc) (hk : Keyed K s) : k < s.notified j := by
  have hrecalls := hk.worker w
  cases h with
  | last hpc | loop hpc => rw [hpc] at hrecalls; exact hrecalls

/-- A worker of domain `j` is unblocked by a notification. -/
theorem Wakes.attended (hwake : Wakes K s w j k pc) (hs : Sound K s) (hw : w < K.numThreads)
    (hi : i < K.numNuma) {u : ℕ} (hu : u < K.numThreads) (hnode : K.node u = j)
    (he : (s.worker u).eligible k = true) (h : Attended K s i) :
    Attended K ((unblock s u).goto w pc) i := by
  have hne : u ≠ w := by
    rintro rfl
    have hb := hwake.not_blocked
    rw [isBlocked_of_eligible he] at hb
    cases hb
  have hsame : (unblock s u).worker w = s.worker w := unblock_worker hwake.not_blocked he
  obtain rfl | hij := eq_or_ne i j
  · refine .attends hu ?_
    have hrecalls := hs.keyed.worker u
    rw [hnode] at hrecalls
    rw [goto_other _ _ hne, unblock, goto_self]
    exact attends_unblocked he (hwake.lt hs.keyed) hrecalls hnode
  · have hother : Attended K (unblock s u) i :=
      h.unblock hs (Nat.le_refl _) (unblock_cases s u)
    have hb : ((unblock s u).worker w).isBlocked = false := by rw [hsame]; exact hwake.not_blocked
    refine hother.goto (Nat.le_refl _) rfl hb (fun hatt => ?_) (fun v _ k hr => ?_) fun _ hd => ?_
    · rw [hsame] at hatt
      cases hwake with
      | last hpc => rw [hpc] at hatt; exact hatt.elim
      | loop hpc =>
        rw [hpc] at hatt
        exact attended_self hw rfl (attends_afterDomain hatt hi)
    · rw [hsame] at hr
      cases hwake with
      | last hpc => rw [hpc] at hr; exact absurd hr.1.symm hij
      | loop hpc => rw [hpc] at hr; exact absurd hr.1.symm hij
    · cases hwake with
      | last => cases hd
      | loop => rw [dozes_afterDomain] at hd; cases hd

/-! ## Every step -/

/-- If there is an active and a domain has no thief, somebody sees to the domain. -/
def Kept (K : Config) (s : State) : Prop :=
  s.stop = false → ∀ i < K.numNuma, 0 < s.active → s.thief i = 0 → Attended K s i

/-- Nobody is active at first. -/
theorem kept_init : Kept K .init := fun _ _ _ hactive => absurd hactive (Nat.lt_irrefl 0)

/-- Every step keeps the domains attended. -/
theorem kept_step (h : Woken K s) (hm : Moves K s a s') (hkept : Kept K s) : Kept K s' := by
  intro hstop i hi hactive hthief
  have hs := h.sound
  have hbefore : s.stop = false := by
    by_contra hset
    rw [hm.stop_mono (by simpa using hset)] at hstop
    cases hstop
  have hgoes : ∀ u, (s.worker u).stops = false := by
    intro u
    by_contra hset
    rw [h.heeds u (by simpa using hset)] at hbefore
    cases hbefore
  have hold := hkept hbefore i hi
  have hle := Nat.le_refl (s.notified i)
  cases hm with
  | quiet hw hq => exact hq.attended hs hw hi hactive hthief (hold hactive hthief)
  | @wakeUp w hw hpc =>
    change Function.update s.thief _ _ i = 0 at hthief
    obtain rfl | hne := eq_or_ne i (K.node w)
    · rw [Function.update_self] at hthief
      exact absurd hthief (Nat.succ_ne_zero _)
    · rw [Function.update_of_ne hne] at hthief
      refine (hold hactive hthief).goto_awake hle rfl (by rw [hpc]; rfl)
        (by rw [hpc]; exact fun _ => id) rfl fun hatt => ?_
      rw [hpc] at hatt
      exact absurd hatt hne.symm
  | @sub w pc hw hsub =>
    change Function.update s.thief _ _ i = 0 at hthief
    refine hsub.attended hw (hgoes w) (fun hnode => ?_) rfl rfl fun hne => ?_
    · have hpos := inDomain_pos hw hsub.isThief
      rw [← hs.counts.thief, hnode] at hpos
      rw [hnode, Function.update_self] at hthief
      exact Nat.le_antisymm (Nat.le_of_sub_eq_zero hthief) hpos
    · rw [Function.update_of_ne (Ne.symm hne)] at hthief
      exact hold hactive hthief
  | pop _ hpc | popAgain _ hpc | prepare _ hpc =>
    exact (hold hactive hthief).goto_plain hle rfl (by rw [hpc]; rfl) fun _ => rfl
  | leave hw hl => exact hl.attended hw rfl rfl (hold hactive hthief)
  | notify hw hn => exact hn.attended hs hw hi (hgoes _) (hold hactive hthief)
  | @stopWake w _ _ hpc | @stopSet w _ hpc =>
    have hgo := hgoes w
    rw [hpc] at hgo
    cases hgo
  | activateFirst hw hpc ha => exact attended_self hw rfl (Nat.zero_le _)
  | activate hw hpc ha =>
    exact (hold (Nat.pos_of_ne_zero ha) hthief).goto_plain hle rfl (by rw [hpc]; rfl) fun _ => rfl
  | deactivate hw hpc =>
    have hsome : 0 < s.active := Nat.lt_of_lt_of_le hactive (Nat.sub_le _ _)
    exact (hold hsome hthief).goto_plain hle rfl (by rw [hpc]; rfl) fun _ => rfl
  | wakeOne hw hwake hu hnode he =>
    exact hwake.attended hs hw hi hu hnode he (hold hactive hthief)
  | spurious => exact (hold hactive hthief).unblock hs hle (unblock_cases _ _)
  | schedule => exact (hold hactive hthief).unblock hs hle fun u => Or.inl rfl
  | callNotify | destroyNotify =>
    exact (hold hactive hthief).unblock hs (notified_le ..) fun u => Or.inl rfl
  | callWake | destroyWake => exact (hold hactive hthief).unblock hs hle (wakeAll_cases _ _ _)
  | destroy => cases hstop

/-! ## Every run -/

/-- The worker is between its `thief.fetch_sub` and its call to `resume` in
`thief_work_sleep`. -/
def Pc.starts : Pc → Bool
  | .lastNotify | .lastWake _ | .activate | .loop _ | .loopNotify _ | .loopWake _ _ => true
  | _ => false

/-- Who sees to a domain is on its way to `resume`, or is of the domain and neither blocked nor
inside `resume`. -/
theorem Pc.Attends.starts_or (h : pc.Attends mine i n) :
    pc.starts = true ∨ mine ∧ pc.isBlocked = false ∧ pc ≠ .resume := by
  cases pc with
  | lastNotify | loop | loopNotify | loopWake => exact Or.inl rfl
  | wakeUp | loadActive | sleepCancel | leave => exact Or.inr ⟨h, rfl, nofun⟩
  | check => exact Or.inr ⟨h.1, rfl, nofun⟩
  | _ => exact h.elim

/-- Who is about to unblock a worker is on its way to `resume`. -/
theorem Pc.Rouses.starts (h : pc.Rouses mine i k) : pc.starts = true := by
  cases pc with
  | lastWake | loopWake => rfl
  | _ => exact h.elim

/-- Domain `i` sleeps while work is running. -/
structure Stranded (K : Config) (s : State) (i : ℕ) : Prop where
  resumes : ∃ w < K.numThreads, s.worker w = .resume
  sleeps : ∃ w < K.numThreads, K.node w = i ∧ (s.worker w).isBlocked = true
  idles : ∀ w < K.numThreads, K.node w = i →
    (s.worker w).isBlocked = true ∨ s.worker w = .resume
  nobody : ∀ w < K.numThreads, (s.worker w).starts = false

/-- **No domain is stranded.** In every run of a pool no domain of which has `2 ^ 32` workers, with
fewer than `2 ^ 32` notifications between a `prepare_wait` and each comparison of its `wait`, no
state before the stop has a worker inside `resume`, a blocked worker of domain `i`, every worker of
domain `i` blocked or inside `resume`, and no worker on its way to `resume`. -/
theorem not_stranded (hsmall : K.Small) {as : List Act}
    (hrun : (machine K).Run (Bounds K) .init as s) (hstop : s.stop = false) (i : ℕ) :
    ¬ Stranded K s i := by
  rintro ⟨⟨r, hr, hresume⟩, ⟨b, hb, hnode, hblocked⟩, hall, hnone⟩
  have h : Woken K s ∧ Kept K s := by
    refine hrun.invariant (P := fun s => Woken K s ∧ Kept K s) (fun t b t' ht hok hstep => ?_)
      ⟨woken_init, kept_init⟩
    exact ⟨woken_step hsmall ht.1 hok hstep, kept_step ht.1 (moves_of_step hok hstep) ht.2⟩
  have hcounts := h.1.sound.counts
  have hactive : 0 < s.active := by
    rw [hcounts.active, tally_pos]
    exact ⟨r, hr, by rw [hresume]; rfl⟩
  have hthief : s.thief i = 0 := by
    rw [hcounts.thief]
    by_contra hne
    obtain ⟨u, hu, hui, hthief⟩ := exists_of_inDomain hne
    obtain hub | hur := hall u hu hui
    · rw [not_thief_of_blocked hub] at hthief
      cases hthief
    · rw [hur] at hthief
      cases hthief
  cases h.2 hstop i (hnode ▸ K.node_lt b hb) hactive hthief with
  | @attends u hu hatt =>
    obtain hstarts | ⟨hui, hnb, hnr⟩ := hatt.starts_or
    · rw [hnone u hu] at hstarts
      cases hstarts
    · obtain hub | hur := hall u hu hui
      · rw [hub] at hnb
        cases hnb
      · exact hnr hur
  | @rouses v u k hv hrouse hu hui he =>
    have hstarts := hrouse.starts
    rw [hnone v hv] at hstarts
    cases hstarts
  | awake hawake =>
    have hdoze := hawake b hb hnode
    rw [dozes_of_blocked hblocked] at hdoze
    cases hdoze

/-- Worker `0` is asleep, worker `1` has stolen a task and is inside `resume`, and worker `2` is the
thief that the domain still has. -/
theorem not_stranded_three :
    ∃ s, (machine (onePool 3)).Run (Bounds (onePool 3)) .init
        (List.replicate 9 (.step 0) ++ [.step 2, .step 2, .step 1, .step 1, .steal 1, .step 1,
          .step 1, .step 1]) s ∧
      (s.worker 0).isBlocked = true ∧ s.worker 1 = .resume ∧ ¬ Stranded (onePool 3) s 0 := by
  have hexec : ((machine (onePool 3)).exec (Bounds (onePool 3)) .init
      (List.replicate 9 (.step 0) ++ [.step 2, .step 2, .step 1, .step 1, .steal 1, .step 1,
        .step 1, .step 1])).map (fun s => (s.worker 0, s.worker 1, s.stop)) =
      some (.blocked 0 0 0, .resume, false) := by decide +kernel
  obtain ⟨s, hs, heq⟩ := Option.map_eq_some_iff.mp hexec
  simp only [Prod.mk.injEq] at heq
  obtain ⟨hasleep, hresume, hstop⟩ := heq
  have hrun := Machine.run_iff_exec.mpr hs
  exact ⟨s, hrun, by rw [hasleep]; rfl, hresume,
    not_stranded (small_of_lt (by decide)) hrun hstop 0⟩

/-! ## A wrapped epoch -/

/-- Worker `0` is about to wait with the key `0`, worker `1` is inside `resume`, and there were
`n` notifications. -/
structure Busy (n : ℕ) (s : State) : Prop where
  checking : s.worker 0 = .check 0 0
  resumed : s.worker 1 = .resume
  packs : Packs (s.mVal 0) n 1
  caller : s.caller = fun _ => .idle
  stop : s.stop = false

/-- Worker `0` prepares to wait, worker `1` finds a task and notifies twice. -/
theorem exists_busy : ∃ as s, (machine (onePool 2)).Run Machine.free .init as s ∧ Busy 2 s :=
  ⟨[Act.step 1, Act.step 0, Act.step 0, Act.step 0, Act.step 0, Act.step 0, Act.step 0, Act.step 0,
    Act.step 1, Act.steal 1, Act.step 1, Act.step 1, Act.wakeOne 1 none, Act.step 1, Act.step 1,
    Act.step 1, Act.wakeOne 1 none], _,
    ⟨trivial, _, rfl, trivial, _, rfl, trivial, _, rfl, trivial, _, rfl, trivial, _, rfl,
    trivial, _, rfl, trivial, _, rfl, trivial, _, rfl, trivial, _, rfl, trivial, _, rfl,
    trivial, _, rfl, trivial, _, rfl, trivial, _, rfl, trivial, _, rfl, trivial, _, rfl,
    trivial, _, rfl, trivial, _, rfl, rfl⟩, rfl, rfl, ⟨rfl, rfl⟩, rfl, rfl⟩

/-- A submission for worker `1` is one more notification. -/
theorem Busy.next (h : Busy n s) :
    ∃ as s', (machine (onePool 2)).Run Machine.free s as s' ∧ Busy (n + 1) s' := by
  obtain ⟨s', hrun, hcaller, hpacks, hstop, -, hworker⟩ :=
    run_schedule Machine.free Nat.one_lt_two h.caller h.packs Nat.one_ne_zero
      (fun _ => trivial) fun _ => trivial
  have hchecking : s'.worker 0 = .check 0 0 :=
    (hworker 0 (congrArg Pc.isBlocked h.checking)).trans h.checking
  have hresumed : s'.worker 1 = .resume :=
    (hworker 1 (congrArg Pc.isBlocked h.resumed)).trans h.resumed
  exact ⟨_, s', hrun, hchecking, hresumed, hpacks, hcaller, hstop.trans h.stop⟩

/-- Two workers: after `2 ^ 32` notifications worker `0` blocks on its old key, while worker `1`
is inside `resume`. -/
theorem exists_wrapped : ∃ as s, (machine (onePool 2)).Run Machine.free .init as s ∧
    s.stop = false ∧ Stranded (onePool 2) s 0 := by
  obtain ⟨as, s₂, hrun, hfirst⟩ := exists_busy
  obtain ⟨bs, s, hrun', h⟩ := Machine.exists_rounds (fun _ _ h => h.next) hfirst (2 ^ 32 - 2)
  have hstep := step_check Nat.two_pos h.checking h.packs
  have hzero : ((s.goto 0 (.blocked 0 0 (s.notified 0))).worker 0).isBlocked = true := by
    rw [goto_self]
    rfl
  have hone : (s.goto 0 (.blocked 0 0 (s.notified 0))).worker 1 = .resume := by
    rw [goto_other _ _ Nat.one_ne_zero, h.resumed]
  have htwo : ∀ w < 2, w = 0 ∨ w = 1 := by decide
  have hlast : (machine (onePool 2)).Run Machine.free s [.step 0]
      (s.goto 0 (.blocked 0 0 (s.notified 0))) := ⟨trivial, _, hstep, rfl⟩
  refine ⟨_, _, Machine.run_append.mpr ⟨s₂, hrun, Machine.run_append.mpr ⟨s, hrun', hlast⟩⟩, h.stop,
    ⟨1, Nat.one_lt_two, hone⟩, ⟨0, Nat.two_pos, rfl, hzero⟩, fun w hw _ => ?_, fun w hw => ?_⟩
  · obtain rfl | rfl := htwo w hw
    · exact Or.inl hzero
    · exact Or.inr hone
  · obtain rfl | rfl := htwo w hw
    · rw [goto_self]
      rfl
    · rw [hone]
      rfl

/-! ## A crowd of waiters -/

/-- One worker too many prepares, and the count of the waiters is `0`. Another one falls asleep,
and when the first finds a task it unblocks nobody. -/
theorem run_crowd :
    ∃ s, (machine (onePool (2 ^ 32 + 1))).Run (Bounds (onePool (2 ^ 32 + 1))) (asleep (2 ^ 32 - 1))
      (List.replicate 4 (Act.step (2 ^ 32 - 1)) ++ List.replicate 8 (Act.step (2 ^ 32)) ++
        List.replicate 8 (Act.step (2 ^ 32 - 1)) ++ [Act.steal (2 ^ 32 - 1)] ++
        List.replicate 5 (Act.step (2 ^ 32 - 1))) s ∧
      s.stop = false ∧ s.worker (2 ^ 32 - 1) = .resume ∧ s.worker (2 ^ 32) = .blocked 1 0 0 ∧
      ∀ u, u ≠ 2 ^ 32 - 1 → u ≠ 2 ^ 32 → s.worker u = (asleep (2 ^ 32 - 1)).worker u := by
  refine ⟨_, ⟨trivial, _, rfl, trivial, _, rfl, trivial, _, rfl, trivial, _, rfl,
    trivial, _, rfl, trivial, _, rfl, trivial, _, rfl, trivial, _, rfl,
    trivial, _, rfl, trivial, _, rfl, trivial, _, rfl, Nat.two_pow_pos 32, _, rfl,
    trivial, _, rfl, trivial, _, rfl, trivial, _, rfl, trivial, _, rfl, Nat.two_pow_pos 32, _, rfl,
    trivial, _, rfl, trivial, _, rfl, trivial, _, rfl, trivial, _, rfl, trivial, _, rfl,
    trivial, _, rfl, trivial, _, rfl, trivial, _, rfl, trivial, _, rfl, rfl⟩, rfl, rfl, rfl,
    fun u ha hb => ?_⟩
  simp only [State.goto, State.fetchAdd, State.setThief, State.notify, State.setActive,
    Function.update_of_ne ha, Function.update_of_ne hb]

/-- With `2 ^ 32 + 1` workers in one domain the last thief wakes nobody. -/
theorem exists_crowded :
    ∃ as s, (machine (onePool (2 ^ 32 + 1))).Run (Bounds (onePool (2 ^ 32 + 1))) .init as s ∧
      s.stop = false ∧ Stranded (onePool (2 ^ 32 + 1)) s 0 := by
  obtain ⟨as, hrun⟩ := run_asleep (N := 2 ^ 32 + 1) (n := 2 ^ 32 - 1) (by decide) (by decide)
  obtain ⟨s, hrun', hstop, hresume, hblocked, hrest⟩ := run_crowd
  have hall : ∀ w < 2 ^ 32 + 1, (s.worker w).isBlocked = true ∨ s.worker w = .resume := by
    intro w hw
    obtain rfl | ha := eq_or_ne w (2 ^ 32 - 1)
    · exact Or.inr hresume
    · obtain rfl | hb := eq_or_ne w (2 ^ 32)
      · rw [hblocked]
        exact Or.inl rfl
      · have hlt : w < 2 ^ 32 - 1 := by omega
        have hold : (asleep (2 ^ 32 - 1)).worker w = .blocked 0 0 0 := if_pos hlt
        rw [hrest w ha hb, hold]
        exact Or.inl rfl
  refine ⟨_, s, Machine.run_append.mpr ⟨_, hrun, hrun'⟩, hstop, ⟨2 ^ 32 - 1, by decide, hresume⟩,
    ⟨2 ^ 32, by decide, rfl, by rw [hblocked]; rfl⟩, fun w hw _ => hall w hw, fun w hw => ?_⟩
  obtain hb | hr := hall w hw
  · cases hpc : s.worker w <;> rw [hpc] at hb <;> first | rfl | cases hb
  · rw [hr]
    rfl

/-- A domain is stranded if `2 ^ 32` notifications go by between a `prepare_wait` and the comparison
of its `wait`, and, without that, if it has `2 ^ 32 + 1` workers. -/
theorem domain_stranded :
    (∃ as s, (machine (onePool 2)).Run Machine.free .init as s ∧ s.stop = false ∧
      Stranded (onePool 2) s 0) ∧
    ∃ as s, (machine (onePool (2 ^ 32 + 1))).Run (Bounds (onePool (2 ^ 32 + 1))) .init as s ∧
      s.stop = false ∧ Stranded (onePool (2 ^ 32 + 1)) s 0 :=
  ⟨exists_wrapped, exists_crowded⟩

end Libfork.Lazy
