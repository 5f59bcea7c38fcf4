import Libfork.Runtime.Places

/-!
# The accounts of a frame

The steal counter says how many forked children the next join waits for, and the join counter how
many of them it still waits for, as long as no scope sees 65535 steals. What exactly they say
depends on where the continuation is: a task counts as stolen a little before its counter does,
and a child forked last is not yet among those to wait for.

* `Phase` — the cases.
* `Accounts` — what a frame knows about its children. It depends on the frame, and on how far its
  own children have come.
* The lemmas after it: what each effect of the model on a frame does to its accounts.

Source: `frame.hpp`; `awaitables.hpp`; `promise.hpp`, `final_await_suspend`; `resume.hpp`.
-/

namespace Libfork.Runtime

open Libfork.Found Libfork.Join

/-! ## How far a task has come -/

inductive Status
  | unborn
  | alive
  | dead
deriving DecidableEq, Repr

def Loc.status : Loc → Status
  | .unborn => .unborn
  | .dead => .dead
  | _ => .alive

/-- How far a task has come. -/
def State.status (s : State) (f : ℕ) : Status := (s.loc f).status

/-- Where a task's own code is over, or has not begun. -/
def Loc.ended : Loc → Bool
  | .unborn => true
  | .final _ => true
  | .dead => true
  | _ => false

/-- What a continuation waits for. -/
inductive Phase
  /-- It runs, or waits for nothing that its counters know of. -/
  | plain
  /-- It is in a deque. -/
  | waits
  /-- It is in a deque, and counts as stolen. -/
  | effective
  /-- It was stolen, and is about to count it. -/
  | stolen
  /-- It has lost a join. -/
  | joining
deriving DecidableEq, Repr

namespace Task

variable (t : Task)

/-- A take of the continuation counts already. -/
def counted : Bool := t.awaiting.any (·.taken)

def phase : Phase :=
  match t.loc with
  | .queued _ => if t.counted then .effective else .waits
  | .stolen _ => .stolen
  | .joining => .joining
  | _ => .plain

end Task

/-- The child forked last that nobody has taken the continuation from. -/
def Phase.flying : Phase → ℕ
  | .waits => 1
  | _ => 0

/-- The take that the steal counter does not show yet. -/
def Phase.lag : Phase → ℕ
  | .effective => 1
  | .stolen => 1
  | _ => 0

/-! ## The counters -/

/-- The counters of a frame that is owed and was paid so many children, and was taken so often. -/
structure Balance (ph : Phase) (f : Frame) (owed paid taken : ℕ) : Prop where
  children : owed + paid = taken + ph.flying
  steals : f.mSteal.toNat + ph.lag = taken
  joins : f.mJoin.toNat = if ph = .joining then owed else 65535 - paid
  joining : ph = .joining → 0 < owed
  few : taken < 65535

namespace Balance

variable {ph : Phase} {f : Frame} {owed paid taken : ℕ}

/-- New counters, or counters that were reset. -/
theorem new : Balance .plain Frame.new 0 0 0 where
  children := rfl
  steals := rfl
  joins := rfl
  joining h := by cases h
  few := by simp

/-- A take counts. -/
theorem take (h : Balance .waits f owed paid taken) (hfew : taken + 1 < 65535) :
    Balance .effective f owed paid (taken + 1) where
  children := h.children
  steals := congrArg (· + 1) h.steals
  joins := h.joins
  joining hj := by cases hj
  few := hfew

/-- A thief has it. -/
theorem steal (h : Balance .effective f owed paid taken) : Balance .stolen f owed paid taken where
  children := h.children
  steals := h.steals
  joins := h.joins
  joining hj := by cases hj
  few := h.few

/-- The steal counter catches up. -/
theorem addSteal (h : Balance ph f owed paid taken) (hph : ph = .effective ∨ ph = .stolen) :
    Balance .plain f.fetchAddSteal owed paid taken := by
  have hlag : ph.lag = 1 := by rcases hph with rfl | rfl <;> rfl
  have hflying : ph.flying = 0 := by rcases hph with rfl | rfl <;> rfl
  have hjoin : ph ≠ .joining := by rcases hph with rfl | rfl <;> simp
  have hsteals := h.steals
  have hfew := h.few
  have hsucc : f.fetchAddSteal.mSteal.toNat = f.mSteal.toNat + 1 := by
    simp only [Frame.fetchAddSteal, BitVec.toNat_add]
    exact Nat.mod_eq_of_lt (by simp; omega)
  refine ⟨?_, ?_, ?_, ?_, hfew⟩
  · have hchildren := h.children
    rwa [hflying] at hchildren
  · rw [hsucc, ← hsteals, hlag]
    rfl
  · have hjoins := h.joins
    rwa [if_neg hjoin] at hjoins
  · intro hj
    cases hj

/-- A child is forked. -/
theorem fork (h : Balance .plain f owed paid taken) : Balance .waits f (owed + 1) paid taken where
  children := by
    rw [Nat.add_right_comm]
    exact congrArg (· + 1) h.children
  steals := h.steals
  joins := h.joins
  joining hj := by cases hj
  few := h.few

/-- The child forked last pops the continuation. -/
theorem pop (h : Balance .waits f (owed + 1) paid taken) : Balance .plain f owed paid taken where
  children := by
    have := h.children
    simp only [Phase.flying] at this ⊢
    omega
  steals := h.steals
  joins := h.joins
  joining hj := by cases hj
  few := h.few

/-- A child decrements the join counter, and is not the last. -/
theorem decrement (h : Balance ph f (owed + 1) paid taken) (hone : f.loadJoins ≠ 1)
    (hph : ph = .waits → 0 < owed) : Balance ph (f.fetchSubJoins 1) owed (paid + 1) taken := by
  have hchildren := h.children
  have hjoins := h.joins
  have hfew := h.few
  have hflying : ph.flying ≤ 1 := by cases ph <;> simp [Phase.flying]
  have hpos : 0 < f.mJoin.toNat := by
    rw [hjoins]
    split_ifs <;> omega
  have hpred : (f.fetchSubJoins 1).mJoin.toNat = f.mJoin.toNat - 1 := by
    simp only [Frame.fetchSubJoins, BitVec.toNat_sub]
    have := f.mJoin.isLt
    simp
    omega
  have hne : f.mJoin.toNat ≠ 1 := fun h1 => hone (BitVec.eq_of_toNat_eq h1)
  refine ⟨?_, h.steals, ?_, ?_, hfew⟩
  · omega
  · rw [hpred, hjoins]
    split_ifs <;> omega
  · intro hj
    rw [hjoins, if_pos hj] at hne
    omega

/-- Where the join counter is 1, the frame waits for one child, unless the last fork flies. -/
theorem last (h : Balance ph f (owed + 1) paid taken) (hone : f.loadJoins = 1)
    (hph : ph = .waits → 0 < owed) : ph = .joining ∧ owed = 0 := by
  have hchildren := h.children
  have hjoins := h.joins
  have hfew := h.few
  have h1 : f.mJoin.toNat = 1 := congrArg BitVec.toNat hone
  rw [h1] at hjoins
  split_ifs at hjoins with hj
  · exact ⟨hj, by omega⟩
  · exfalso
    cases ph with
    | waits =>
        have := hph rfl
        simp only [Phase.flying] at hchildren
        omega
    | plain => simp only [Phase.flying] at hchildren; omega
    | effective => simp only [Phase.flying] at hchildren; omega
    | stolen => simp only [Phase.flying] at hchildren; omega
    | joining => exact hj rfl

/-- Without steals nobody is owed. -/
theorem of_steals_eq_zero (h : Balance .plain f owed paid taken) (hz : f.loadSteals = 0) :
    owed = 0 ∧ paid = 0 ∧ taken = 0 := by
  have hchildren := h.children
  have hsteals := h.steals
  have h0 : f.mSteal.toNat = 0 := congrArg BitVec.toNat hz
  simp only [Phase.flying, Phase.lag] at hchildren hsteals
  omega

/-- The join finds every child finished exactly where nobody is owed. -/
theorem joined_iff (h : Balance .plain f owed paid taken) :
    f.loadSteals = kU16Max - f.loadJoins ↔ owed = 0 := by
  have hchildren := h.children
  have hsteals := h.steals
  have hjoins := h.joins
  have hfew := h.few
  simp only [Phase.flying, Phase.lag, reduceCtorEq, if_false] at hchildren hsteals hjoins
  have hmax : kU16Max.toNat = 65535 := rfl
  have hjoined : (kU16Max - f.loadJoins).toNat = paid := by
    rw [BitVec.toNat_sub, hmax, Frame.loadJoins, hjoins]
    omega
  constructor
  · intro heq
    have := congrArg BitVec.toNat heq
    rw [hjoined, Frame.loadSteals] at this
    omega
  · rintro rfl
    apply BitVec.eq_of_toNat_eq
    rw [hjoined, Frame.loadSteals]
    omega

/-- The join loses the race. -/
theorem lose (h : Balance .plain f owed paid taken)
    (hne : f.loadSteals ≠ kU16Max - f.loadJoins) :
    Balance .joining (f.fetchSubJoins (kU16Max - f.loadSteals)) owed paid taken := by
  have hpos : owed ≠ 0 := fun h0 => hne (h.joined_iff.mpr h0)
  have hchildren := h.children
  have hsteals := h.steals
  have hjoins := h.joins
  have hfew := h.few
  simp only [Phase.flying, Phase.lag, reduceCtorEq, if_false] at hchildren hsteals hjoins
  have hmax : kU16Max.toNat = 65535 := rfl
  have hnew : (f.fetchSubJoins (kU16Max - f.loadSteals)).mJoin.toNat = owed := by
    simp only [Frame.fetchSubJoins, Frame.loadSteals]
    rw [BitVec.toNat_sub, BitVec.toNat_sub, hmax, hjoins]
    omega
  refine ⟨hchildren, hsteals, ?_, ?_, hfew⟩
  · rw [hnew, if_pos rfl]
  · intro _
    omega

end Balance

/-! ## The accounts -/

variable {T : Tree} {st st' : ℕ → Status} {p c w : ℕ} {t : Task} {k : Fork} {l : Loc}

/-- What is known of the child forked last, until the fork's `await_resume`. -/
structure ForkOk (T : Tree) (st : ℕ → Status) (p : ℕ) (t : Task) (k : Fork) : Prop where
  place : (∃ w, t.loc = .queued w) ∨ (∃ w, t.loc = .stolen w) ∨ ∃ w, t.loc = .run w
  tag : T.tag k.child = .fork
  parent : T.parent k.child = p
  pre : k.stealsPre.toNat + k.taken.toNat = t.taken
  waited : k.taken = true ∨ t.phase = .waits → k.child ∈ t.owed ∨ k.child ∈ t.paid
  finished : k.taken = false → t.phase ≠ .waits → st k.child = .dead

/-- What the frame of `p` knows about its children. -/
structure Accounts (T : Tree) (st : ℕ → Status) (p : ℕ) (t : Task) : Prop where
  owed : ∀ c, c ∈ t.owed ↔ T.tag c = .fork ∧ T.parent c = p ∧ st c = .alive
  paid : ∀ c ∈ t.paid, T.tag c = .fork ∧ T.parent c = p ∧ st c = .dead
  calling : ∀ c, t.loc = .calling c ↔ T.tag c = .call ∧ T.parent c = p ∧ st c = .alive
  scope : t.scope = false → t.owed = ∅ ∧ t.paid = ∅
  ended : t.loc.ended = true → t.scope = false
  balance : Balance t.phase t.frame t.owed.card t.paid.card t.taken
  fork : ∀ k, t.awaiting = some k → ForkOk T st p t k
  waiting : (∃ w, t.loc = .queued w) ∨ (∃ w, t.loc = .stolen w) → ∃ k, t.awaiting = some k
  stolen : ∀ w, t.loc = .stolen w → t.counted = true

/-- A task that was not invoked has no children. -/
theorem accounts_new : Accounts T (fun _ => .unborn) p Task.new where
  owed c := by simp [Task.new]
  paid c := by simp [Task.new]
  calling c := by simp [Task.new]
  scope _ := ⟨rfl, rfl⟩
  ended _ := rfl
  balance := Balance.new
  fork k hk := by cases hk
  waiting h := by rcases h with ⟨w, h⟩ | ⟨w, h⟩ <;> cases h
  stolen w h := by cases h

/-! ## Reading them -/

namespace Accounts

variable (h : Accounts T st p t)

include h

/-- A frame whose code is over has no children left. -/
theorem owed_eq_empty (hended : t.loc.ended = true) : t.owed = ∅ :=
  (h.scope (h.ended hended)).1

/-- No fork is under way where the continuation is neither in a deque, nor taken, nor runs. -/
theorem awaiting_eq_none (hq : ∀ w, t.loc ≠ .queued w) (hs : ∀ w, t.loc ≠ .stolen w)
    (hr : ∀ w, t.loc ≠ .run w) : t.awaiting = none := by
  cases hk : t.awaiting with
  | none => rfl
  | some k =>
      rcases (h.fork k hk).place with ⟨w, hw⟩ | ⟨w, hw⟩ | ⟨w, hw⟩
      · exact absurd hw (hq w)
      · exact absurd hw (hs w)
      · exact absurd hw (hr w)

/-- A child that is owed was not paid. -/
theorem notMem_paid (hc : c ∈ t.owed) : c ∉ t.paid := by
  intro hp
  have halive := ((h.owed c).mp hc).2.2
  rw [(h.paid c hp).2.2] at halive
  cases halive

/-! ## Keeping them -/

/-- Other tasks may come and go. -/
theorem congr (hst : ∀ c, T.tag c ≠ .root → T.parent c = p → st' c = st c) :
    Accounts T st' p t := by
  have hfork : ∀ c, T.tag c = .fork → T.parent c = p → st' c = st c :=
    fun c ht hp => hst c (by simp [ht]) hp
  refine { h with owed := ?_, paid := ?_, calling := ?_, fork := ?_ }
  · intro c
    rw [h.owed]
    constructor
    · rintro ⟨ht, hp, hc⟩
      exact ⟨ht, hp, (hfork c ht hp).trans hc⟩
    · rintro ⟨ht, hp, hc⟩
      exact ⟨ht, hp, (hfork c ht hp).symm.trans hc⟩
  · intro c hc
    obtain ⟨ht, hp, hdead⟩ := h.paid c hc
    exact ⟨ht, hp, (hfork c ht hp).trans hdead⟩
  · intro c
    rw [h.calling]
    constructor
    · rintro ⟨ht, hp, hc⟩
      exact ⟨ht, hp, (hst c (by simp [ht]) hp).trans hc⟩
    · rintro ⟨ht, hp, hc⟩
      exact ⟨ht, hp, (hst c (by simp [ht]) hp).symm.trans hc⟩
  · intro k hk
    obtain ⟨hplace, ht, hp, hpre, hwaited, hfinished⟩ := h.fork k hk
    refine ⟨hplace, ht, hp, hpre, hwaited, ?_⟩
    intro hk hphase
    exact (hfork k.child ht hp).trans (hfinished hk hphase)

/-- The handle goes elsewhere, with no fork under way. -/
theorem relocate (haw : t.awaiting = none) (hph : t.phase = .plain)
    (hcall : ∀ c, t.loc ≠ .calling c) (hl : ({ t with loc := l } : Task).phase = .plain)
    (hcall' : ∀ c, l ≠ .calling c) (hended : l.ended = true → t.scope = false) :
    Accounts T st p { t with loc := l } := by
  refine { h with calling := ?_, ended := hended, balance := ?_, fork := ?_, waiting := ?_,
                  stolen := ?_ }
  · intro c
    rw [← h.calling c]
    exact iff_of_false (hcall' c) (hcall c)
  · have hbalance := h.balance
    rw [hph] at hbalance
    rw [hl]
    exact hbalance
  · intro k hk
    cases haw.symm.trans hk
  · rintro (⟨w, hw⟩ | ⟨w, hw⟩)
    · obtain rfl : l = .queued w := hw
      simp [Task.phase, Task.counted, haw] at hl
    · obtain rfl : l = .stolen w := hw
      simp [Task.phase] at hl
  · intro w hw
    obtain rfl : l = .stolen w := hw
    simp [Task.phase] at hl

/-- The code calls a new task. -/
theorem calls (hl : t.loc = .run w) (haw : t.awaiting = none) (hc : st c = .unborn)
    (ht : T.tag c = .call) (hp : T.parent c = p) :
    Accounts T (Function.update st c .alive) p { t with loc := .calling c } := by
  have hfork : ∀ c', T.tag c' = .fork → Function.update st c .alive c' = st c' := by
    intro c' ht'
    apply Function.update_of_ne
    rintro rfl
    cases ht.symm.trans ht'
  refine ⟨?_, ?_, ?_, h.scope, ?_, ?_, ?_, ?_, ?_⟩
  · intro c'
    rw [h.owed]
    constructor
    · rintro ⟨ht', hp', hst⟩
      exact ⟨ht', hp', (hfork c' ht').trans hst⟩
    · rintro ⟨ht', hp', hst⟩
      exact ⟨ht', hp', (hfork c' ht').symm.trans hst⟩
  · intro c' hc'
    obtain ⟨ht', hp', hst⟩ := h.paid c' hc'
    exact ⟨ht', hp', (hfork c' ht').trans hst⟩
  · intro c'
    by_cases hcc : c' = c
    · subst hcc
      simp [ht, hp]
    · rw [Function.update_of_ne hcc, ← h.calling c', hl]
      simp [Ne.symm hcc]
  · intro hended
    cases hended
  · have hbalance := h.balance
    simp only [Task.phase, hl] at hbalance
    exact hbalance
  · intro k hk
    cases haw.symm.trans hk
  · rintro (⟨w, hw⟩ | ⟨w, hw⟩) <;> cases hw
  · intro w hw
    cases hw

/-- The called task returns. -/
theorem returned (hl : t.loc = .calling c) :
    Accounts T (Function.update st c .dead) p { t with loc := .run w } := by
  obtain ⟨ht, hp, hst⟩ := (h.calling c).mp hl
  have haw := h.awaiting_eq_none (by simp [hl]) (by simp [hl]) (by simp [hl])
  have hfork : ∀ c', T.tag c' = .fork → Function.update st c .dead c' = st c' := by
    intro c' ht'
    apply Function.update_of_ne
    rintro rfl
    cases ht.symm.trans ht'
  refine ⟨?_, ?_, ?_, h.scope, ?_, ?_, ?_, ?_, ?_⟩
  · intro c'
    rw [h.owed]
    constructor
    · rintro ⟨ht', hp', hst⟩
      exact ⟨ht', hp', (hfork c' ht').trans hst⟩
    · rintro ⟨ht', hp', hst⟩
      exact ⟨ht', hp', (hfork c' ht').symm.trans hst⟩
  · intro c' hc'
    obtain ⟨ht', hp', hst⟩ := h.paid c' hc'
    exact ⟨ht', hp', (hfork c' ht').trans hst⟩
  · intro c'
    by_cases hcc : c' = c
    · subst hcc
      simp
    · rw [Function.update_of_ne hcc, ← h.calling c', hl]
      simp [Ne.symm hcc]
  · intro hended
    cases hended
  · have hbalance := h.balance
    simp only [Task.phase, hl] at hbalance
    exact hbalance
  · intro k hk
    cases haw.symm.trans hk
  · rintro (⟨w, hw⟩ | ⟨w, hw⟩) <;> cases hw
  · intro w hw
    cases hw

/-- The code forks a new task. -/
theorem forks (hl : t.loc = .run w) (hc : st c = .unborn) (ht : T.tag c = .fork)
    (hp : T.parent c = p) :
    Accounts T (Function.update st c .alive) p { t.forks c with loc := .queued w } := by
  have hnew : c ∉ t.owed := by
    intro hmem
    cases hc.symm.trans ((h.owed c).mp hmem).2.2
  have hbalance := h.balance
  simp only [Task.phase, hl] at hbalance
  refine ⟨?_, ?_, ?_, ?_, ?_, ?_, ?_, ?_, ?_⟩
  · intro c'
    simp only [Task.forks, Finset.mem_insert, h.owed]
    by_cases hcc : c' = c
    · subst hcc
      simp [ht, hp]
    · simp [hcc]
  · intro c' hc'
    obtain ⟨ht', hp', hst⟩ := h.paid c' hc'
    refine ⟨ht', hp', ?_⟩
    rw [Function.update_of_ne, hst]
    rintro rfl
    cases hc.symm.trans hst
  · intro c'
    by_cases hcc : c' = c
    · subst hcc
      simp [ht]
    · rw [Function.update_of_ne hcc, ← h.calling c', hl]
      simp
  · intro hscope
    cases hscope
  · intro hended
    cases hended
  · simp only [Task.forks, Finset.card_insert_of_notMem hnew]
    exact hbalance.fork
  · intro k hk
    obtain rfl : ⟨c, t.frame.loadSteals, false⟩ = k := Option.some.inj hk
    refine ⟨Or.inl ⟨w, rfl⟩, ht, hp, hbalance.steals, ?_, ?_⟩
    · intro _
      exact Or.inl (Finset.mem_insert_self c t.owed)
    · intro _ hph
      exact absurd rfl hph
  · intro _
    exact ⟨_, rfl⟩
  · intro w' hw
    cases hw

/-- The continuation is stolen, or counts as stolen. -/
theorem take (hl : t.loc = .queued w) (hfew : t.take.taken < 65535) :
    Accounts T st p t.take ∧ t.take.phase = .effective := by
  obtain ⟨k, hk⟩ := h.waiting (Or.inl ⟨w, hl⟩)
  obtain ⟨hplace, ht, hp, hpre, hwaited, hfinished⟩ := h.fork k hk
  have hbalance := h.balance
  by_cases htaken : k.taken = true
  · have hsame : t.take = t := by simp [Task.take, hk, htaken]
    rw [hsame]
    exact ⟨h, by simp [Task.phase, hl, Task.counted, hk, htaken]⟩
  · have hph : t.phase = .waits := by simp [Task.phase, hl, Task.counted, hk, htaken]
    have htake : t.take =
        { t with awaiting := some { k with taken := true }, taken := t.taken + 1 } := by
      simp [Task.take, hk, htaken]
    have hph' : t.take.phase = .effective := by
      rw [htake]
      simp [Task.phase, hl, Task.counted]
    rw [hph] at hbalance
    rw [htake] at hfew hph' ⊢
    refine ⟨⟨h.owed, h.paid, h.calling, h.scope, h.ended, ?_, ?_, ?_, ?_⟩, hph'⟩
    · rw [hph']
      exact hbalance.take hfew
    · intro k' hk'
      obtain rfl : { k with taken := true } = k' := Option.some.inj hk'
      refine ⟨hplace, ht, hp, ?_, fun _ => hwaited (Or.inr hph), ?_⟩
      · simp only [Bool.not_eq_true] at htaken
        rw [htaken] at hpre
        exact congrArg (· + 1) hpre
      · intro hf
        cases hf
    · intro _
      exact ⟨_, rfl⟩
    · intro w' hw
      cases hl.symm.trans hw

/-- A thief has the continuation. -/
theorem steal (hl : t.loc = .queued w) {v : ℕ} (hph : t.phase = .effective) :
    Accounts T st p { t with loc := .stolen v } := by
  have hcounted : t.counted = true := by
    simp only [Task.phase, hl] at hph
    split_ifs at hph with hc
    exact hc
  have hbalance := h.balance
  rw [hph] at hbalance
  refine ⟨h.owed, h.paid, ?_, h.scope, ?_, hbalance.steal, ?_, ?_, ?_⟩
  · intro c
    rw [← h.calling c, hl]
    simp
  · intro hended
    cases hended
  · intro k hk
    obtain ⟨hplace, ht, hp, hpre, hwaited, hfinished⟩ := h.fork k hk
    have htaken : k.taken = true := by
      have hk' : t.awaiting = some k := hk
      rw [Task.counted, hk'] at hcounted
      exact hcounted
    refine ⟨Or.inr (Or.inl ⟨v, rfl⟩), ht, hp, hpre, fun _ => hwaited (Or.inl htaken), ?_⟩
    intro hf
    cases hf.symm.trans htaken
  · intro _
    exact h.waiting (Or.inl ⟨w, hl⟩)
  · intro _ _
    exact hcounted

/-- Whoever took the continuation counts the steal, and goes on with it. -/
theorem addSteal {v : ℕ} (hl : (∃ w, t.loc = .queued w) ∨ ∃ w, t.loc = .stolen w)
    (hcounted : t.counted = true) : Accounts T st p { t.addSteal with loc := .run v } := by
  have hph : t.phase = .effective ∨ t.phase = .stolen := by
    rcases hl with ⟨w, hw⟩ | ⟨w, hw⟩
    · left
      simp [Task.phase, hw, hcounted]
    · right
      simp [Task.phase, hw]
  refine ⟨h.owed, h.paid, ?_, h.scope, ?_, h.balance.addSteal hph, ?_, ?_, ?_⟩
  · intro c
    rw [← h.calling c]
    rcases hl with ⟨w, hw⟩ | ⟨w, hw⟩ <;> simp [hw]
  · intro hended
    cases hended
  · intro k hk
    obtain ⟨hplace, ht, hp, hpre, hwaited, hfinished⟩ := h.fork k hk
    have htaken : k.taken = true := by
      have hk' : t.awaiting = some k := hk
      rw [Task.counted, hk'] at hcounted
      exact hcounted
    refine ⟨Or.inr (Or.inr ⟨v, rfl⟩), ht, hp, hpre, fun _ => hwaited (Or.inl htaken), ?_⟩
    intro hf
    cases hf.symm.trans htaken
  · rintro (⟨w, hw⟩ | ⟨w, hw⟩) <;> cases hw
  · intro w' hw
    cases hw

/-- The fork's `await_resume`. -/
theorem awaitResume (hl : t.loc = .run w) : Accounts T st p { t with awaiting := none } := by
  have hbalance := h.balance
  simp only [Task.phase, hl] at hbalance
  refine ⟨h.owed, h.paid, h.calling, h.scope, h.ended, ?_, ?_, ?_, ?_⟩
  · simp only [Task.phase, hl]
    exact hbalance
  · intro k hk
    cases hk
  · rintro (⟨v, hv⟩ | ⟨v, hv⟩)
    · cases hl.symm.trans hv
    · cases hl.symm.trans hv
  · intro v hv
    cases hl.symm.trans hv

/-- The child forked last finishes, and pops the continuation. -/
theorem popped {v : ℕ} (hl : t.loc = .queued w) (hk : t.awaiting = some k)
    (htaken : k.taken = false) (hst : st k.child = .alive) :
    Accounts T (Function.update st k.child .dead) p
      { t.popped k.child with loc := .run v } := by
  obtain ⟨hplace, ht, hp, hpre, hwaited, hfinished⟩ := h.fork k hk
  have hmem : k.child ∈ t.owed := (h.owed k.child).mpr ⟨ht, hp, hst⟩
  have hph : t.phase = .waits := by simp [Task.phase, hl, Task.counted, hk, htaken]
  have hbalance := h.balance
  rw [hph, ← Finset.card_erase_add_one hmem] at hbalance
  refine ⟨?_, ?_, ?_, ?_, ?_, hbalance.pop, ?_, ?_, ?_⟩
  · intro c
    simp only [Task.popped, Finset.mem_erase, h.owed]
    by_cases hc : c = k.child
    · subst hc
      simp
    · simp [hc]
  · intro c hc
    obtain ⟨ht', hp', hdead⟩ := h.paid c hc
    refine ⟨ht', hp', ?_⟩
    rw [Function.update_of_ne, hdead]
    rintro rfl
    exact h.notMem_paid hmem hc
  · intro c
    by_cases hc : c = k.child
    · subst hc
      simp
    · rw [Function.update_of_ne hc, ← h.calling c, hl]
      simp
  · intro hscope
    obtain ⟨howed, hpaid⟩ := h.scope hscope
    rw [howed] at hmem
    exact absurd hmem (Finset.notMem_empty _)
  · intro hended
    cases hended
  · intro k' hk'
    obtain rfl : k = k' := Option.some.inj (hk.symm.trans hk')
    refine ⟨Or.inr (Or.inr ⟨v, rfl⟩), ht, hp, hpre, ?_, ?_⟩
    · rintro (htrue | hwaits)
      · cases htaken.symm.trans htrue
      · cases hwaits
    · intro _ _
      exact Function.update_self ..
  · rintro (⟨w, hw⟩ | ⟨w, hw⟩) <;> cases hw
  · intro w' hw
    cases hw

/-- A child finishes, and decrements the join counter. -/
theorem decremented (hc : c ∈ t.owed) (hone : t.frame.loadJoins ≠ 1)
    (hwaits : t.phase = .waits → (t.owed.erase c).Nonempty) :
    Accounts T (Function.update st c .dead) p (t.decremented c) := by
  obtain ⟨ht, hp, hst⟩ := (h.owed c).mp hc
  have hbalance := h.balance
  rw [← Finset.card_erase_add_one hc] at hbalance
  refine ⟨?_, ?_, ?_, ?_, h.ended, ?_, ?_, h.waiting, h.stolen⟩
  · intro c'
    simp only [Task.decremented, Finset.mem_erase, h.owed]
    by_cases hcc : c' = c
    · subst hcc
      simp
    · simp [hcc]
  · intro c' hc'
    simp only [Task.decremented, Finset.mem_insert] at hc'
    by_cases hcc : c' = c
    · subst hcc
      exact ⟨ht, hp, Function.update_self ..⟩
    · rw [Function.update_of_ne hcc]
      exact h.paid c' (hc'.resolve_left hcc)
  · intro c'
    by_cases hcc : c' = c
    · subst hcc
      simp only [Function.update_self, reduceCtorEq, and_false, iff_false]
      intro hcalling
      cases ht.symm.trans ((h.calling c').mp hcalling).1
    · rw [Function.update_of_ne hcc]
      exact h.calling c'
  · intro hscope
    obtain ⟨howed, -⟩ := h.scope hscope
    rw [howed] at hc
    exact absurd hc (Finset.notMem_empty _)
  · simp only [Task.decremented, Finset.card_insert_of_notMem (h.notMem_paid hc)]
    exact hbalance.decrement hone fun hph => Finset.card_pos.mpr (hwaits hph)
  · intro k hk
    obtain ⟨hplace, ht', hp', hpre, hwaited, hfinished⟩ := h.fork k hk
    refine ⟨hplace, ht', hp', hpre, ?_, ?_⟩
    · intro hw
      simp only [Task.decremented, Finset.mem_erase, Finset.mem_insert]
      by_cases hcc : k.child = c
      · exact Or.inr (Or.inl hcc)
      · rcases hwaited hw with ho | hpd
        · exact Or.inl ⟨hcc, ho⟩
        · exact Or.inr (Or.inr hpd)
    · intro hfalse hph
      by_cases hcc : k.child = c
      · rw [hcc]
        exact Function.update_self ..
      · rw [Function.update_of_ne hcc]
        exact hfinished hfalse hph

/-- Where the join counter is 1, the child that finds it is the last that a join waits for. -/
theorem last (hc : c ∈ t.owed) (hone : t.frame.loadJoins = 1)
    (hwaits : t.phase = .waits → (t.owed.erase c).Nonempty) :
    t.loc = .joining ∧ t.owed.erase c = ∅ := by
  have hbalance := h.balance
  rw [← Finset.card_erase_add_one hc] at hbalance
  obtain ⟨hph, hcard⟩ := hbalance.last hone fun hph => Finset.card_pos.mpr (hwaits hph)
  refine ⟨?_, Finset.card_eq_zero.mp hcard⟩
  unfold Task.phase at hph
  split at hph
  · split_ifs at hph
  · cases hph
  · assumption
  · cases hph

/-- A frame that is owed nothing, and calls nobody, has no live child. -/
theorem no_children (hl : ∀ c, t.loc ≠ .calling c) (howed : t.owed = ∅) (c : ℕ)
    (ht : T.tag c ≠ .root) (hp : T.parent c = p) : st c ≠ .alive := by
  intro hst
  cases htag : T.tag c with
  | root => exact ht htag
  | call => exact hl c ((h.calling c).mpr ⟨htag, hp, hst⟩)
  | fork =>
      have hmem := (h.owed c).mpr ⟨htag, hp, hst⟩
      rw [howed] at hmem
      exact absurd hmem (Finset.notMem_empty c)

/-- The join loses the race. -/
theorem lose (hl : t.loc = .run w) (haw : t.awaiting = none)
    (hne : t.frame.loadSteals ≠ kU16Max - t.frame.loadJoins) :
    Accounts T st p { t with
      frame := t.frame.fetchSubJoins (kU16Max - t.frame.loadSteals), loc := .joining } := by
  have hbalance := h.balance
  simp only [Task.phase, hl] at hbalance
  refine ⟨h.owed, h.paid, ?_, h.scope, ?_, hbalance.lose hne, ?_, ?_, ?_⟩
  · intro c
    rw [← h.calling c, hl]
    simp
  · intro hended
    cases hended
  · intro k hk
    cases haw.symm.trans hk
  · rintro (⟨w, hw⟩ | ⟨w, hw⟩) <;> cases hw
  · intro w' hw
    cases hw

end Accounts

/-- The counters after a join. -/
theorem Balance.reset (f : Frame) : Balance .plain f.reset 0 0 0 where
  children := rfl
  steals := rfl
  joins := rfl
  joining h := by cases h
  few := by simp

/-- A join is left, with every child finished. -/
theorem accounts_leave (haw : t.awaiting = none)
    (hnone : ∀ c, T.tag c ≠ .root → T.parent c = p → st c ≠ .alive) {f : Frame}
    (hf : Balance .plain f 0 0 0) :
    Accounts T st p { t.leave with frame := f, loc := .run w } := by
  refine ⟨?_, ?_, ?_, fun _ => ⟨rfl, rfl⟩, fun _ => rfl, hf, ?_, ?_, ?_⟩
  · intro c
    refine iff_of_false (Finset.notMem_empty c) ?_
    rintro ⟨ht, hp, hst⟩
    exact hnone c (by simp [ht]) hp hst
  · intro c hc
    exact absurd hc (Finset.notMem_empty c)
  · intro c
    refine iff_of_false (by simp) ?_
    rintro ⟨ht, hp, hst⟩
    exact hnone c (by simp [ht]) hp hst
  · intro k hk
    cases haw.symm.trans hk
  · rintro (⟨w, hw⟩ | ⟨w, hw⟩) <;> cases hw
  · intro w' hw
    cases hw

end Libfork.Runtime
