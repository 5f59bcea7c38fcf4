import Libfork.Join.Invariant

/-!
# Every step keeps the counters right

Source: `frame.hpp`; `awaitables.hpp`, `join_awaitable`; `promise.hpp`, `final_await_suspend`;
`resume.hpp`.
-/

namespace Libfork.Join

open Libfork.Found

variable {ε : Type} {s s' : State ε}

/-! ## Steps that do not touch the counters -/

/-- A step that neither moves the continuation nor starts, ends or counts a child. -/
theorem Counts.frame (h : Counts s) (hphase : s'.parent.phase = s.parent.phase)
    (hruns : s'.parent.runs = s.parent.runs)
    (hcode : ∀ c, s.parent.runs = some c → (s.child c).inCode = true → (s'.child c).inCode = true)
    (hlive : ∀ c, (s'.child c).live = (s.child c).live)
    (hwon : ∀ c, s'.child c = .won ↔ s.child c = .won)
    (hjoin : s'.frame.mJoin = s.frame.mJoin) (hsteal : s'.frame.mSteal = s.frame.mSteal)
    (htally : tally s'.now = tally s.now) : Counts s' := by
  have hout : ∀ c, s'.Outstanding c ↔ s.Outstanding c := by
    intro c
    unfold State.Outstanding
    rw [hlive, hruns]
  have hsteals : steals s'.now = steals s.now := by
    rw [← steals_tally, htally, steals_tally]
  have hdecs : decrements s'.now = decrements s.now := by
    rw [← decrements_tally, htally, decrements_tally]
  have hresumes : resumes s'.now = resumes s.now := by
    rw [← resumes_tally, htally, resumes_tally]
  have hmem : ∀ e : Event ε, e.counted = true → (e ∈ s'.now ↔ e ∈ s.now) := by
    intro e he
    rw [← mem_tally he, htally, mem_tally he]
  obtain ⟨out, hnodup, hiff, hlen, hcounters⟩ := h.out
  refine ⟨?_, ?_, ⟨out, hnodup, ?_, ?_, ?_⟩, ?_, ?_, ?_, ?_⟩
  · intro c hc
    rw [hruns] at hc
    exact hcode c hc (h.runs_code c hc)
  · rw [hsteals]
    exact h.bound
  · intro c
    rw [hout]
    exact hiff c
  · rw [hsteals, hdecs]
    exact hlen
  · rw [hphase, hsteals, hdecs]
    cases hp : s.parent.phase <;> rw [hp] at hcounters <;>
      simp only [Phase.Counters, hjoin, hsteal] at hcounters ⊢ <;> exact hcounters
  · intro c hc
    rw [hout]
    rcases h.stolen c ((hmem _ rfl).mp hc) with ho | ⟨old, hold⟩
    · exact Or.inl ho
    · exact Or.inr ⟨old, (hmem _ rfl).mpr hold⟩
  · intro c hc
    obtain ⟨h₁, h₂, h₃, h₄⟩ := h.winner c ((hwon c).mp hc)
    refine ⟨hphase.trans h₁, hjoin.trans h₂, (hmem _ rfl).mpr h₃, ?_⟩
    intro c' hc'
    exact h₄ c' ((hwon c').mp hc')
  · intro hs
    rw [hphase] at hs
    obtain ⟨h₁, h₂⟩ := h.waiting hs
    refine ⟨(hmem _ rfl).mpr h₁, fun hz => ?_⟩
    rw [hjoin] at hz
    obtain ⟨c, hc⟩ := h₂ hz
    exact ⟨c, (hwon c).mpr hc⟩
  · rw [hresumes, hphase]
    exact h.resumed

/-- A live child goes on, without touching the counters. -/
theorem live_goto {c : ℕ} {pc : ChildPc ε} (hpc : pc.live = (s.child c).live) (c' : ℕ) :
    ((s.goto c pc).child c').live = (s.child c').live := by
  unfold State.goto
  by_cases hc : c' = c
  · subst hc
    simp only [Function.update_self]
    exact hpc
  · simp only [Function.update_of_ne hc]

/-- A child that goes on to or from no victory changes nobody's. -/
theorem won_goto {c : ℕ} {pc : ChildPc ε} (hpc : pc ≠ .won) (hc : s.child c ≠ .won) (c' : ℕ) :
    (s.goto c pc).child c' = .won ↔ s.child c' = .won := by
  unfold State.goto
  by_cases hcc : c' = c
  · subst hcc
    simp only [Function.update_self]
    exact iff_of_false hpc hc
  · simp only [Function.update_of_ne hcc]

/-! ## No outstanding child -/

/-- With no outstanding child, every steal has been followed by its decrement. -/
theorem Counts.all_decremented (h : Counts s) (hnone : ∀ c, ¬ s.Outstanding c) (c : ℕ)
    (hc : .steal c ∈ s.now) : ∃ old, .decrement c old ∈ s.now :=
  (h.stolen c hc).resolve_left (hnone c)

/-- As many decrements as steals leave no child outstanding. -/
theorem Counts.none_outstanding (h : Counts s) (heq : decrements s.now = steals s.now) (c : ℕ) :
    ¬ s.Outstanding c := by
  obtain ⟨out, -, hiff, hlen, -⟩ := h.out
  have hnil : out = [] := List.length_eq_zero_iff.mp (by omega)
  rw [← hiff c, hnil]
  exact List.not_mem_nil

/-- A child is outstanding only while it has not been counted as joined. -/
theorem Counts.decrements_lt (h : Counts s) {c : ℕ} (hc : s.Outstanding c) :
    decrements s.now < steals s.now := by
  obtain ⟨out, -, hiff, hlen, -⟩ := h.out
  have hpos := List.length_pos_of_mem ((hiff c).mpr hc)
  omega

/-! ## Steps that do -/

/-- The code after the join starts, with no child outstanding. -/
theorem counts_resume (h : Counts s) (hnone : ∀ c, ¬ s.Outstanding c)
    (hphase : s.parent.phase ≠ .after) (hruns : s.parent.runs = none)
    (hparent : s'.parent = .resumed) (hchild : ∀ c, (s'.child c).live = (s.child c).live)
    (hwon : ∀ c, s'.child c ≠ .won) (hsteal : s'.frame.mSteal = 0)
    (hjoin : s'.frame.mJoin = kU16Max) {r : Resumer} {x y : BitVec 16} {pre : List (Event ε)}
    (hpre : tally pre = tally s.now ∨ tally pre = tally (s.now ++ [.subtract]))
    (hnow : s'.now = pre ++ [.resume r x y]) : Counts s' := by
  have hsteals : steals s'.now = steals s.now := by
    rw [hnow, steals_snoc_of_not _ rfl, ← steals_tally pre]
    rcases hpre with hpre | hpre <;> rw [hpre, steals_tally]
    exact steals_snoc_of_not _ rfl
  have hdecs : decrements s'.now = decrements s.now := by
    rw [hnow, decrements_snoc_of_not _ rfl, ← decrements_tally pre]
    rcases hpre with hpre | hpre <;> rw [hpre, decrements_tally]
    exact decrements_snoc_of_not _ rfl
  have hresumes : resumes s'.now = 1 := by
    have h0 := h.resumed
    rw [if_neg hphase] at h0
    rw [hnow, resumes_snoc, ← resumes_tally pre]
    rcases hpre with hpre | hpre <;> rw [hpre, resumes_tally]
    · rw [h0]
      rfl
    · rw [resumes_snoc, h0]
      rfl
  have hmem : ∀ e : Event ε, e.counted = true → e ∈ s.now → e ∈ s'.now := by
    intro e he hmem
    rw [hnow]
    refine List.mem_append_left _ ?_
    rw [← mem_tally he] at hmem ⊢
    rcases hpre with hpre | hpre
    · rwa [hpre]
    · rw [hpre, mem_tally he]
      exact List.mem_append_left _ ((mem_tally he).mp hmem)
  have hsteal_mem : ∀ c, .steal c ∈ s'.now → .steal c ∈ s.now := by
    intro c hc
    rw [hnow] at hc
    simp only [List.mem_append, List.mem_singleton, reduceCtorEq, or_false] at hc
    rw [← mem_tally (e := .steal c) rfl] at hc
    rcases hpre with hpre | hpre
    · rw [hpre, mem_tally rfl] at hc
      exact hc
    · rw [hpre, mem_tally rfl] at hc
      simpa using hc
  have hnone' : ∀ c, ¬ s'.Outstanding c := by
    rintro c ⟨hlive, -⟩
    rw [hchild] at hlive
    exact hnone c ⟨hlive, by rw [hruns]; nofun⟩
  obtain ⟨out, hnodup, hiff, hlen, -⟩ := h.out
  have hnil : out = [] := List.eq_nil_iff_forall_not_mem.mpr fun c hc => hnone c ((hiff c).mp hc)
  subst hnil
  refine ⟨?_, ?_, ⟨[], hnodup, ?_, ?_, ?_⟩, ?_, ?_, ?_, ?_⟩
  · rw [hparent]
    nofun
  · rw [hsteals]
    exact h.bound
  · intro c
    exact iff_of_false List.not_mem_nil (hnone' c)
  · rw [hsteals, hdecs]
    exact hlen
  · rw [hparent]
    exact ⟨hsteal, hjoin, rfl⟩
  · intro c hc
    obtain ⟨old, hold⟩ := h.all_decremented hnone c (hsteal_mem c hc)
    exact Or.inr ⟨old, hmem _ rfl hold⟩
  · intro c hc
    exact absurd hc (hwon c)
  · rw [hparent]
    nofun
  · rw [hresumes, hparent]
    rfl

/-- A child starts in place of the frame's code. -/
theorem counts_start (h : Counts s) {c : ℕ} (hrun : s.parent = .running)
    (habsent : s.child c = .absent) {pc : ParentPc ε} (hruns : pc.runs = some c)
    (hphase : pc.phase = .scope) : Counts { s.goto c .working with parent := pc } := by
  set s' : State ε := { s.goto c .working with parent := pc } with hs'
  have hself : s'.child c = .working := Function.update_self _ _ _
  have hother : ∀ c', c' ≠ c → s'.child c' = s.child c' := fun c' hc' =>
    Function.update_of_ne hc' _ _
  have hout : ∀ c', s'.Outstanding c' ↔ s.Outstanding c' := by
    intro c'
    by_cases hc' : c' = c
    · subst hc'
      refine iff_of_false (fun ho => ho.2 hruns) fun ho => ?_
      have := ho.1
      rw [habsent] at this
      cases this
    · unfold State.Outstanding
      rw [hother c' hc', hrun]
      refine and_congr_right fun _ => iff_of_true ?_ nofun
      show pc.runs ≠ some c'
      rw [hruns]
      exact fun he => hc' (Option.some.inj he).symm
  obtain ⟨out, hnodup, hiff, hlen, hcounters⟩ := h.out
  rw [hrun] at hcounters
  refine ⟨?_, h.bound, ⟨out, hnodup, ?_, hlen, ?_⟩, ?_, ?_, ?_, ?_⟩
  · intro c' hc'
    have hcc : c' = c := Option.some.inj (hc'.symm.trans hruns)
    rw [hcc, hself]
    rfl
  · intro c'
    rw [hout]
    exact hiff c'
  · show pc.phase.Counters s.frame _ _ _
    rw [hphase]
    exact hcounters
  · intro c' hc'
    rw [hout]
    exact h.stolen c' hc'
  · intro c' hc'
    by_cases hcc : c' = c
    · rw [hcc, hself] at hc'
      cases hc'
    · rw [hother c' hcc] at hc'
      have hsusp := (h.winner c' hc').1
      rw [hrun] at hsusp
      cases hsusp
  · show pc.phase = .suspended → _
    rw [hphase]
    nofun
  · have hres := h.resumed
    rw [hrun] at hres
    show resumes s.now = if pc.phase = .after then 1 else 0
    rw [hphase]
    exact hres

/-- A thief takes the continuation; the child under it becomes outstanding. -/
theorem counts_steal (h : Counts s) {c : ℕ} (hfork : s.parent = .forked c)
    (hbound : steals s.now < 65534) :
    Counts { s.logged (.steal c) with parent := .stolen } := by
  set s' : State ε := { s.logged (.steal c) with parent := .stolen } with hs'
  have hlive : (s.child c).live = true :=
    ChildPc.live_of_inCode (h.runs_code c (by rw [hfork]; rfl))
  have hfresh : ¬ s.Outstanding c := fun ho => ho.2 (by rw [hfork]; rfl)
  have hout : ∀ c', s'.Outstanding c' ↔ c' = c ∨ s.Outstanding c' := by
    intro c'
    constructor
    · rintro ⟨hl, -⟩
      by_cases hc' : c' = c
      · exact Or.inl hc'
      · refine Or.inr ⟨hl, ?_⟩
        rw [hfork]
        exact fun he => hc' (Option.some.inj he).symm
    · rintro (rfl | ho)
      · exact ⟨hlive, nofun⟩
      · exact ⟨ho.1, nofun⟩
  have hmem : ∀ c', Event.steal c' ∈ s'.now → c' = c ∨ .steal c' ∈ s.now := by
    intro c' hc'
    rcases List.mem_append.mp hc' with hc' | hc'
    · exact Or.inr hc'
    · exact Or.inl (Event.steal.inj (List.mem_singleton.mp hc'))
  have hsteals : steals s'.now = steals s.now + 1 := steals_snoc _ _
  have hdecs : decrements s'.now = decrements s.now := decrements_snoc_of_not _ rfl
  obtain ⟨out, hnodup, hiff, hlen, hcounters⟩ := h.out
  rw [hfork] at hcounters
  obtain ⟨hst, hjn⟩ := hcounters
  refine ⟨nofun, by omega, ⟨c :: out, ?_, ?_, ?_, ?_⟩, ?_, ?_, nofun, ?_⟩
  · exact List.nodup_cons.mpr ⟨fun hc => hfresh ((hiff c).mp hc), hnodup⟩
  · intro c'
    rw [hout, List.mem_cons, hiff]
  · rw [hsteals, hdecs, List.length_cons]
    omega
  · rw [hsteals, hdecs]
    exact ⟨by show s.frame.mSteal.toNat + 1 = _; omega, hjn⟩
  · intro c' hc'
    rw [hout]
    rcases hmem c' hc' with rfl | hc'
    · exact Or.inl (Or.inl rfl)
    · rcases h.stolen c' hc' with ho | ⟨old, hold⟩
      · exact Or.inl (Or.inr ho)
      · exact Or.inr ⟨old, List.mem_append_left _ hold⟩
  · intro c' hc'
    have hsusp := (h.winner c' hc').1
    rw [hfork] at hsusp
    cases hsusp
  · have hres := h.resumed
    rw [hfork] at hres
    show resumes (s.now ++ [.steal c]) = 0
    rw [resumes_snoc]
    exact hres

/-- The thief counts its steal and resumes the frame's code. -/
theorem counts_fetchAddSteal (h : Counts s) (hstolen : s.parent = .stolen) :
    Counts { s with frame := s.frame.fetchAddSteal, parent := .running } := by
  obtain ⟨out, hnodup, hiff, hlen, hcounters⟩ := h.out
  have hbound := h.bound
  rw [hstolen] at hcounters
  obtain ⟨hst, hjn⟩ := hcounters
  refine ⟨nofun, h.bound, ⟨out, hnodup, ?_, hlen, ?_, hjn⟩, ?_, ?_, nofun, ?_⟩
  · intro c
    rw [hiff]
    refine and_congr_right fun _ => iff_of_true ?_ nofun
    rw [hstolen]
    nofun
  · show (s.frame.mSteal + 1).toNat = _
    rw [BitVec.toNat_add]
    simp only [BitVec.ofNat_eq_ofNat, BitVec.toNat_ofNat]
    omega
  · intro c hc
    rcases h.stolen c hc with ho | hd
    · exact Or.inl ⟨ho.1, nofun⟩
    · exact Or.inr hd
  · intro c hc
    have hsusp := (h.winner c hc).1
    rw [hstolen] at hsusp
    cases hsusp
  · have hres := h.resumed
    rw [hstolen] at hres
    exact hres

/-- The parent subtracts before all children have decremented, and waits. -/
theorem counts_suspend (h : Counts s) (hsub : s.parent = .joinSub)
    (hlost : s.frame.mSteal ≠ kU16Max - s.frame.mJoin) :
    Counts { s.logged .subtract with
      frame := s.frame.fetchSubJoins (kU16Max - s.frame.mSteal), parent := .suspended } := by
  obtain ⟨out, hnodup, hiff, hlen, hcounters⟩ := h.out
  have hbound := h.bound
  rw [hsub] at hcounters
  obtain ⟨hst, hjn⟩ := hcounters
  have hmax : kU16Max.toNat = 65535 := rfl
  have hj := s.frame.mJoin.isLt
  have hs := s.frame.mSteal.isLt
  have hnz : out.length ≠ 0 := by
    intro hz
    apply hlost
    apply BitVec.eq_of_toNat_eq
    rw [BitVec.toNat_sub, hmax]
    omega
  have hnew : (s.frame.mJoin - (kU16Max - s.frame.mSteal)).toNat = out.length := by
    rw [BitVec.toNat_sub, BitVec.toNat_sub, hmax]
    omega
  refine ⟨nofun, ?_, ⟨out, hnodup, ?_, ?_, hnew⟩, ?_, ?_, ?_, ?_⟩
  · show steals (s.now ++ [.subtract]) ≤ 65534
    rw [steals_snoc_of_not _ rfl]
    exact hbound
  · intro c
    rw [hiff]
    refine and_congr_right fun _ => iff_of_true ?_ nofun
    rw [hsub]
    nofun
  · show out.length + decrements (s.now ++ [.subtract]) = steals (s.now ++ [.subtract])
    rw [decrements_snoc_of_not _ rfl, steals_snoc_of_not _ rfl]
    exact hlen
  · intro c hc
    have hc' : .steal c ∈ s.now := by simpa [State.logged] using hc
    rcases h.stolen c hc' with ho | ⟨old, hold⟩
    · exact Or.inl ⟨ho.1, nofun⟩
    · exact Or.inr ⟨old, List.mem_append_left _ hold⟩
  · intro c hc
    have hsusp := (h.winner c hc).1
    rw [hsub] at hsusp
    cases hsusp
  · intro _
    refine ⟨List.mem_append_right _ (List.mem_singleton_self _), fun hz => ?_⟩
    have : (s.frame.mJoin - (kU16Max - s.frame.mSteal)).toNat = 0 := congrArg BitVec.toNat hz
    omega
  · have hres := h.resumed
    rw [hsub] at hres
    show resumes (s.now ++ [.subtract]) = 0
    rw [resumes_snoc]
    exact hres

/-- The join is left with the counters of a new frame. -/
theorem counts_leave (h : Counts s) (hafter : s.parent.phase = .after)
    (hruns : s.parent.runs = none) : Counts s.leave := by
  obtain ⟨out, hnodup, hiff, hlen, hcounters⟩ := h.out
  rw [hafter] at hcounters
  obtain ⟨hst, hjn, hnil⟩ := hcounters
  refine ⟨nofun, Nat.zero_le _, ⟨out, hnodup, ?_, hnil, ?_, ?_⟩, nofun, ?_, nofun, rfl⟩
  · intro c
    rw [hiff]
    refine and_congr_right fun _ => iff_of_true ?_ nofun
    rw [hruns]
    nofun
  · exact congrArg BitVec.toNat hst
  · exact congrArg BitVec.toNat hjn
  · intro c hc
    have hsusp := (h.winner c hc).1
    rw [hafter] at hsusp
    cases hsusp

/-- A child reaches its final suspend point. -/
theorem counts_finish (h : Counts s) {c : ℕ} (hc : s.child c = .working) :
    Counts (finish s c) := by
  unfold finish
  split
  · -- the continuation was not stolen: the child's worker goes on with it
    rename_i hruns
    have hphase := ParentPc.phase_of_runs hruns
    set s' : State ε := { s.goto c .done with parent := .running } with hs'
    have hself : s'.child c = .done := Function.update_self _ _ _
    have hother : ∀ c', c' ≠ c → s'.child c' = s.child c' := fun c' hc' =>
      Function.update_of_ne hc' _ _
    have hout : ∀ c', s'.Outstanding c' ↔ s.Outstanding c' := by
      intro c'
      by_cases hc' : c' = c
      · subst hc'
        refine iff_of_false (fun ho => ?_) fun ho => ho.2 hruns
        have := ho.1
        rw [hself] at this
        cases this
      · unfold State.Outstanding
        rw [hother c' hc', hruns]
        exact and_congr_right fun _ => iff_of_true nofun fun he => hc' (Option.some.inj he).symm
    obtain ⟨out, hnodup, hiff, hlen, hcounters⟩ := h.out
    rw [hphase] at hcounters
    refine ⟨nofun, h.bound, ⟨out, hnodup, ?_, hlen, hcounters⟩, ?_, ?_, nofun, ?_⟩
    · intro c'
      rw [hout]
      exact hiff c'
    · intro c' hc'
      rw [hout]
      exact h.stolen c' hc'
    · intro c' hc'
      have hne : c' ≠ c := by
        rintro rfl
        rw [hself] at hc'
        cases hc'
      rw [hother c' hne] at hc'
      have hsusp := (h.winner c' hc').1
      rw [hphase] at hsusp
      cases hsusp
    · have hres := h.resumed
      rw [hphase] at hres
      exact hres
  · rename_i hruns
    refine h.frame rfl rfl ?_ (live_goto (by rw [hc]; rfl)) (won_goto nofun ?_) rfl rfl rfl
    · intro c' hc' hcode
      have hne : c' ≠ c := fun he => hruns (he ▸ hc')
      show (Function.update s.child c _ c').inCode = true
      rw [Function.update_of_ne hne]
      exact hcode
    · rw [hc]
      nofun

/-- A stolen child decrements; it is the last one exactly when the parent waits and no other child
is outstanding. -/
theorem counts_sub (h : Counts s) {c : ℕ} (hc : s.child c = .sub) :
    Counts (({ s with frame := s.frame.fetchSubJoins 1 }.logged
      (.decrement c s.frame.mJoin)).goto c (if s.frame.mJoin = 1 then .won else .done)) := by
  set pc : ChildPc ε := if s.frame.mJoin = 1 then .won else .done with hpc
  set s' : State ε := ({ s with frame := s.frame.fetchSubJoins 1 }.logged
    (.decrement c s.frame.mJoin)).goto c pc with hs'
  have hself : s'.child c = pc := Function.update_self _ _ _
  have hother : ∀ c', c' ≠ c → s'.child c' = s.child c' := fun c' hc' =>
    Function.update_of_ne hc' _ _
  have hdead : pc.live = false ∧ pc.inCode = false := by
    rw [hpc]
    split <;> exact ⟨rfl, rfl⟩
  have hcout : s.Outstanding c := by
    refine ⟨by rw [hc]; rfl, fun hruns => ?_⟩
    have := h.runs_code c hruns
    rw [hc] at this
    cases this
  have hout : ∀ c', s'.Outstanding c' ↔ c' ≠ c ∧ s.Outstanding c' := by
    intro c'
    by_cases hc' : c' = c
    · subst hc'
      refine iff_of_false (fun ho => ?_) fun ho => ho.1 rfl
      have := ho.1
      rw [hself, hdead.1] at this
      cases this
    · unfold State.Outstanding
      rw [hother c' hc']
      exact (and_iff_right hc').symm
  have hlt := h.decrements_lt hcout
  have hbound := h.bound
  have hj := s.frame.mJoin.isLt
  have hmem : ∀ {e : Event ε}, e ∈ s.now → e ∈ s'.now := fun he => List.mem_append_left _ he
  have hsteals : steals s'.now = steals s.now := steals_snoc_of_not _ rfl
  have hdecs : decrements s'.now = decrements s.now + 1 := decrements_snoc _ _
  obtain ⟨out, hnodup, hiff, hlen, hcounters⟩ := h.out
  have hcmem : c ∈ out := (hiff c).mpr hcout
  have hpos : 0 < out.length := List.length_pos_of_mem hcmem
  have herase : (out.erase c).length = out.length - 1 := List.length_erase_of_mem hcmem
  have hsub : 0 < s.frame.mJoin.toNat →
      (s.frame.mJoin - 1).toNat = s.frame.mJoin.toNat - 1 := by
    intro hz
    rw [BitVec.toNat_sub]
    simp only [BitVec.ofNat_eq_ofNat, BitVec.toNat_ofNat]
    omega
  have hone : s.frame.mJoin = 1 ↔ s.frame.mJoin.toNat = 1 :=
    ⟨fun he => by rw [he]; rfl, fun he => BitVec.eq_of_toNat_eq he⟩
  have hnowon : ∀ c', s.child c' ≠ .won := by
    intro c' hc'
    obtain ⟨hsusp, hz, -⟩ := h.winner c' hc'
    rw [hsusp] at hcounters
    have hcounters' : s.frame.mJoin.toNat = out.length := hcounters
    rw [hz] at hcounters'
    have : out.length = 0 := hcounters'.symm
    omega
  have hwon : ∀ c', s'.child c' = .won → c' = c ∧ s.frame.mJoin = 1 := by
    intro c' hc'
    by_cases hcc : c' = c
    · refine ⟨hcc, ?_⟩
      rw [hcc, hself, hpc] at hc'
      by_contra hne
      rw [if_neg hne] at hc'
      cases hc'
    · rw [hother c' hcc] at hc'
      exact absurd hc' (hnowon c')
  refine ⟨?_, by omega, ⟨out.erase c, hnodup.erase c, ?_, by omega, ?_⟩, ?_, ?_, ?_, ?_⟩
  · intro c' hc'
    have hne : c' ≠ c := by
      rintro rfl
      exact hcout.2 hc'
    rw [hother c' hne]
    exact h.runs_code c' hc'
  · intro c'
    rw [hout, hnodup.mem_erase_iff, hiff]
  · rw [hsteals, hdecs, herase]
    show s.parent.phase.Counters (s.frame.fetchSubJoins 1) _ _ _
    cases hp : s.parent.phase <;> rw [hp] at hcounters
    · obtain ⟨hst, hjn⟩ := hcounters
      refine ⟨hst, ?_⟩
      show (s.frame.mJoin - 1).toNat + _ = _
      rw [hsub (by omega)]
      omega
    · obtain ⟨hst, hjn⟩ := hcounters
      refine ⟨hst, ?_⟩
      show (s.frame.mJoin - 1).toNat + _ = _
      rw [hsub (by omega)]
      omega
    · have hcounters' : s.frame.mJoin.toNat = out.length := hcounters
      show (s.frame.mJoin - 1).toNat = _
      rw [hsub (by omega), hcounters']
    · have := hcounters.2.2
      omega
  · intro c' hc'
    have hc' : .steal c' ∈ s.now := by
      rcases List.mem_append.mp hc' with hc' | hc'
      · exact hc'
      · cases List.mem_singleton.mp hc'
    rw [hout]
    by_cases hcc : c' = c
    · subst hcc
      exact Or.inr ⟨_, List.mem_append_right _ (List.mem_singleton_self _)⟩
    · rcases h.stolen c' hc' with ho | ⟨old, hold⟩
      · exact Or.inl ⟨hcc, ho⟩
      · exact Or.inr ⟨old, hmem hold⟩
  · intro c' hc'
    obtain ⟨rfl, hj1⟩ := hwon c' hc'
    refine ⟨?_, ?_, ?_, fun c'' hc'' => (hwon c'' hc'').1⟩
    · show s.parent.phase = .suspended
      cases hp : s.parent.phase <;> rw [hp] at hcounters
      · have := hcounters.2
        rw [hone.mp hj1] at this
        omega
      · have := hcounters.2
        rw [hone.mp hj1] at this
        omega
      · have := hcounters.2.2
        omega
    · show s.frame.mJoin - 1 = 0
      rw [hj1]
      rfl
    · refine List.mem_append_right _ (List.mem_singleton.mpr ?_)
      rw [hj1]
  · intro hsusp
    have hsusp : s.parent.phase = .suspended := hsusp
    rw [hsusp] at hcounters
    have hcounters' : s.frame.mJoin.toNat = out.length := hcounters
    refine ⟨hmem (h.waiting hsusp).1, fun hz => ⟨c, ?_⟩⟩
    have hz' : (s.frame.mJoin - 1).toNat = 0 := congrArg BitVec.toNat hz
    rw [hsub (by omega)] at hz'
    rw [hself, hpc, if_pos (hone.mpr (by omega))]
  · have hres := h.resumed
    show resumes (s.now ++ [_]) = _
    rw [resumes_snoc]
    exact hres

/-! ## The ways to the code after the join -/

/-- Only a suspended parent has a child that has won the race. -/
theorem Counts.no_winner (h : Counts s) (hphase : s.parent.phase ≠ .suspended) (c : ℕ) :
    s.child c ≠ .won := fun hc => hphase (h.winner c hc).1

/-- No steals have been counted: no child is outstanding, and the counters are those of a new
frame. -/
theorem Counts.shortcut (h : Counts s) (hrun : s.parent = .running) (hz : s.frame.mSteal = 0) :
    steals s.now = 0 ∧ (∀ c, ¬ s.Outstanding c) ∧ s.frame.mJoin = kU16Max := by
  obtain ⟨out, -, -, hlen, hcounters⟩ := h.out
  rw [hrun] at hcounters
  obtain ⟨hst, hjn⟩ := hcounters
  have hst : s.frame.mSteal.toNat = steals s.now := hst
  rw [hz] at hst
  have hsteals : steals s.now = 0 := hst.symm
  refine ⟨hsteals, h.none_outstanding (by omega), ?_⟩
  apply BitVec.eq_of_toNat_eq
  show s.frame.mJoin.toNat = 65535
  omega

/-- The parent finds as many decrements as steals. -/
theorem Counts.all_joined (h : Counts s) (hphase : s.parent.phase = .scope)
    (heq : s.frame.mSteal = kU16Max - s.frame.mJoin) : ∀ c, ¬ s.Outstanding c := by
  obtain ⟨out, -, -, hlen, hcounters⟩ := h.out
  rw [hphase] at hcounters
  obtain ⟨hst, hjn⟩ := hcounters
  have hmax : kU16Max.toNat = 65535 := rfl
  have hj := s.frame.mJoin.isLt
  have hval := congrArg BitVec.toNat heq
  rw [BitVec.toNat_sub, hmax] at hval
  exact h.none_outstanding (by omega)

/-- The child that resumes the parent is the last one. -/
theorem Counts.last_joined (h : Counts s) {c : ℕ} (hc : s.child c = .won) :
    ∀ c', ¬ s.Outstanding c' := by
  obtain ⟨hsusp, hz, -⟩ := h.winner c hc
  obtain ⟨out, -, hiff, -, hcounters⟩ := h.out
  rw [hsusp] at hcounters
  have hcounters : s.frame.mJoin.toNat = out.length := hcounters
  rw [hz] at hcounters
  have hnil : out = [] := List.length_eq_zero_iff.mp hcounters.symm
  intro c' hc'
  rw [← hiff c', hnil] at hc'
  exact List.not_mem_nil hc'

/-! ## The step lemma -/

/-- A new frame counts nothing. -/
theorem counts_new : Counts (State.new : State ε) := by
  refine ⟨nofun, Nat.zero_le _, ⟨[], List.nodup_nil, ?_, rfl, rfl, rfl⟩, nofun, nofun, nofun, rfl⟩
  intro c
  exact iff_of_false List.not_mem_nil nofun

/-- A join keeps the counters right. -/
theorem counts_join (h : Counts s) (hrun : s.parent = .running) : Counts (joinCall s) := by
  unfold joinCall
  split
  · rename_i hz
    obtain ⟨-, hnone, hjoin⟩ := h.shortcut hrun hz
    refine counts_resume h hnone (by rw [hrun]; nofun) (by rw [hrun]; rfl) rfl (fun _ => rfl)
      (h.no_winner (by rw [hrun]; nofun)) hz hjoin (Or.inl ?_) rfl
    exact tally_snoc_of_not_counted _ _ rfl
  · apply h.frame
    · rw [hrun]
      rfl
    · rw [hrun]
      rfl
    · exact fun _ _ hcode => hcode
    · exact fun _ => rfl
    · exact fun _ => Iff.rfl
    · rfl
    · rfl
    · rfl

/-- A step of the frame's own code that the counters have nothing to do with. -/
theorem counts_silent (h : Counts s) (hphase : s'.parent.phase = s.parent.phase)
    (hruns : s'.parent.runs = s.parent.runs) (hchild : s'.child = s.child)
    (hjoin : s'.frame.mJoin = s.frame.mJoin) (hsteal : s'.frame.mSteal = s.frame.mSteal)
    (htally : tally s'.now = tally s.now) : Counts s' := by
  apply h.frame hphase hruns _ _ _ hjoin hsteal htally
  · intro c _ hcode
    rwa [hchild]
  · intro c
    rw [hchild]
  · intro c
    rw [hchild]

/-- So does every access of the parent. -/
theorem counts_parent (h : Counts s) (hstep : parentStep s = some s') : Counts s' := by
  unfold parentStep at hstep
  split at hstep
  case h_1 | h_2 | h_3 | h_4 => cases hstep
  case h_5 e hp =>
    cases hstep
    apply counts_silent h
    · rw [hp]
      show ParentPc.phase (if _ then _ else _) = _
      split <;> rfl
    · rw [hp]
      show ParentPc.runs (if _ then _ else _) = _
      split <;> rfl
    · rfl
    · rfl
    · rfl
    · exact tally_snoc_of_not_counted _ _ rfl
  case h_6 e hp =>
    cases hstep
    exact counts_silent h (by rw [hp]; rfl) (by rw [hp]; rfl) rfl rfl rfl rfl
  case h_7 hp =>
    cases hstep
    exact counts_fetchAddSteal h hp
  case h_8 hp =>
    dsimp only at hstep
    split at hstep
    · rename_i heq
      cases hstep
      exact counts_resume h (h.all_joined (by rw [hp]; rfl) heq) (by rw [hp]; nofun)
        (by rw [hp]; rfl) rfl (fun _ => rfl) (h.no_winner (by rw [hp]; nofun)) rfl rfl
        (Or.inl rfl) rfl
    · cases hstep
      exact counts_silent h (by rw [hp]; rfl) (by rw [hp]; rfl) rfl rfl rfl rfl
  case h_9 hp =>
    dsimp only at hstep
    split at hstep
    · rename_i heq
      cases hstep
      exact counts_resume h (h.all_joined (by rw [hp]; rfl) heq) (by rw [hp]; nofun)
        (by rw [hp]; rfl) rfl (fun _ => rfl) (h.no_winner (by rw [hp]; nofun)) rfl rfl
        (Or.inr rfl) rfl
    · rename_i hlost
      cases hstep
      exact counts_suspend h hp hlost
  case h_10 hp =>
    dsimp only at hstep
    split at hstep
    · cases hstep
      exact counts_silent h (by rw [hp]; rfl) (by rw [hp]; rfl) rfl rfl rfl rfl
    · cases hstep
      refine counts_leave ?_ (by rw [State.logged, hp]; rfl) (by rw [State.logged, hp]; rfl)
      exact counts_silent h rfl rfl rfl rfl rfl (tally_snoc_of_not_counted _ _ rfl)
  case h_11 hp =>
    dsimp only at hstep
    split at hstep <;> cases hstep <;>
      exact counts_silent h (by rw [hp]; rfl) (by rw [hp]; rfl) rfl rfl rfl
        (tally_snoc_of_not_counted _ _ rfl)
  case h_12 hp =>
    cases hstep
    refine counts_leave ?_ (by rw [hp]; rfl) (by rw [hp]; rfl)
    exact counts_silent h rfl rfl rfl rfl rfl rfl

/-- A child goes on in its own code. -/
theorem counts_child_code (h : Counts s) {c : ℕ} (pc : ChildPc ε) (hpc : pc.inCode = true)
    (hc : (s.child c).inCode = true) (hparent : s'.parent = s.parent)
    (hchild : s'.child = Function.update s.child c pc) (hjoin : s'.frame.mJoin = s.frame.mJoin)
    (hsteal : s'.frame.mSteal = s.frame.mSteal) (htally : tally s'.now = tally s.now) :
    Counts s' := by
  have hwonpc : pc ≠ .won := by
    rintro rfl
    cases hpc
  have hwonc : s.child c ≠ .won := by
    intro he
    rw [he] at hc
    cases hc
  apply h.frame (by rw [hparent]) (by rw [hparent]) _ _ _ hjoin hsteal htally
  · intro c' _ hcode
    rw [hchild]
    by_cases hcc : c' = c
    · subst hcc
      rw [Function.update_self]
      exact hpc
    · rw [Function.update_of_ne hcc]
      exact hcode
  · intro c'
    rw [hchild]
    refine live_goto ?_ c'
    rw [ChildPc.live_of_inCode hpc, ChildPc.live_of_inCode hc]
  · intro c'
    rw [hchild]
    exact won_goto hwonpc hwonc c'

/-- So does every access of a child. -/
theorem counts_child (h : Counts s) {c : ℕ} (hstep : childStep s c = some s') : Counts s' := by
  unfold childStep at hstep
  split at hstep
  case h_1 | h_2 | h_3 => cases hstep
  case h_4 e hc =>
    cases hstep
    refine counts_child_code h (if s.frame.mExcept then .working else .construct e) ?_
      (by rw [hc]; rfl) rfl rfl rfl rfl (tally_snoc_of_not_counted _ _ rfl)
    split <;> rfl
  case h_5 e hc =>
    cases hstep
    exact counts_child_code h .working rfl (by rw [hc]; rfl) rfl rfl rfl rfl rfl
  case h_6 hc =>
    cases hstep
    exact counts_sub h hc
  case h_7 hc =>
    split at hstep
    · rename_i hp
      cases hstep
      refine counts_resume h (h.last_joined hc) (by rw [hp]; nofun) (by rw [hp]; rfl) rfl
        (live_goto (by rw [hc]; rfl)) ?_ rfl rfl (Or.inl rfl) rfl
      intro c' hc'
      by_cases hcc : c' = c
      · rw [hcc] at hc'
        exact nomatch (Function.update_self _ _ _).symm.trans hc'
      · exact hcc ((h.winner c hc).2.2.2 c' ((Function.update_of_ne hcc _ _).symm.trans hc'))
    · cases hstep

/-- The current scope has at most `n` steals, this one included. -/
def AtMost (n : ℕ) (s : State ε) : Act ε → Prop
  | .steal => steals s.now < n
  | _ => True

instance (n : ℕ) (s : State ε) : ∀ a : Act ε, Decidable (AtMost n s a)
  | .steal => inferInstanceAs (Decidable (_ < _))
  | .fork _ | .call _ | .stash _ | .join | .parent | .capture _ _ | .finish _ | .child _ =>
      isTrue trivial

/-- Fewer steals than `n` are fewer than more. -/
theorem AtMost.mono {n m : ℕ} {a : Act ε} (h : AtMost n s a) (hle : n ≤ m) : AtMost m s a := by
  cases a with
  | steal => exact Nat.lt_of_lt_of_le h hle
  | _ => trivial

/-- **Every step keeps the counters right**, as long as a scope has few steals. -/
theorem counts_step (h : Counts s) {a : Act ε} (hfew : AtMost 65534 s a)
    (hstep : (machine ε).step s a = some s') : Counts s' := by
  cases a with
  | fork c =>
    simp only [machine] at hstep
    split at hstep
    · rename_i hp hc
      cases hstep
      exact counts_start h hp hc rfl rfl
    · cases hstep
  | call c =>
    simp only [machine] at hstep
    split at hstep
    · rename_i hp hc
      cases hstep
      exact counts_start h hp hc rfl rfl
    · cases hstep
  | stash e =>
    simp only [machine] at hstep
    split at hstep
    · rename_i hp
      cases hstep
      exact counts_silent h (by rw [hp]; rfl) (by rw [hp]; rfl) rfl rfl rfl rfl
    · cases hstep
  | join =>
    simp only [machine] at hstep
    split at hstep
    · rename_i hp
      cases hstep
      exact counts_join h hp
    · cases hstep
  | steal =>
    simp only [machine] at hstep
    split at hstep
    · rename_i c hp
      cases hstep
      exact counts_steal h hp hfew
    · cases hstep
  | parent => exact counts_parent h hstep
  | capture c e =>
    simp only [machine] at hstep
    split at hstep
    · rename_i hc
      cases hstep
      exact counts_child_code h (.exchange e) rfl (by rw [hc]; rfl) rfl rfl rfl rfl rfl
    · cases hstep
  | finish c =>
    simp only [machine] at hstep
    split at hstep
    · rename_i hc
      cases hstep
      exact counts_finish h hc
    · cases hstep
  | child c => exact counts_child h hstep

end Libfork.Join
