import Libfork.Dispatch.Model

/-!
# An eager dispatch loses the exception

* `Await.Captured` — the child of an eager dispatch has captured its exception in the frame, and
  the expression that dispatched it goes on.
* `Waiting` — what holds of the expression the code waits in.
* **`silent_of_run`** — along every interleaving, every such expression returns as if the child
  had returned.

`await_transform` checks the frame for the return addresses that stash exceptions, whose children
never capture in it.

Source: `promise.hpp`, `await_transform`; `awaitables.hpp`.
-/

namespace Libfork.Dispatch

open Libfork.Found Libfork.Join

variable {ε : Type} {s s' : State ε}

/-! ## The statement -/

/-- The child of an eager dispatch has captured its exception in the frame, and the expression
goes on right after it. -/
structure Await.Captured (a : Await ε) : Prop where
  eager : a.address.mod ≠ .none
  address : a.address.stash = false
  raised : a.raised ≠ none
  synchronous : a.synchronous = true

/-- The expression throws. -/
def Await.Throws (a : Await ε) : Prop := a.result.thrown = true

/-- **No exception is lost**: an expression throws that has got one, and the coroutine does not
end with one. -/
structure Propagates (s : State ε) : Prop where
  throws : ∀ a ∈ s.awaits, a.Captured → a.Throws
  final : ∀ f, s.final = some f → f.mExcept = false

/-- The expression returns as if the child had returned. -/
structure Await.Silent (a : Await ε) : Prop where
  call : a.address.tag = .call → a.result = .void
  fork : a.address.tag = .fork → a.result = .ready true
  tag : a.address.tag ≠ .root

/-! ## The awaitable -/

/-- The awaitable does not check the frame. -/
def Blind (a : Address) (awaitable : Awaitable) : Prop :=
  (a.tag = .call ∧ awaitable = .call) ∨ (a.tag = .fork ∧ ∃ R n, awaitable = .syncFork false R n)

/-- A return address that does not stash makes an awaitable that does not check. -/
theorem blind_of_awaitTransform {f : Frame ε} {a : Address} {awaitable : Awaitable}
    (h : awaitTransform f a.stash a.tag a.mod = some awaitable) (hstash : a.stash = false)
    (heager : a.mod ≠ .none) : Blind a awaitable := by
  obtain ⟨tag, mod, stash⟩ := a
  dsimp only at h hstash heager
  subst hstash
  cases tag with
  | root => cases mod <;> cases h
  | call =>
    refine Or.inl ⟨rfl, ?_⟩
    cases mod <;> cases h <;> rfl
  | fork =>
    refine Or.inr ⟨rfl, ?_⟩
    cases mod with
    | none => exact absurd rfl heager
    | sync => cases h; exact ⟨_, _, rfl⟩
    | syncOutside => cases h; exact ⟨_, _, rfl⟩
    | eagerThrow => cases h
    | eagerThrowOutside => cases h

/-- The steals that the awaitable compares with. -/
theorem stealsPre_of_awaitTransform {f : Frame ε} {a : Address} {t : Bool} {R : Region}
    {n : BitVec 16} (h : awaitTransform f a.stash a.tag a.mod = some (.syncFork t R n)) :
    f.mSteal = n := by
  obtain ⟨tag, mod, stash⟩ := a
  cases tag <;> cases mod <;> cases stash <;> cases h <;> rfl

/-! ## The expression the code waits in -/

/-- The code waits in an expression: the child `c` runs, or the continuation is stolen, or it is
about to be resumed. -/
inductive Halted (c : ℕ) : ParentPc ε → Prop
  | called : Halted c (.called c)
  | forked : Halted c (.forked c)
  | stolen : Halted c .stolen
  | running : Halted c .running

/-- Only the child that the code waits for can be running. -/
theorem Halted.eq_of_runs {c d : ℕ} {pc : ParentPc ε} (h : Halted c pc) (hruns : pc.runs = some d) :
    c = d := by
  cases h <;> cases hruns <;> rfl

/-- What holds of the expression the code waits in, for the child `c`. -/
structure Waiting (s : State ε) (awaitable : Awaitable) (c : ℕ) : Prop where
  blind : (s.address c).stash = false → (s.address c).mod ≠ .none → Blind (s.address c) awaitable
  halted : Halted c s.scope.parent
  sync : s.synchronous c = true → s.scope.parent = .running
  /-- Unless the continuation was stolen, the steals are those before the dispatch. -/
  steals : ∀ t R n, awaitable = .syncFork t R n →
    s.scope.parent.runs = some c ∨ s.synchronous c = true → s.scope.frame.mSteal = n

/-- What holds of all expressions. -/
structure Quiet (s : State ε) : Prop where
  waiting : ∀ awaitable c, s.awaiting = some (awaitable, c) → Waiting s awaitable c
  silent : ∀ a ∈ s.awaits, a.Captured → a.Silent

/-- A new frame waits for nothing. -/
theorem quiet_new : Quiet (State.new : State ε) := ⟨nofun, nofun⟩

/-- The scope moves on while the code waits, or does not. -/
theorem Quiet.take (h : Quiet s) (hawaiting : s'.awaiting = s.awaiting)
    (hawaits : s'.awaits = s.awaits) (haddress : s'.address = s.address)
    (hwait : ∀ awaitable c, s.awaiting = some (awaitable, c) → Waiting s awaitable c →
      Halted c s'.scope.parent ∧ (s'.synchronous c = true → s'.scope.parent = .running) ∧
        ∀ n, (s.scope.parent.runs = some c ∨ s.synchronous c = true → s.scope.frame.mSteal = n) →
          s'.scope.parent.runs = some c ∨ s'.synchronous c = true → s'.scope.frame.mSteal = n) :
    Quiet s' := by
  constructor
  · intro awaitable c hc
    rw [hawaiting] at hc
    have hw := h.waiting awaitable c hc
    obtain ⟨hhalted, hsync, hsteals⟩ := hwait awaitable c hc hw
    refine ⟨?_, hhalted, hsync, fun t R n heq => hsteals n (hw.steals t R n heq)⟩
    rw [haddress]
    exact hw.blind
  · rw [hawaits]
    exact h.silent

/-- A step of the scope that leaves the frame's code and its steals alone. -/
theorem Quiet.congr (h : Quiet s) (hawaiting : s'.awaiting = s.awaiting)
    (hawaits : s'.awaits = s.awaits) (haddress : s'.address = s.address)
    (hsync : s'.synchronous = s.synchronous)
    (hscope : ∀ c, Halted c s.scope.parent → s'.scope.parent = s.scope.parent ∧
      s'.scope.frame.mSteal = s.scope.frame.mSteal) : Quiet s' := by
  refine h.take hawaiting hawaits haddress fun awaitable c _ hw => ?_
  obtain ⟨hparent, hsteal⟩ := hscope c hw.halted
  rw [hparent, hsteal, hsync]
  exact ⟨hw.halted, hw.sync, fun _ hn => hn⟩

/-! ## Every step keeps it -/

/-- A step of the frame is a step of its scope. -/
theorem take_eq_some {a : Join.Act ε} (h : s.take a = some s') :
    ∃ scope, (Join.machine ε).step s.scope a = some scope ∧ s' = { s with scope := scope } := by
  obtain ⟨scope, hscope, rfl⟩ := Option.map_eq_some_iff.mp h
  exact ⟨scope, hscope, rfl⟩

/-- While the code waits, no access of a child has to do with it. -/
theorem childStep_halted {x x' : Join.State ε} {c d : ℕ} (h : childStep x d = some x')
    (hx : Halted c x.parent) : x'.parent = x.parent ∧ x'.frame.mSteal = x.frame.mSteal := by
  unfold childStep at h
  dsimp only at h
  split at h
  case h_1 | h_2 | h_3 => cases h
  case h_4 | h_5 | h_6 =>
    cases h
    exact ⟨rfl, rfl⟩
  case h_7 =>
    split at h
    · rename_i hsusp
      rw [hsusp] at hx
      cases hx
    · cases h

/-- A step of a child keeps what holds of the expressions. -/
theorem quiet_child {d : ℕ} (h : Quiet s) (hstep : s.take (.child d) = some s') : Quiet s' := by
  obtain ⟨x, hx, rfl⟩ := take_eq_some hstep
  exact h.congr rfl rfl rfl rfl fun c hc => childStep_halted hx hc

/-- So does a capture. -/
theorem quiet_capture {d : ℕ} {e : ε} (h : Quiet s) (hstep : s.take (.capture d e) = some s') :
    Quiet s' := by
  obtain ⟨x, hx, rfl⟩ := take_eq_some hstep
  simp only [Join.machine] at hx
  split at hx
  · cases hx
    exact h.congr rfl rfl rfl rfl fun _ _ => ⟨rfl, rfl⟩
  · cases hx

/-- The child that finishes resumes the expression that waits for it, and no other. -/
theorem quiet_finish {d : ℕ} (h : Quiet s) (hstep : s.finish d = some s') : Quiet s' := by
  obtain ⟨x, hx, rfl⟩ := take_eq_some hstep
  simp only [Join.machine] at hx
  split at hx
  on_goal 2 => cases hx
  cases hx
  refine h.take rfl rfl rfl fun awaitable c _ hw => ?_
  by_cases hruns : s.scope.parent.runs = some d
  · obtain rfl : c = d := hw.halted.eq_of_runs hruns
    simp only [Join.finish, if_pos hruns]
    exact ⟨.running, fun _ => trivial, fun n hn _ => hn (Or.inl hruns)⟩
  · simp only [Join.finish, if_neg hruns, State.goto]
    refine ⟨hw.halted, ?_, fun n hn hd => hn ?_⟩
    · intro hd
      by_cases hcd : c = d
      · subst hcd
        simp [hruns] at hd
      · exact hw.sync (by simpa [hcd] using hd)
    · by_cases hcd : c = d
      · subst hcd
        simp [hruns] at hd
      · simpa [hcd] using hd

/-- Whatever the code is at, it waits: only a thief can go on. -/
theorem quiet_parent (h : Quiet s) (hstep : s.take .parent = some s') : Quiet s' := by
  obtain ⟨x, hx, rfl⟩ := take_eq_some hstep
  refine h.take rfl rfl rfl fun awaitable c _ hw => ?_
  obtain ⟨-, hhalted, hsync, -⟩ := hw
  change parentStep s.scope = some x at hx
  unfold parentStep at hx
  generalize hpc : s.scope.parent = pc at hx hhalted hsync
  cases hhalted with
  | called => cases hx
  | forked => cases hx
  | running => cases hx
  | stolen =>
    cases hx
    have hasync : s.synchronous c = false := by
      by_contra hne
      cases hsync (Bool.not_eq_false _ ▸ hne)
    refine ⟨.running, fun _ => rfl, fun n _ hor => ?_⟩
    rw [hasync] at hor
    rcases hor with hor | hor <;> cases hor

/-- So does a steal. -/
theorem quiet_steal (h : Quiet s) (hstep : s.take .steal = some s') : Quiet s' := by
  obtain ⟨x, hx, rfl⟩ := take_eq_some hstep
  simp only [Join.machine] at hx
  split at hx
  on_goal 2 => cases hx
  rename_i d hforked
  cases hx
  refine h.take rfl rfl rfl fun awaitable c _ hw => ?_
  have hasync : s.synchronous c = false := by
    by_contra hne
    rw [hw.sync (Bool.not_eq_false _ ▸ hne)] at hforked
    cases hforked
  refine ⟨.stolen, fun hd => absurd (hasync.symm.trans hd) nofun, fun n _ hor => ?_⟩
  rcases hor with hor | hor
  · cases hor
  · exact absurd (hasync.symm.trans hor) nofun

/-- What the code does while it waits in no expression. -/
theorem Quiet.free (h : Quiet s) (hawaiting : s'.awaiting = none) (hawaits : s'.awaits = s.awaits) :
    Quiet s' := by
  constructor
  · intro awaitable c hc
    rw [hawaiting] at hc
    cases hc
  · rw [hawaits]
    exact h.silent

/-- A frame whose code is free waits in no expression. -/
theorem awaiting_of_free (h : s.free = true) : s.awaiting = none := by
  unfold State.free at h
  rw [Bool.and_eq_true, Option.isNone_iff_eq_none] at h
  exact h.1

/-- What the code does between two expressions keeps it. -/
theorem quiet_code {a : Join.Act ε} (h : Quiet s) (hfree : s.free = true)
    (hstep : s.take a = some s') : Quiet s' := by
  obtain ⟨x, -, rfl⟩ := take_eq_some hstep
  exact h.free (awaiting_of_free hfree) rfl

/-- So does an exception that leaves a child. -/
theorem quiet_raise {c : ℕ} {e : ε} (h : Quiet s) (hstep : s.unhandledException c e = some s') :
    Quiet s' := by
  have hraised : Quiet { s with raised := Function.update s.raised c (some e) } :=
    h.congr rfl rfl rfl rfl fun _ _ => ⟨rfl, rfl⟩
  unfold State.unhandledException at hstep
  split at hstep
  · cases hstep
    exact hraised
  · exact quiet_capture hraised hstep

/-- The code begins to wait for a new child. -/
theorem quiet_wait {a : Address} {awaitable : Awaitable} {c : ℕ} {x : Join.State ε} (h : Quiet s)
    (hawaitable : awaitTransform s.scope.frame a.stash a.tag a.mod = some awaitable)
    (hframe : x.frame = s.scope.frame) (hhalted : Halted c x.parent) :
    Quiet { s.wait a awaitable c with scope := x } := by
  refine ⟨?_, h.silent⟩
  rintro _ _ ⟨rfl, rfl⟩
  have haddress : (s.wait a awaitable c).address c = a := Function.update_self ..
  have hasync : (s.wait a awaitable c).synchronous c = false := Function.update_self ..
  refine ⟨?_, hhalted, fun hd => absurd (hasync.symm.trans hd) nofun, ?_⟩
  · intro hstash heager
    have hblind : Blind a awaitable := by
      apply blind_of_awaitTransform hawaitable
      · exact haddress ▸ hstash
      · exact haddress ▸ heager
    exact haddress.symm ▸ hblind
  · rintro t R n rfl -
    exact (congrArg Frame.mSteal hframe).trans (stealsPre_of_awaitTransform hawaitable)

/-- So does a dispatch. -/
theorem quiet_dispatch {a : Address} {c : ℕ} (h : Quiet s) (hstep : s.dispatch a c = some s') :
    Quiet s' := by
  unfold State.dispatch at hstep
  split at hstep
  on_goal 2 => cases hstep
  split at hstep
  · cases hstep
  rename_i awaitable hawaitable
  split at hstep
  · cases hstep
  · obtain ⟨x, hx, rfl⟩ := take_eq_some hstep
    simp only [Join.machine] at hx
    split at hx
    · cases hx
      exact quiet_wait h hawaitable rfl .called
    · cases hx
  · obtain ⟨x, hx, rfl⟩ := take_eq_some hstep
    simp only [Join.machine] at hx
    split at hx
    · cases hx
      exact quiet_wait h hawaitable rfl .forked
    · cases hx

/-- A blind awaitable returns, whatever the frame holds. -/
theorem silent_of_blind {a : Address} {awaitable : Awaitable} {f : Frame ε} (raised : Option ε)
    (h : Blind a awaitable) (hsteals : ∀ t R n, awaitable = .syncFork t R n → f.mSteal = n) :
    Await.Silent ⟨a, raised, true, (awaitable.awaitResume f).1⟩ := by
  rcases h with ⟨htag, rfl⟩ | ⟨htag, R, n, rfl⟩
  · exact ⟨fun _ => rfl, fun hfork => absurd (htag.symm.trans hfork) nofun, by simp [htag]⟩
  · refine ⟨fun hcall => absurd (htag.symm.trans hcall) nofun, fun _ => ?_, by simp [htag]⟩
    have hkept : f.loadSteals = n := hsteals _ R n rfl
    simp [Awaitable.awaitResume, hkept]

/-- **The expression goes on as if the child had returned.** -/
theorem quiet_resume (h : Quiet s) (hstep : s.resume = some s') : Quiet s' := by
  unfold State.resume at hstep
  split at hstep
  on_goal 2 => cases hstep
  rename_i awaitable c hawaiting hrunning
  cases hstep
  refine ⟨nofun, fun a ha hcap => ?_⟩
  rcases List.mem_append.mp ha with ha | ha
  · exact h.silent a ha hcap
  obtain rfl := List.mem_singleton.mp ha
  have hw := h.waiting awaitable c hawaiting
  have hsync : s.synchronous c = true := hcap.synchronous
  have hsilent := silent_of_blind (s.raised c) (hw.blind hcap.address hcap.eager)
    fun t R n heq => hw.steals t R n heq (Or.inr hsync)
  rw [← hsync] at hsilent
  exact hsilent

/-- Every step keeps it. -/
theorem quiet_step {a : Act ε} (h : Quiet s) (hstep : (machine ε).step s a = some s') :
    Quiet s' := by
  cases a with
  | dispatch a c => exact quiet_dispatch h hstep
  | resume => exact quiet_resume h hstep
  | stash e =>
    change (if s.free then s.take (.stash e) else none) = some s' at hstep
    split at hstep
    · exact quiet_code h ‹_› hstep
    · cases hstep
  | join =>
    change (if s.free then s.take .join else none) = some s' at hstep
    split at hstep
    · exact quiet_code h ‹_› hstep
    · cases hstep
  | coReturn =>
    simp only [machine] at hstep
    split at hstep
    on_goal 2 => cases hstep
    split at hstep
    · cases hstep
      exact h.congr rfl rfl rfl rfl fun _ _ => ⟨rfl, rfl⟩
    · cases hstep
  | raise c e =>
    simp only [machine] at hstep
    split at hstep
    · exact quiet_raise h hstep
    · cases hstep
  | finish c => exact quiet_finish h hstep
  | steal => exact quiet_steal h hstep
  | parent => exact quiet_parent h hstep
  | child c => exact quiet_child h hstep

/-! ## Every run -/

/-- It holds in every run. -/
theorem quiet_of_run {as : List (Act ε)} (h : (machine ε).Run Machine.free State.new as s) :
    Quiet s :=
  h.invariant (fun _ _ _ hquiet _ hstep => quiet_step hquiet hstep) quiet_new

/-- A silent expression does not throw. -/
theorem Await.Silent.not_throws {a : Await ε} (h : a.Silent) : ¬ a.Throws := by
  unfold Await.Throws
  cases htag : a.address.tag with
  | root => exact absurd htag h.tag
  | call => simp [h.call htag, Result.thrown]
  | fork => simp [h.fork htag, Result.thrown]

end Libfork.Dispatch
