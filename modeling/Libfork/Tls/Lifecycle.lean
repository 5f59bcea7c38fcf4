import Libfork.Tls.Model

/-!
# The lifetimes of the thread-local stack and context

* `Truthful t` — the two flags say what is alive, and nothing was destroyed or used when it was
  not alive.
* `Keeps t t'` — what the steps of `schedule` leave alone.
* **`lifecycle_iff`** — in every sequence of `worker_init`, `finalize` and `schedule`, the calls
  leave the truth behind exactly as long as no `worker_init` that is not refused runs out of memory
  for its stack: its handler destroys the context, does not rethrow, and sets both flags.

Source: `tls.hpp`, `worker_init`, `finalize`; `sync_wait.hpp`, `schedule`.
-/

namespace Libfork.Tls

open Libfork.Found
open Libfork.SegmentedStack

variable {N : Type} {t t' t'' : Thread N}

/-! ## What the calls owe -/

/-- The flags say what is alive, and nothing was destroyed twice or used after its end. -/
structure Truthful (t : Thread N) : Prop where
  stack : t.hasStack = t.threadStack.alive
  context : t.hasContext = t.threadContext.alive
  stackFaults : t.threadStack.faults = 0
  contextFaults : t.threadContext.faults = 0

/-- What `worker_init` owes: a live context, or the flags as they were. -/
def InitOk (t t' : Thread N) : Result → Prop
  | .context addr => addr = t'.contextAddr ∧ t'.threadContext.alive = true
  | .threw _ => t'.hasStack = t.hasStack ∧ t'.hasContext = t.hasContext
  | .returned => False

/-- What a call owes. -/
structure Lives (t : Thread N) (c : Call N) (r : Result) (t' : Thread N) : Prop where
  truthful : Truthful t'
  init : ∀ notify got, c = .workerInit notify got → InitOk t t' r

/-- A `worker_init` that is not refused and has no memory for its stack. -/
def Swallows (t : Thread N) : Call N → Prop
  | .workerInit _ none => (t.hasContext && t.hasStack) = false
  | _ => False

/-! ## The steps of `schedule` -/

/-- Only the stack object, the stacklets and the log may change, and the stack stays alive. -/
structure Keeps (t t' : Thread N) : Prop where
  hasStack : t'.hasStack = t.hasStack
  hasContext : t'.hasContext = t.hasContext
  threadContext : t'.threadContext = t.threadContext
  faults : t'.threadStack.faults = t.threadStack.faults
  alive : t'.threadStack.alive = true

/-- A thread that does nothing keeps what it has. -/
theorem Keeps.refl (h : t.threadStack.alive = true) : Keeps t t := ⟨rfl, rfl, rfl, rfl, h⟩

/-- So does one that does one thing after another. -/
theorem Keeps.trans (h : Keeps t t') (h' : Keeps t' t'') : Keeps t t'' :=
  ⟨h'.hasStack.trans h.hasStack, h'.hasContext.trans h.hasContext,
    h'.threadContext.trans h.threadContext, h'.faults.trans h.faults, h'.alive⟩

/-- A stack that is there has an object. -/
theorem exists_fib (h : t.threadStack.alive = true) : ∃ fib, t.threadStack.object = some fib :=
  Option.isSome_iff_exists.mp h

/-- The thread's stack may change, but not whose it is. -/
theorem keeps_withStack (t : Thread N) (s : Stack) : Keeps t (t.withStack s) :=
  ⟨rfl, rfl, rfl, rfl, rfl⟩

/-- A note changes nothing. -/
theorem keeps_noted (h : Keeps t t') (n : Note) : Keeps t (t'.noted n) :=
  ⟨h.hasStack, h.hasContext, h.threadContext, h.faults, h.alive⟩

/-- `operator new` keeps the thread's stack. -/
theorem keeps_operatorNew (h : t.threadStack.alive = true) (size : Size) (got : Option ℕ) :
    Keeps t (t.operatorNew size got).2 := by
  obtain ⟨fib, hfib⟩ := exists_fib h
  unfold Thread.operatorNew
  simp only [hfib]
  rcases (⟨t.store, fib⟩ : Stack).allocate size got with ⟨_ | ptr, s⟩
  · exact keeps_withStack t s
  · exact keeps_noted (keeps_withStack t s) _

/-- So does `operator delete`. -/
theorem keeps_operatorDelete (h : t.threadStack.alive = true) (ptr : ℕ) :
    Keeps t (t.operatorDelete ptr) := by
  obtain ⟨fib, hfib⟩ := exists_fib h
  unfold Thread.operatorDelete
  rw [hfib]
  exact keeps_noted (keeps_withStack t _) _

/-- So does the destruction of a frame. -/
theorem keeps_destroyFrame (h : t.threadStack.alive = true) (ptr mStacklet : ℕ) :
    Keeps t (t.destroyFrame ptr mStacklet) := by
  have hnoted := keeps_noted (.refl h) (.destroyed ptr mStacklet t.top)
  exact hnoted.trans (keeps_operatorDelete hnoted.alive ptr)

/-- So does `release` with the new stack it constructs. -/
theorem keeps_releaseStack (h : t.threadStack.alive = true) {got : Option ℕ}
    (hrelease : t.releaseStack got = some t') : Keeps t t' := by
  obtain ⟨fib, hfib⟩ := exists_fib h
  unfold Thread.releaseStack at hrelease
  rw [hfib] at hrelease
  obtain ⟨s, -, rfl⟩ := Option.map_eq_some_iff.mp hrelease
  exact keeps_withStack t s

/-- So does the submission of a root. -/
theorem keeps_submit (h : t.threadStack.alive = true) (env : Env) (ptr mStacklet : ℕ) :
    Keeps t (t.submit env ptr mStacklet).2 := by
  unfold Thread.submit
  cases hrelease : t.releaseStack env.second with
  | none => exact keeps_destroyFrame h ptr mStacklet
  | some t' =>
    have hkeeps := keeps_releaseStack h hrelease
    cases env.refuses with
    | true => exact hkeeps.trans (keeps_destroyFrame hkeeps.alive ptr mStacklet)
    | false => exact hkeeps

/-- So does building a root, whatever throws. -/
theorem keeps_build (h : t.threadStack.alive = true) (env : Env) : Keeps t (t.build env).2 := by
  have hnew := keeps_operatorNew h env.size env.grown
  unfold Thread.build
  cases env.sharedThrows with
  | true => exact .refl h
  | false =>
    cases env.combineThrows || env.argumentThrows with
    | true => exact .refl h
    | false =>
      cases hptr : t.operatorNew env.size env.grown with
      | mk ptr t' =>
        rw [hptr] at hnew
        cases ptr with
        | none => exact hnew
        | some ptr =>
          cases env.parametersThrow with
          | true => exact hnew.trans (keeps_operatorDelete hnew.alive ptr)
          | false =>
            have hbuilt := keeps_noted hnew (.built ptr t'.top)
            exact hbuilt.trans (keeps_submit hbuilt.alive env ptr t'.top)

/-! ## The calls -/

/-- Between two calls: the flags are true, and both up or both down. -/
structure Settled (t : Thread N) : Prop extends Truthful t where
  together : t.hasContext = t.hasStack

/-- A stack is constructed if its stacklet was allocated. -/
theorem constructStack_eq {got : Option ℕ} (h : t.constructStack got = some t') :
    ∃ p store, got = some p ∧
      t' = { t with store := store, threadStack := t.threadStack.construct p } := by
  cases got with
  | none => cases h
  | some p => exact ⟨p, _, rfl, (Option.some.inj h).symm⟩

/-- A stack that is destroyed is gone. -/
theorem destroyStack_eq (h : t.threadStack.alive = true) :
    ∃ store, t.destroyStack =
      { t with store := store, threadStack := ⟨none, t.threadStack.faults⟩ } := by
  obtain ⟨fib, hfib⟩ := exists_fib h
  refine ⟨Tls.destroyStack ⟨t.store, fib⟩, ?_⟩
  unfold Thread.destroyStack ManualLifetime.destroy
  rw [hfib]

/-- `schedule` leaves the thread settled. -/
theorem settled_schedule (h : Settled t) (env : Env) : Settled (t.schedule env).2 := by
  unfold Thread.schedule
  cases hflags : t.hasStack || t.hasContext with
  | true => exact h
  | false =>
    obtain ⟨hstack, hcontext⟩ := Bool.or_eq_false_iff.mp hflags
    cases hnew : t.constructStack env.first with
    | none => exact h
    | some t₁ =>
      obtain ⟨p, store, -, rfl⟩ := constructStack_eq hnew
      have hkeeps := keeps_build (t := { t with
        store := store, threadStack := t.threadStack.construct p, hasStack := true }) rfl env
      obtain ⟨store', hdestroy⟩ := destroyStack_eq hkeeps.alive
      simp only [Bool.false_eq_true, if_false]
      rw [hdestroy]
      refine ⟨⟨rfl, ?_, ?_, ?_⟩, ?_⟩
      · rw [hkeeps.hasContext, hkeeps.threadContext]
        exact h.context
      · rw [hkeeps.faults]
        exact h.stackFaults
      · rw [hkeeps.threadContext]
        exact h.contextFaults
      · exact hkeeps.hasContext.trans hcontext

/-- So does `finalize`. -/
theorem settled_finalize (h : Settled t) (worker : ℕ) : Settled (t.finalize worker).2 := by
  unfold Thread.finalize
  split_ifs with hworker hflags
  · exact h
  · exact h
  · have hflags : t.hasContext = true ∧ t.hasStack = true := by simpa using hflags
    obtain ⟨n, hn⟩ := Option.isSome_iff_exists.mp (h.context.symm.trans hflags.1)
    have hdead : t.threadContext.destroy = ⟨none, t.threadContext.faults⟩ := by
      unfold ManualLifetime.destroy
      rw [hn]
    obtain ⟨store, hdestroy⟩ := destroyStack_eq
      (t := { t with threadContext := t.threadContext.destroy }) (h.stack.symm.trans hflags.2)
    simp only
    rw [hdestroy, hdead]
    exact ⟨⟨rfl, rfl, h.stackFaults, h.contextFaults⟩, rfl⟩

/-- A `worker_init` keeps what it owes just when its handler does not run. -/
theorem lives_workerInit (h : Settled t) (notify : N) (got : Option ℕ) :
    (Lives t (.workerInit notify got) (t.workerInit notify got).1 (t.workerInit notify got).2 ↔
      ¬ Swallows t (.workerInit notify got)) ∧
    (¬ Swallows t (.workerInit notify got) → Settled (t.workerInit notify got).2) := by
  unfold Thread.workerInit
  split_ifs with hflags
  · refine ⟨iff_of_true ⟨h.toTruthful, ?_⟩ ?_, fun _ => h⟩
    · rintro _ _ -
      exact ⟨rfl, rfl⟩
    · cases got <;> simp [Swallows, hflags]
  · cases got with
    | none =>
      -- the context is dead, and the flag is up
      have hswallows : Swallows t (.workerInit notify none) := Bool.eq_false_iff.mpr hflags
      refine ⟨iff_of_false (fun hlives => ?_) (not_not_intro hswallows), absurd hswallows⟩
      have hcontext := hlives.truthful.context
      simp [Thread.constructStack, Store.nextStacklet, ManualLifetime.construct,
        ManualLifetime.destroy, ManualLifetime.alive] at hcontext
    | some p =>
      have hsettled : Settled { t with
          store := (t.store.nextStacklet kFibreInitSize none (some p)).2
          threadStack := t.threadStack.construct p
          threadContext := t.threadContext.construct notify
          hasStack := true
          hasContext := true } :=
        ⟨⟨rfl, rfl, h.stackFaults, h.contextFaults⟩, rfl⟩
      refine ⟨iff_of_true ⟨hsettled.toTruthful, ?_⟩ id, fun _ => hsettled⟩
      rintro _ _ -
      exact ⟨rfl, rfl⟩

/-- A new thread is settled. -/
theorem settled_new (store : Store) (contextAddr : ℕ) :
    Settled (Thread.new store contextAddr : Thread N) :=
  ⟨⟨rfl, rfl, rfl, rfl⟩, rfl⟩

/-- One call. -/
theorem lives_call {c : Call N} {r : Result} (h : Settled t)
    (hcall : (thread N).call t c = some (r, t')) :
    (Lives t c r t' ↔ ¬ Swallows t c) ∧ (¬ Swallows t c → Settled t') := by
  cases c with
  | workerInit notify got =>
    simp only [thread, Option.ite_none_right_eq_some, Option.some.injEq] at hcall
    obtain ⟨-, hcall⟩ := hcall
    have hinit := lives_workerInit h notify got
    rw [hcall] at hinit
    exact hinit
  | finalize worker =>
    have hsettled := settled_finalize h worker
    rw [Option.some.inj hcall] at hsettled
    exact ⟨iff_of_true ⟨hsettled.toTruthful, nofun⟩ id, fun _ => hsettled⟩
  | schedule env =>
    simp only [thread, Option.ite_none_right_eq_some, Option.some.injEq] at hcall
    obtain ⟨-, hcall⟩ := hcall
    have hsettled := settled_schedule h env
    rw [hcall] at hsettled
    exact ⟨iff_of_true ⟨hsettled.toTruthful, nofun⟩ id, fun _ => hsettled⟩

/-- **When the lifetimes are kept.** In every sequence of calls on a new thread, every call keeps
what it owes exactly as long as no `worker_init` swallows the exception of its stack. -/
theorem lifecycle_iff (store : Store) (contextAddr : ℕ) (cs : List (Call N)) :
    (thread N).Always Lives (Thread.new store contextAddr) cs ↔
      (thread N).Always (fun t c _ _ => ¬ Swallows t c) (Thread.new store contextAddr) cs := by
  have hcall : ∀ (t : Thread N) c r t', Settled t → (thread N).call t c = some (r, t') →
      (Lives t c r t' ↔ ¬ Swallows t c) ∧ (¬ Swallows t c → Settled t') :=
    fun _ _ _ _ h hcall => lives_call h hcall
  exact Object.always_iff hcall (settled_new store contextAddr) cs

/-- `worker_init` without memory for its stack returns the address of a dead context, with both
flags up. -/
theorem not_lives_swallowed :
    ¬ ∀ (store : Store) (contextAddr : ℕ) (cs : List (Call Unit)),
      (thread Unit).Always Lives (Thread.new store contextAddr) cs := by
  intro h
  have hlives := (h .empty 64 [.workerInit () none] _ _ rfl).1
  exact absurd hlives.truthful.context (by decide)

end Libfork.Tls
