import Libfork.SegmentedStack.Fits
import Libfork.Tls.Model

/-!
# The exception safety of `schedule`

* `Holds st live root ahead` — of the memory only the chunks `live`, the first stacklet of the
  thread's stack and the one ahead of it are in use.
* `Framed` — the stack with the coroutine frame on it, in its first stacklet or in a second one.
* **`schedule_safe_iff`** — a call that throws destroys its coroutine on the stack it was built on
  and frees every stacklet, exactly as long as it is not the scheduler's own `schedule` that
  throws: by then the thread's stack has been released and replaced by another.

Source: `sync_wait.hpp`, `schedule`; `promise.hpp`, `operator delete`, `~promise_base`;
`stack.hpp`, `~stack`, `release`, `deallocate`.
-/

namespace Libfork.Tls

open Libfork.Found
open Libfork.SegmentedStack

variable {N : Type} {t t' t₁ : Thread N} {env : Env}

/-! ## What a call that throws owes -/

/-- The life of a coroutine that ends where it began: nothing was allocated; its arguments threw
and its memory was given back; or it was built and destroyed once, with the stacklet it was built
in as the top of the stack, and its memory was given back to that stack. -/
inductive Tidy : List Note → Prop
  | unallocated : Tidy []
  | unbuilt (ptr top : ℕ) : Tidy [.allocated ptr top, .deallocated ptr top]
  | built (ptr top : ℕ) : Tidy
      [.allocated ptr top, .built ptr top, .destroyed ptr top top, .deallocated ptr top]

/-- The assertion of `~promise_base`. -/
theorem Tidy.top_eq {notes : List Note} (h : Tidy notes) {ptr mStacklet top : ℕ}
    (hmem : Note.destroyed ptr mStacklet top ∈ notes) : top = mStacklet := by
  cases h <;> simp at hmem
  exact hmem.2.2.trans hmem.2.1.symm

/-- The coroutine frame fits in the first stacklet of a new stack. -/
def Fits (size : Size) : Prop := extSize size ≤ request kFibreInitSize - sizeofStacklet

instance (size : Size) : Decidable (Fits size) := inferInstanceAs (Decidable (_ ≤ _))

/-- Every step before the scheduler's own `schedule` succeeds. -/
structure Env.Reaches (env : Env) : Prop where
  first : env.first ≠ none
  shared : env.sharedThrows = false
  combine : env.combineThrows = false
  argument : env.argumentThrows = false
  frame : Fits env.size ∨ env.grown ≠ none
  parameters : env.parametersThrow = false
  second : env.second ≠ none

/-- What a call of `schedule` owes when a step of it throws. -/
structure Safe (env : Env) (t : Thread N) (r : Result) (t' : Thread N) : Prop where
  /-- The exception propagates. -/
  propagates : ¬ env.Reaches ∨ env.refuses = true → ∃ e, r = .threw e
  hasStack : ∀ e, r = .threw e → t'.hasStack = false
  frame : ∀ e, r = .threw e → ∃ notes, t'.log = t.log ++ notes ∧ Tidy notes
  /-- Every stacklet that was allocated was freed once. -/
  freed : ∀ e, r = .threw e → ∀ i, t.store.heap.serial ≤ i → i < t'.store.heap.serial →
    t'.store.heap.freed.count i = 1

/-! ## The stacklets of the call -/

section stacklets

variable {st : Store} {live : List Chunk} {root ptr : ℕ} {ahead : Option ℕ} {s : Stack}

/-- Of the memory, only the chunks `live`, the stacklet `root` and the one ahead of it are in
use. -/
structure Holds (st : Store) (live : List Chunk) (root : ℕ) (ahead : Option ℕ) : Prop where
  sound : st.heap.Sound
  owned : ∃ n, st.heap.Owned root n
  prev : (st.stacklet root).mPrev = none
  next : (st.stacklet root).mNext = ahead
  ahead_ne : ∀ c ∈ ahead, c ≠ root
  ahead_owned : ∀ c ∈ ahead, ∃ n, st.heap.Owned c n
  ahead_next : ∀ c ∈ ahead, (st.stacklet c).mNext = none
  live : ∀ c ∈ st.heap.live, c ∈ live ∨ c.addr = root ∨ c.addr ∈ ahead

/-- The stacklet ahead has a chunk. -/
theorem Holds.next_owned (h : Holds st live root ahead) (c : ℕ)
    (hc : (st.stacklet root).mNext = some c) : ∃ n, st.heap.Owned c n :=
  h.ahead_owned c (h.next.symm.trans hc)

/-- The stack pointer may be anywhere. -/
theorem Holds.setSp (h : Holds s.store live root ahead) (p : ℕ) :
    Holds (s.setSp p).store live root ahead := by
  have hnext : ∀ a, ((s.setSp p).store.stacklet a).mNext = (s.store.stacklet a).mNext := by
    intro a
    by_cases ha : a = s.mFib
    · rw [ha, setSp_stacklet_self]
      rfl
    · rw [setSp_stacklet_of_ne ha]
  have hprev : ((s.setSp p).store.stacklet root).mPrev = (s.store.stacklet root).mPrev := by
    by_cases ha : root = s.mFib
    · rw [ha, setSp_stacklet_self]
      rfl
    · rw [setSp_stacklet_of_ne ha]
  exact ⟨h.sound, h.owned, hprev.trans h.prev, (hnext root).trans h.next, h.ahead_ne,
    h.ahead_owned, fun c hc => (hnext c).trans (h.ahead_next c hc), h.live⟩

/-- The stacklet ahead is freed. -/
theorem Holds.dropNext (h : Holds st live root ahead) :
    Holds (st.setNext root none) live root none := by
  have hlive : ∀ d ∈ (st.setNext root none).heap.live,
      d ∈ st.heap.live ∧ (st.stacklet root).mNext ≠ some d.addr :=
    fun d hd => setNext_live h.sound h.next_owned hd
  constructor
  · exact setNext_sound h.sound h.next_owned
  · obtain ⟨n, hn⟩ := h.owned
    refine ⟨n, setNext_owned h.sound h.next_owned hn fun heq => ?_⟩
    exact h.ahead_ne root (h.next.symm.trans heq) rfl
  · rw [setNext_stacklet_self]
    exact h.prev
  · rw [setNext_stacklet_self]
  · nofun
  · nofun
  · nofun
  · intro d hd
    obtain ⟨hold, hne⟩ := hlive d hd
    rcases h.live d hold with hd | hd | hd
    · exact Or.inl hd
    · exact Or.inr (Or.inl hd)
    · exact absurd (h.next.trans hd) hne

/-- `~stack` frees both stacklets. -/
theorem Holds.destroyStack (h : Holds st live root ahead) :
    (destroyStack ⟨st, root⟩).heap.Sound ∧
      ∀ c ∈ (destroyStack ⟨st, root⟩).heap.live, c ∈ live := by
  have hdrop := h.dropNext
  obtain ⟨n, hn⟩ := hdrop.owned
  refine ⟨hdrop.sound.free hn, fun c hc => ?_⟩
  obtain ⟨hlive, hne⟩ := Heap.mem_live_free hdrop.sound hn hc
  rcases hdrop.live c hlive with hc | hc | hc
  · exact hc
  · exact absurd hc hne
  · cases hc

/-- A frame of which nothing lies beneath, in the first stacklet or in a second one. -/
inductive Framed (live : List Chunk) (root ptr : ℕ) (s : Stack) : Prop
  | first : s.mFib = root → s.fib.mLo = ptr → Holds s.store live root none → Framed live root ptr s
  | second (p : ℕ) : s.mFib = p → s.fib.mLo = ptr → s.fib.mPrev = some root →
      Holds s.store live root (some p) → Framed live root ptr s

/-- The stacklet that a frame is on has a chunk. -/
theorem Framed.owned (h : Framed live root ptr s) : s.store.heap.Sound ∧
    ∃ n, s.store.heap.Owned s.mFib n := by
  cases h with
  | first hfib hlo h =>
    rw [hfib]
    exact ⟨h.sound, h.owned⟩
  | second p hfib hlo hprev h =>
    rw [hfib]
    exact ⟨h.sound, h.ahead_owned p rfl⟩

/-- A new stack, to which the heap is otherwise unknown. -/
structure Rooted (live : List Chunk) (root : ℕ) (s : Stack) : Prop where
  fib : s.mFib = root
  header : s.store.stacklet root =
    ⟨root + 48, root + 48, root + (request kFibreInitSize).toNat, none, none⟩
  holds : Holds s.store live root none

/-- A stack without a frame. -/
def Bare (live : List Chunk) (root : ℕ) (s : Stack) : Prop :=
  s.mFib = root ∧ ∃ ahead, Holds s.store live root ahead

/-- A new stack has no frame. -/
theorem Rooted.bare (h : Rooted live root s) : Bare live root s := ⟨h.fib, none, h.holds⟩

/-- The first stacklet. -/
theorem rooted_new {st : Store} (hs : st.heap.Sound)
    (hroot : st.heap.Admits root (request kFibreInitSize).toNat 16) :
    Rooted st.heap.live root ⟨(st.nextStacklet kFibreInitSize none (some root)).2, root⟩ := by
  have hpos : 0 < (request kFibreInitSize).toNat := by decide
  have hself : (st.nextStacklet kFibreInitSize none (some root)).2.stacklet root = _ :=
    nextStacklet_self none
  refine ⟨rfl, hself, hs.malloc hpos hroot, ⟨_, Heap.owned_malloc⟩, ?_, ?_, nofun, nofun, nofun, ?_⟩
  · rw [hself]
  · rw [hself]
  · intro c hc
    rcases Heap.mem_live_malloc hc with hc | hc
    · exact Or.inr (Or.inl hc)
    · exact Or.inl hc

/-- A stack without a frame stays so when it is trimmed. -/
theorem Bare.trim (h : Bare live root s) : Bare live root s.trim := by
  rcases trim_cases s with ⟨heq, -⟩ | heq
  · rw [heq]
    exact h
  · obtain ⟨hfib, ahead, h⟩ := h
    rw [heq, hfib]
    exact ⟨rfl, none, h.dropNext⟩

/-- The memory of the frame goes back to the stack. -/
theorem Framed.deallocate (h : Framed live root ptr s) : Bare live root (s.deallocate ptr) := by
  have hempty : s.fib.mLo = ptr → (s.setSp ptr).fib.empty = true := by
    intro hlo
    simp [Stacklet.empty, hlo]
  unfold Stack.deallocate
  cases h with
  | first hfib hlo h =>
    have hprev : (s.setSp ptr).fib.mPrev = none := by
      rw [setSp_fib, Stack.fib, hfib]
      exact h.prev
    have hbare : Bare live root (s.setSp ptr).stepDown := by
      unfold Stack.stepDown
      rw [hprev]
      exact ⟨hfib, none, h.setSp ptr⟩
    rw [if_pos (hempty hlo)]
    exact hbare.trim
  | second p hfib hlo hprev h =>
    have hp : s.mFib ≠ root := by
      rw [hfib]
      exact h.ahead_ne p rfl
    have hset := h.setSp ptr
    have hnext : (s.setSp ptr).fib.mNext = none := by
      rw [setSp_fib, Stack.fib, hfib]
      exact h.ahead_next p rfl
    have hbare : Bare live root (s.setSp ptr).stepDown := by
      unfold Stack.stepDown
      rw [setSp_fib, hprev]
      refine ⟨rfl, some p, ?_⟩
      rw [setNext_self hnext]
      exact hset
    rw [if_pos (hempty hlo)]
    exact hbare.trim

/-- A second stacklet. -/
theorem Holds.grow (h : Holds st live root none) {size : Size} {p : ℕ}
    (hp : st.heap.Admits p (request size).toNat 16) :
    Holds (st.nextStacklet size (some root) (some p)).2 live root (some p) := by
  obtain ⟨n, hn⟩ := h.owned
  have hpos : 0 < (request size).toNat := by
    have hmod := request_mod size
    omega
  have hne : p ≠ root := hp.ne hn hpos h.sound
  have hprev : (st.nextStacklet size (some root) (some p)).2.stacklet root = _ :=
    nextStacklet_prev hne.symm
  constructor
  · exact nextStacklet_sound h.sound h.next_owned hp
  · refine ⟨n, nextStacklet_owned h.sound h.next_owned hp hn.malloc ?_⟩
    rw [h.next]
    nofun
  · rw [hprev]
    exact h.prev
  · rw [hprev]
  · rintro c ⟨⟩
    exact hne
  · rintro c ⟨⟩
    refine ⟨_, nextStacklet_owned h.sound h.next_owned hp Heap.owned_malloc ?_⟩
    rw [h.next]
    nofun
  · rintro c ⟨⟩
    rw [nextStacklet_self]
  · intro d hd
    rcases nextStacklet_live h.sound h.next_owned hp hd with hd | ⟨hd, -⟩
    · exact Or.inr (Or.inr (congrArg some hd.symm))
    · rcases h.live d hd with hd | hd | hd
      · exact Or.inl hd
      · exact Or.inr (Or.inl hd)
      · cases hd

/-- The room of a new stack. -/
theorem Rooted.room_iff (h : Rooted live root s) {size : Size} :
    Fits size ↔ ¬ s.Grows (extSize size) := by
  have hfib :
      s.fib = ⟨root + 48, root + 48, root + (request kFibreInitSize).toNat, none, none⟩ := by
    rw [Stack.fib, h.fib]
    exact h.header
  have hunused : s.fib.unused = request kFibreInitSize - sizeofStacklet := by
    rw [hfib, Stacklet.unused]
    have hroom : ((root + (request kFibreInitSize).toNat : ℕ) : ℤ) - ((root + 48 : ℕ) : ℤ) =
        4000 := by
      have hrequest : (request kFibreInitSize).toNat = 4048 := by decide
      omega
    rw [hroom]
    decide
  have hcached : s.cached (extSize size) = none := by
    rw [Stack.cached, hfib]
    rfl
  unfold Fits Stack.Grows
  rw [hunused, and_iff_left hcached, BitVec.not_lt]

/-- The frame is allocated, unless there is no memory for a second stacklet. -/
theorem Rooted.allocate (h : Rooted live root s) {size : Size} {got : Option ℕ}
    (hgot : s.Grants size got) :
    (¬ (Fits size ∨ got ≠ none) ∧ s.allocate size got = (none, s)) ∨
      ∃ ptr s', (Fits size ∨ got ≠ none) ∧ s.allocate size got = (some ptr, s') ∧
        Framed live root ptr s' := by
  have hfib :
      s.fib = ⟨root + 48, root + 48, root + (request kFibreInitSize).toNat, none, none⟩ := by
    rw [Stack.fib, h.fib]
    exact h.header
  rcases allocate_cases s size got with ⟨hnone, hgrows, hnull⟩ | ⟨e, hentered, hroom, hsome⟩
  · left
    refine ⟨?_, hnone⟩
    rintro (hfits | hgot)
    · exact h.room_iff.mp hfits hgrows
    · exact hgot hnull
  · right
    have hsuccess : Fits size ∨ got ≠ none := by
      rw [h.room_iff]
      exact not_and_or.mp hroom
    refine ⟨_, _, hsuccess, hsome, ?_⟩
    cases hentered with
    | top hroom =>
      refine .first h.fib ?_ (h.holds.setSp _)
      rw [setSp_fib, hfib]
    | cached c hfull hnext =>
      rw [hfib] at hnext
      cases hnext
    | grown p hfull hp =>
      have hroot := h.fib
      subst hroot
      have hself : Stack.fib ⟨(s.store.nextStacklet (s.growth (extSize size)) (some s.mFib)
          (some p)).2, p⟩ = _ := nextStacklet_self (some s.mFib)
      refine .second p rfl ?_ ?_ ((h.holds.grow (hgot p hp)).setSp (s := ⟨_, p⟩) _)
      · rw [setSp_fib, hself]
      · rw [setSp_fib, hself]

/-- The second stack has its stacklet elsewhere. -/
theorem release_ne {got : Option ℕ} {s' : Stack} (h : Framed live root ptr s)
    (hgot : ∀ p ∈ got, s.store.heap.Admits p (request kFibreInitSize).toNat 16)
    (hrelease : release s got = some s') : s'.mFib ≠ s.mFib := by
  obtain ⟨hs, n, hn⟩ := h.owned
  cases got with
  | none => cases hrelease
  | some p =>
    cases hrelease
    exact (hgot p rfl).ne hn (by decide) hs

/-! ## The thread -/

/-- The stack of the thread is `s`. -/
def On (t : Thread N) (s : Stack) : Prop :=
  t.store = s.store ∧ t.threadStack.object = some s.mFib

/-- `operator new` allocates on the thread's stack. -/
theorem On.operatorNew (h : On t s) (size : Size) (got : Option ℕ) :
    t.operatorNew size got = match s.allocate size got with
      | (none, s') => (none, t.withStack s')
      | (some ptr, s') => (some ptr, (t.withStack s').noted (.allocated ptr s'.mFib)) := by
  unfold Thread.operatorNew
  rw [h.2, h.1]
  rfl

/-- `operator delete` deallocates on it. -/
theorem On.operatorDelete (h : On t s) (ptr : ℕ) : t.operatorDelete ptr =
    (t.withStack (s.deallocate ptr)).noted (.deallocated ptr s.mFib) := by
  unfold Thread.operatorDelete
  rw [h.2, h.1]

/-- The top of the thread's stack. -/
theorem On.top (h : On t s) : t.top = s.mFib := by
  unfold Thread.top
  rw [h.2]
  rfl

/-- A frame is destroyed, and deallocated on the thread's stack. -/
theorem On.destroyFrame (h : On t s) (ptr mStacklet : ℕ) : t.destroyFrame ptr mStacklet =
    (((t.noted (.destroyed ptr mStacklet s.mFib)).withStack (s.deallocate ptr)).noted
      (.deallocated ptr s.mFib)) := by
  unfold Thread.destroyFrame
  rw [h.top]
  exact On.operatorDelete (t := t.noted _) h ptr

/-- `release` takes the thread's stack. -/
theorem On.releaseStack (h : On t s) (got : Option ℕ) :
    t.releaseStack got = (release s got).map t.withStack := by
  unfold Thread.releaseStack
  rw [h.2, h.1]

/-- What the part of `schedule` between the two stacks comes to. -/
inductive Builds (live : List Chunk) (root : ℕ) (env : Env) (t : Thread N) :
    Result × Thread N → Prop
  /-- An early step throws. -/
  | early (e : Exception) (t' : Thread N) (s' : Stack) (notes : List Note) : ¬ env.Reaches →
      On t' s' → Bare live root s' → t'.log = t.log ++ notes → Tidy notes →
      Builds live root env t (.threw e, t')
  /-- Nothing throws. -/
  | returned (t' : Thread N) : env.Reaches → env.refuses = false →
      Builds live root env t (.returned, t')
  /-- The scheduler throws. -/
  | refused (e : Exception) (t' : Thread N) (notes : List Note) : env.Reaches →
      env.refuses = true → t'.log = t.log ++ notes → ¬ Tidy notes →
      Builds live root env t (.threw e, t')

/-- `schedule` once the coroutine is built. -/
theorem builds_submit {ptr : ℕ} (hon : On t s) (h : Framed live root ptr s)
    (hgot : ∀ p ∈ env.second, s.store.heap.Admits p (request kFibreInitSize).toNat 16)
    (hreaches : env.Reaches ↔ env.second ≠ none) {t₀ : Thread N}
    (hlog : t.log = t₀.log ++ [.allocated ptr s.mFib, .built ptr s.mFib]) :
    Builds live root env t₀ (t.submit env ptr s.mFib) := by
  unfold Thread.submit
  rw [hon.releaseStack]
  cases hrelease : release s env.second with
  | none =>
    have hnull : env.second = none := by
      cases hsecond : env.second with
      | none => rfl
      | some p =>
        rw [hsecond] at hrelease
        cases hrelease
    rw [Option.map_none, hon.destroyFrame]
    refine .early _ _ (s.deallocate ptr) _ ?_ ⟨rfl, rfl⟩ h.deallocate ?_ (.built ptr s.mFib)
    · exact fun hr => hreaches.mp hr hnull
    · simp [Thread.noted, Thread.withStack, hlog]
  | some s' =>
    have hne := release_ne h hgot hrelease
    have hsome : env.second ≠ none := by
      intro hnull
      rw [hnull] at hrelease
      cases hrelease
    have hon' : On (t.withStack s') s' := ⟨rfl, rfl⟩
    rw [Option.map_some]
    cases hrefuses : env.refuses with
    | false => exact .returned _ (hreaches.mpr hsome) hrefuses
    | true =>
      simp only [if_true]
      rw [hon'.destroyFrame]
      refine .refused _ _ [.allocated ptr s.mFib, .built ptr s.mFib,
        .destroyed ptr s.mFib s'.mFib, .deallocated ptr s'.mFib] (hreaches.mpr hsome) hrefuses ?_ ?_
      · simp [Thread.noted, Thread.withStack, hlog]
      · intro htidy
        have hmem : Note.destroyed ptr s.mFib s'.mFib ∈ [.allocated ptr s.mFib,
          .built ptr s.mFib, .destroyed ptr s.mFib s'.mFib, .deallocated ptr s'.mFib] := by simp
        exact hne (htidy.top_eq hmem)

/-- `schedule` between the construction of the stack and its destruction. -/
theorem builds_build (hon : On t s) (h : Rooted live root s) (hfirst : env.first ≠ none)
    (hgrants : s.Grants env.size env.grown)
    (hgot : ∀ ptr s', s.allocate env.size env.grown = (some ptr, s') →
      ∀ p ∈ env.second, s'.store.heap.Admits p (request kFibreInitSize).toNat 16) :
    Builds live root env t (t.build env) := by
  have hearly : ∀ e, ¬ env.Reaches → Builds live root env t (.threw e, t) :=
    fun e hreaches => .early e t s [] hreaches hon h.bare (List.append_nil _).symm .unallocated
  unfold Thread.build
  cases hshared : env.sharedThrows with
  | true => exact hearly _ fun hr => absurd hr.shared (by simp [hshared])
  | false =>
    cases hthrows : env.combineThrows || env.argumentThrows with
    | true => exact hearly _ fun hr => absurd hthrows (by simp [hr.combine, hr.argument])
    | false =>
      obtain ⟨hcombine, hargument⟩ := Bool.or_eq_false_iff.mp hthrows
      rw [hon.operatorNew]
      rcases h.allocate hgrants with ⟨hfull, halloc⟩ | ⟨ptr, s', hroom, halloc, hframed⟩
      · rw [halloc]
        exact .early _ _ s [] (fun hr => hfull hr.frame) ⟨rfl, rfl⟩ h.bare
          (List.append_nil _).symm .unallocated
      · rw [halloc]
        have hon' : On ((t.withStack s').noted (.allocated ptr s'.mFib)) s' := ⟨rfl, rfl⟩
        cases hparameters : env.parametersThrow with
        | true =>
          simp only [Bool.false_eq_true, if_false, if_true]
          rw [hon'.operatorDelete]
          refine .early _ _ (s'.deallocate ptr) _ ?_ ⟨rfl, rfl⟩ hframed.deallocate ?_
            (.unbuilt ptr s'.mFib)
          · exact fun hr => absurd hr.parameters (by simp [hparameters])
          · simp [Thread.noted, Thread.withStack]
        | false =>
          simp only [Bool.false_eq_true, if_false]
          refine builds_submit
            (t := ((t.withStack s').noted (.allocated ptr s'.mFib)).buildFrame ptr) hon' hframed
            (hgot ptr s' halloc) ?_ ?_
          · exact ⟨fun hr => hr.second, fun hsecond =>
              ⟨hfirst, hshared, hcombine, hargument, hroom, hparameters, hsecond⟩⟩
          · simp [Thread.buildFrame, Thread.noted, Thread.withStack, Thread.top]

end stacklets

/-! ## The call -/

/-- Destroying the stack is not on the log. -/
theorem destroyStack_log (t : Thread N) : t.destroyStack.log = t.log := by
  unfold Thread.destroyStack
  cases t.threadStack.object <;> rfl

/-- A chunk that is live was allocated. -/
theorem id_lt_serial {h : Heap} (hs : h.Sound) {c : Chunk} (hc : c ∈ h.live) : c.id < h.serial := by
  apply List.mem_range.mp
  rw [← hs.accounted.mem_iff]
  exact List.mem_append_left _ (List.mem_map_of_mem hc)

/-- If all that is live was live before, what was allocated since was freed once. -/
theorem freed_once {h h' : Heap} (hs : h.Sound) (hs' : h'.Sound)
    (hlive : ∀ c ∈ h'.live, c ∈ h.live) {i : ℕ} (hi : h.serial ≤ i) (hi' : i < h'.serial) :
    h'.freed.count i = 1 := by
  apply hs'.count_freed hi'
  rintro c hc rfl
  have hlt := id_lt_serial hs (hlive c hc)
  omega

/-- **When `schedule` is exception safe.** For every call from a thread that is no worker, and
every combination of steps that throw: the exception propagates, and nothing is left behind,
exactly when it is not the scheduler's own `schedule` that throws. -/
theorem schedule_safe_iff (hstack : t.hasStack = false) (hcontext : t.hasContext = false)
    (hsound : t.store.heap.Sound) (hallows : t.Allows env) :
    Safe env t (t.schedule env).1 (t.schedule env).2 ↔
      ¬ (env.Reaches ∧ env.refuses = true) := by
  obtain ⟨hgrants, hrest⟩ := hallows
  unfold Thread.schedule
  rw [hstack, hcontext]
  simp only [Bool.or_self, Bool.false_eq_true, if_false]
  cases hfirst : env.first with
  | none =>
    refine iff_of_true ⟨fun _ => ⟨_, rfl⟩, fun _ _ => hstack, ?_, ?_⟩ fun h => h.1.first hfirst
    · exact fun _ _ => ⟨[], (List.append_nil _).symm, .unallocated⟩
    · intro _ _ i hi hi'
      exact absurd hi' (Nat.not_lt.mpr hi)
  | some root =>
    rw [hfirst] at hgrants hrest
    have hrooted := rooted_new hsound (hgrants root rfl)
    set s : Stack := ⟨(t.store.nextStacklet kFibreInitSize none (some root)).2, root⟩
    have hnew : t.constructStack (some root) = some { t with
      store := s.store, threadStack := t.threadStack.construct root } := rfl
    obtain ⟨hframe, hsecond⟩ := hrest _ hnew
    have hgot : ∀ ptr s', s.allocate env.size env.grown = (some ptr, s') →
        ∀ p ∈ env.second, s'.store.heap.Admits p (request kFibreInitSize).toNat 16 := by
      intro ptr s' halloc
      rw [On.operatorNew (s := s) ⟨rfl, rfl⟩, halloc] at hsecond
      exact hsecond
    have hbuilds := builds_build
      (t := { t with
        store := s.store, threadStack := t.threadStack.construct root, hasStack := true })
      ⟨rfl, rfl⟩ hrooted (by simp [hfirst]) (hframe s.mFib rfl) hgot
    rw [hnew]
    simp only
    generalize Thread.build _ env = outcome at hbuilds ⊢
    cases hbuilds with
    | early e t' s' notes hreaches hon hbare hlog htidy =>
      refine iff_of_true ?_ fun h => hreaches h.1
      obtain ⟨hfib, ahead, hholds⟩ := hbare
      obtain ⟨hsound', hlive⟩ := hholds.destroyStack
      have hstore : t'.destroyStack.store = Tls.destroyStack ⟨s'.store, root⟩ := by
        unfold Thread.destroyStack
        rw [hon.2, hon.1, hfib]
      have hnotes : t'.destroyStack.log = t.log ++ notes := (destroyStack_log t').trans hlog
      refine ⟨fun _ => ⟨e, rfl⟩, fun _ _ => rfl, fun _ _ => ⟨notes, hnotes, htidy⟩, ?_⟩
      rintro _ - i hi hi'
      change (t'.destroyStack.store).heap.freed.count i = 1
      change i < (t'.destroyStack.store).heap.serial at hi'
      rw [hstore] at hi' ⊢
      exact freed_once hsound hsound' hlive hi hi'
    | returned t' hreaches hrefuses =>
      refine iff_of_true ⟨?_, nofun, nofun, nofun⟩ fun h => by simp [hrefuses] at h
      rintro (hnot | hrefuses')
      · exact absurd hreaches hnot
      · simp [hrefuses] at hrefuses'
    | refused e t' notes hreaches hrefuses hlog htidy =>
      refine iff_of_false (fun hsafe => ?_) (not_not_intro ⟨hreaches, hrefuses⟩)
      obtain ⟨notes', hlog', htidy'⟩ := hsafe.frame e rfl
      have hsame : t.log ++ notes' = t.log ++ notes :=
        hlog'.symm.trans ((destroyStack_log t').trans hlog)
      exact htidy (List.append_cancel_left hsame ▸ htidy')

/-- A call whose frame fits in the first stacklet. -/
def oneCall (second : Option ℕ) (refuses : Bool) : Env where
  first := some 4096
  sharedThrows := false
  combineThrows := false
  argumentThrows := false
  size := 100
  grown := none
  parametersThrow := false
  second := second
  refuses := refuses

/-- `release` finds no memory. -/
theorem schedule_safe_iff_release :
    Safe (oneCall none false) (Thread.new .empty 64 : Thread Unit) (.threw .badAlloc)
      ((Thread.new .empty 64 : Thread Unit).schedule (oneCall none false)).2 :=
  (schedule_safe_iff (N := Unit) rfl rfl Heap.sound_empty (by decide)).mpr
    fun h => h.1.second rfl

/-- The scheduler throws: the coroutine in the first stacklet is destroyed on the second stack, and
the first stacklet is never freed. -/
theorem not_safe_refused : ¬ ∀ (t : Thread Unit) (env : Env), t.hasStack = false →
    t.hasContext = false → t.store.heap.Sound → t.Allows env →
      Safe env t (t.schedule env).1 (t.schedule env).2 := by
  intro h
  have hsafe := h (.new .empty 64) (oneCall (some 16384) true) rfl rfl Heap.sound_empty (by decide)
  have hlog : ((Thread.new .empty 64 : Thread Unit).schedule (oneCall (some 16384) true)).2.log =
      [.allocated 4144 4096, .built 4144 4096, .destroyed 4144 4096 16384,
        .deallocated 4144 16384] := by
    decide
  obtain ⟨notes, hnotes, htidy⟩ := hsafe.frame .user rfl
  rw [hlog] at hnotes
  have hmem : Note.destroyed 4144 4096 16384 ∈ notes := by
    rw [← List.nil_append notes, ← show (Thread.new .empty 64 : Thread Unit).log = [] from rfl,
      ← hnotes]
    decide
  exact absurd (htidy.top_eq hmem) (by decide)

end Libfork.Tls
