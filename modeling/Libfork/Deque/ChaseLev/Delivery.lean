import Libfork.Deque.ChaseLev.Invariant

/-!
# Exactly-once delivery by `chase_lev_deque`
-/

namespace Libfork.Deque.ChaseLev

open Libfork.Found

variable {α : Type} {s : State α}

/-! ## The rules of the invariant -/

/-- What the owner holds is what it stands for. -/
theorem holds_owner (pc : OwnerPc α) (d : ChaseLevDeque α) (occ : ℕ → ℕ)
    (log : List (Event ℕ α Thread)) :
    State.holds { s with deque := d, owner := pc, occ := occ, log := log } =
      Function.update s.holds .owner pc.holds := by
  funext c
  cases c with
  | owner => rw [Function.update_self]; rfl
  | thief n => rw [Function.update_of_ne (by simp)]; rfl

/-- The buffer in use is one of the buffers. -/
theorem mem_bufs_self (s : State α) : s.deque.mBuf ∈ s.bufs := List.mem_cons_self

/-- What a thief knows survives every step that leaves the unclaimed items alone. -/
theorem ThiefPc.Ok.frame {s' : State α} {pc : ThiefPc α} (h : pc.Ok s)
    (htop : s'.deque.mTop = s.deque.mTop) (hback : s.deque.mTop < s.back → s.deque.mTop < s'.back)
    (hbufs : ∀ p ∈ s.bufs, p ∈ s'.bufs)
    (hload : ∀ p ∈ s.bufs, s.deque.mTop < s.back →
      (s'.deque.heap p).load s.deque.mTop = (s.deque.heap p).load s.deque.mTop)
    (hitem : s.deque.mTop < s.back → s'.item s.deque.mTop = s.item s.deque.mTop) : pc.Ok s' := by
  cases pc with
  | idle => trivial
  | bottom t =>
      obtain ⟨h₀, h₁⟩ := h
      exact ⟨h₀, by rw [htop]; exact h₁⟩
  | buf t =>
      obtain ⟨h₀, h₁, h₂⟩ := h
      refine ⟨h₀, by rw [htop]; exact h₁, ?_⟩
      rw [htop]
      rintro rfl
      exact hback (h₂ rfl)
  | load t p =>
      obtain ⟨h₀, h₁, hp, h₂⟩ := h
      refine ⟨h₀, by rw [htop]; exact h₁, hbufs p hp, ?_⟩
      rw [htop]
      rintro rfl
      obtain ⟨h₃, h₄⟩ := h₂ rfl
      exact ⟨hback h₃, by rw [hload p hp h₃, hitem h₃, h₄]⟩
  | exchange t x =>
      obtain ⟨h₀, h₁, h₂⟩ := h
      refine ⟨h₀, by rw [htop]; exact h₁, ?_⟩
      rw [htop]
      rintro rfl
      obtain ⟨h₃, h₄⟩ := h₂ rfl
      exact ⟨hback h₃, by rw [hitem h₃, h₄]⟩

/-- An access of the owner that neither pushes, claims nor returns an item, and leaves the
unclaimed items alone. -/
theorem Inv.ownerSilent (h : Inv s) {d : ChaseLevDeque α} {pc : OwnerPc α}
    (htop : d.mTop = s.deque.mTop) (hback : pc.back d.mBottom = s.owner.back s.deque.mBottom)
    (hholds : pc.holds = s.owner.holds)
    (hbufs : ∀ p ∈ s.bufs, p ∈ d.mBuf :: d.mGarbage)
    (halive : ∀ p ∈ d.mBuf :: d.mGarbage, p < d.next)
    (hload : ∀ p ∈ s.bufs, ∀ i : ℤ, s.top ≤ i → i < s.back →
      (d.heap p).load i = (s.deque.heap p).load i)
    (hitem : ∀ i : ℤ, s.top ≤ i → i < s.back → (d.heap d.mBuf).load i = s.item i)
    (hroom : s.cap ≤ (d.heap d.mBuf).capacity)
    (hok : pc.Ok { s with deque := d, owner := pc }) :
    Inv { s with deque := d, owner := pc } := by
  set s' : State α := { s with deque := d, owner := pc } with hs'
  have hb : s'.back = s.back := congrArg Int.toNat hback
  have ht : s'.top = s.top := congrArg Int.toNat htop
  have hn := h.top_nonneg
  have htn : (s.top : ℤ) = s.deque.mTop := Int.toNat_of_nonneg hn
  have hholds' : s'.holds = s.holds := by
    rw [hs', holds_owner pc d s.occ s.log, hholds]
    exact Function.update_eq_self _ _
  refine ⟨?_, ?_, ?_, halive, ?_, hok, ?_, ?_⟩
  · show 0 ≤ d.mTop
    rw [htop]
    exact hn
  · rw [ht, hb]
    exact h.top_le
  · rw [ht, hb]
    exact Nat.le_trans h.room (Nat.add_le_add_left hroom _)
  · intro i hi hi'
    rw [ht] at hi
    rw [hb] at hi'
    have := hitem i (by omega) (by omega)
    show (pushes s.log)[s.occ i]? = some (i, (d.heap d.mBuf).load i)
    rw [this]
    exact h.slots i hi hi'
  · intro n
    refine (h.thieves n).frame htop ?_ hbufs ?_ ?_
    · rw [hb]
      exact id
    · intro p hp hlt
      exact hload p hp _ (by omega) hlt
    · intro hlt
      exact hitem _ (by omega) hlt
  · rw [ht, hb, hholds']
    exact h.ideal

/-- An access of the owner that changes at most `m_bottom`. -/
theorem Inv.ownerLocal (h : Inv s) {b : ℤ} {pc : OwnerPc α}
    (hback : pc.back b = s.owner.back s.deque.mBottom) (hholds : pc.holds = s.owner.holds)
    (hok : pc.Ok { s with deque := { s.deque with mBottom := b }, owner := pc }) :
    Inv { s with deque := { s.deque with mBottom := b }, owner := pc } :=
  h.ownerSilent rfl hback hholds (fun _ hp => hp) h.alive (fun _ _ _ _ _ => rfl)
    (fun _ _ _ => rfl) (Nat.le_refl _) hok

/-! ## Steps of `push` -/

/-- The head of the copy loop. -/
theorem copyNext_ok {b t : ℤ} {p q : ℕ} {i : ℤ} (h : Copying s b t p q i) (v : α) :
    (copyNext v b t p q i).Ok s := by
  unfold copyNext
  split
  · rename_i hne
    exact ⟨h, Int.lt_iff_le_and_ne.mpr ⟨h.i_le, hne⟩⟩
  · rename_i heq
    have heq' : i = b := not_not.mp heq
    rw [heq'] at h
    exact h

/-- While a buffer is copied, the bottom is the back. -/
theorem copyNext_back (v : α) (b t : ℤ) (p q : ℕ) (i mBottom : ℤ) :
    (copyNext v b t p q i).back mBottom = mBottom := by
  unfold copyNext
  split <;> rfl

/-- The copying holds no item. -/
theorem copyNext_holds (v : α) (b t : ℤ) (p q : ℕ) (i : ℤ) :
    (copyNext v b t p q i).holds = none := by
  unfold copyNext
  split <;> rfl

/-- `push` finds the buffer full and allocates a new one. -/
theorem inv_allocate (h : Inv s) {v : α} {b t : ℤ} (hpc : s.owner = .pushBuf v b t)
    (hfull : (s.cap : ℤ) < (b - t) + 1) :
    Inv { s with
      deque := s.deque.allocate s.deque.mBuf
      owner := copyNext v b t s.deque.mBuf s.deque.next t } := by
  have hok := h.owner
  rw [hpc] at hok
  have hne : ∀ p ∈ s.bufs, p ≠ s.deque.next := fun p hp => Nat.ne_of_lt (h.alive p hp)
  have hheap : ∀ p ∈ s.bufs, (s.deque.allocate s.deque.mBuf).heap p = s.deque.heap p :=
    fun p hp => Function.update_of_ne (hne p hp) _ _
  have hbuf := hheap _ (mem_bufs_self s)
  refine h.ownerSilent rfl ?_ ?_ (fun _ hp => hp) ?_ ?_ ?_ ?_ ?_
  · rw [copyNext_back, hpc]
    rfl
  · rw [copyNext_holds, hpc]
    rfl
  · intro p hp
    exact Nat.lt_succ_of_lt (h.alive p hp)
  · intro p hp i _ _
    rw [hheap p hp]
  · intro i _ _
    show ((s.deque.allocate s.deque.mBuf).heap s.deque.mBuf).load i = _
    rw [hbuf]
    rfl
  · show _ ≤ ((s.deque.allocate s.deque.mBuf).heap s.deque.mBuf).capacity
    rw [hbuf]
    exact Nat.le_refl _
  · have hpos : 0 < s.cap := AtomicRingBuf.capacity_pos
    apply copyNext_ok
    refine ⟨⟨hok.bottom, hok.bottom_nonneg, hok.top_nonneg, hok.top_le, ?_⟩, rfl, ?_,
      Nat.lt_succ_self _, ?_, Int.le_refl _, by omega, ?_⟩
    · show b ≤ t + ((s.deque.allocate s.deque.mBuf).heap s.deque.mBuf).capacity
      rw [hbuf]
      exact hok.room
    · exact fun hp => hne _ hp rfl
    · show ((s.deque.allocate s.deque.mBuf).heap s.deque.next).capacity =
        2 * ((s.deque.allocate s.deque.mBuf).heap s.deque.mBuf).capacity
      rw [hbuf]
      unfold ChaseLevDeque.allocate
      simp only [Function.update_self]
      exact AtomicRingBuf.capacity_double _
    · intro j hj hjt
      exact absurd (Int.le_trans hok.top_le hj) (Int.not_le.mpr hjt)

/-- `resize` copies one item to the buffer that no thread can see yet. -/
theorem inv_copyStore (h : Inv s) {v x : α} {b t : ℤ} {p q : ℕ} {i : ℤ}
    (hpc : s.owner = .copyStore v b t p q i x) :
    Inv { s with
      deque := s.deque.store q i x
      owner := copyNext v b t p q (i + 1) } := by
  have hok := h.owner
  rw [hpc] at hok
  obtain ⟨hcopy, hib, hx⟩ := hok
  have hpos : 0 < s.cap := AtomicRingBuf.capacity_pos
  have hheap : ∀ p ∈ s.bufs, (s.deque.store q i x).heap p = s.deque.heap p := by
    intro p hp
    refine Function.update_of_ne ?_ _ _
    rintro rfl
    exact hcopy.fresh hp
  have hbuf := hheap _ (mem_bufs_self s)
  have hnew : (s.deque.store q i x).heap q = (s.deque.heap q).store i x :=
    Function.update_self _ _ _
  refine h.ownerSilent rfl ?_ ?_ (fun _ hp => hp) h.alive ?_ ?_ ?_ ?_
  · rw [copyNext_back, hpc]
    rfl
  · rw [copyNext_holds, hpc]
    rfl
  · intro p hp i _ _
    rw [hheap p hp]
  · intro j _ _
    show ((s.deque.store q i x).heap s.deque.mBuf).load j = _
    rw [hbuf]
    rfl
  · show _ ≤ ((s.deque.store q i x).heap s.deque.mBuf).capacity
    rw [hbuf]
    exact Nat.le_refl _
  · have hroom := hcopy.room
    have htop := hcopy.top_le
    have hdouble := hcopy.double
    have hti := hcopy.le_i
    have ht := hcopy.top_nonneg
    apply copyNext_ok
    refine ⟨⟨hcopy.bottom, hcopy.bottom_nonneg, hcopy.top_nonneg, hcopy.top_le, ?_⟩, hcopy.buf,
      hcopy.fresh, hcopy.lt_next, ?_, by omega, by omega, ?_⟩
    · show b ≤ t + ((s.deque.store q i x).heap s.deque.mBuf).capacity
      rw [hbuf]
      exact hcopy.room
    · show ((s.deque.store q i x).heap q).capacity =
        2 * ((s.deque.store q i x).heap s.deque.mBuf).capacity
      rw [hbuf, hnew]
      exact hcopy.double
    · intro j hj hji
      have hj' : s.deque.mTop ≤ j := hj
      show ((s.deque.store q i x).heap q).load j = ((s.deque.store q i x).heap s.deque.mBuf).load j
      rw [hbuf, hnew]
      by_cases hji' : j = i
      · subst hji'
        rw [AtomicRingBuf.load_store_self, hx hj']
        rfl
      · rw [AtomicRingBuf.load_store_of_ne x (by omega) (by omega) hji' (by omega) (by omega)]
        exact hcopy.copied j hj' (by omega)

/-- `push` publishes the new buffer; the old one stays readable. -/
theorem inv_pushSwap (h : Inv s) {v : α} {b t : ℤ} {p q : ℕ} (hpc : s.owner = .pushSwap v b t p q) :
    Inv { s with
      deque := { s.deque with mGarbage := s.deque.mGarbage ++ [p], mBuf := q }
      owner := .pushStore v b q } := by
  have hcopy := h.owner
  rw [hpc] at hcopy
  have hcopy : Copying s b t p q b := hcopy
  have hback : s.back = b.toNat := by
    show (s.owner.back s.deque.mBottom).toNat = _
    rw [hpc, ← hcopy.bottom]
    rfl
  have htn : (s.top : ℤ) = s.deque.mTop := Int.toNat_of_nonneg h.top_nonneg
  have hpos : 0 < s.cap := AtomicRingBuf.capacity_pos
  have hdouble := hcopy.double
  have hb := hcopy.bottom_nonneg
  refine h.ownerSilent rfl ?_ ?_ ?_ ?_ (fun _ _ _ _ _ => rfl) ?_ ?_ ?_
  · rw [hpc]
    rfl
  · rw [hpc]
    rfl
  · intro r hr
    rw [hcopy.buf]
    rcases List.mem_cons.mp hr with rfl | hr
    · simp
    · simp [hr]
  · intro r hr
    rw [hcopy.buf] at hr
    simp only [List.mem_cons, List.mem_append, List.not_mem_nil, or_false] at hr
    rcases hr with rfl | hr | rfl
    · exact hcopy.lt_next
    · exact h.alive r (List.mem_cons_of_mem _ hr)
    · exact h.alive _ (mem_bufs_self s)
  · intro i hi hi'
    exact hcopy.copied i (by omega) (by omega)
  · show s.cap ≤ (s.deque.heap q).capacity
    omega
  · refine ⟨hcopy.bottom, hb, rfl, ?_⟩
    have hroom := hcopy.room
    have htop := hcopy.top_le
    show b < s.deque.mTop + (s.deque.heap q).capacity
    omega

/-- `push` writes a slot that holds no unclaimed item. -/
theorem inv_pushStore (h : Inv s) {v : α} {b : ℤ} {p : ℕ} (hpc : s.owner = .pushStore v b p) :
    Inv { s with deque := s.deque.store p b v, owner := .pushBottom v b } := by
  have hok := h.owner
  rw [hpc] at hok
  obtain ⟨hbottom, hb, hp, hroom⟩ := hok
  subst hp
  have hback : s.back = b.toNat := by
    show (s.owner.back s.deque.mBottom).toNat = _
    rw [hpc, ← hbottom]
    rfl
  have htn : (s.top : ℤ) = s.deque.mTop := Int.toNat_of_nonneg h.top_nonneg
  have hnew : (s.deque.store s.deque.mBuf b v).heap s.deque.mBuf =
      (s.deque.heap s.deque.mBuf).store b v := Function.update_self _ _ _
  have hkeep : ∀ i : ℤ, s.top ≤ i → i < s.back →
      ((s.deque.heap s.deque.mBuf).store b v).load i = s.item i := by
    intro i hi hi'
    exact AtomicRingBuf.load_store_of_ne v (by omega) hb (by omega)
      (by have : (0 : ℤ) ≤ (s.deque.heap s.deque.mBuf).capacity := Int.natCast_nonneg _
          omega)
      (by show b < i + s.cap
          omega)
  refine h.ownerSilent rfl ?_ ?_ (fun _ hp => hp) h.alive ?_ ?_ ?_ ?_
  · rw [hpc]
    rfl
  · rw [hpc]
    rfl
  · intro r _ i hi hi'
    by_cases hr : r = s.deque.mBuf
    · subst hr
      rw [hnew, hkeep i hi hi']
      rfl
    · show (Function.update s.deque.heap s.deque.mBuf _ r).load i = _
      rw [Function.update_of_ne hr]
  · intro i hi hi'
    show ((s.deque.store s.deque.mBuf b v).heap s.deque.mBuf).load i = _
    rw [hnew, hkeep i hi hi']
  · show _ ≤ ((s.deque.store s.deque.mBuf b v).heap s.deque.mBuf).capacity
    rw [hnew]
    exact Nat.le_refl _
  · refine ⟨hbottom, hb, ?_, ?_⟩
    · show ((s.deque.store s.deque.mBuf b v).heap s.deque.mBuf).load b = v
      rw [hnew, AtomicRingBuf.load_store_self]
    · show b < s.deque.mTop + ((s.deque.store s.deque.mBuf b v).heap s.deque.mBuf).capacity
      rw [hnew]
      exact hroom

/-- `push` publishes the item. -/
theorem inv_pushBottom (h : Inv s) {v : α} {b : ℤ} (hpc : s.owner = .pushBottom v b) :
    Inv { s with
      deque := { s.deque with mBottom := b + 1 }
      owner := .idle
      occ := Function.update s.occ b.toNat (pushes s.log).length
      log := s.log ++ [.push b.toNat v] } := by
  have hok := h.owner
  rw [hpc] at hok
  obtain ⟨hbottom, hb, hitem, hroom⟩ := hok
  have hback : s.back = b.toNat := by
    show (s.owner.back s.deque.mBottom).toNat = _
    rw [hpc, ← hbottom]
    rfl
  have htop := h.top_le
  have htn : (s.top : ℤ) = s.deque.mTop := Int.toNat_of_nonneg h.top_nonneg
  set s' : State α := { s with
    deque := { s.deque with mBottom := b + 1 }
    owner := .idle
    occ := Function.update s.occ b.toNat (pushes s.log).length
    log := s.log ++ [.push b.toNat v] } with hs'
  have hback' : s'.back = s.back + 1 := by
    show (b + 1).toNat = _
    omega
  have hholds : s'.holds = s.holds := by
    rw [hs', holds_owner .idle]
    have : s.holds .owner = none := by simp [State.holds, hpc, OwnerPc.holds]
    rw [show (OwnerPc.idle : OwnerPc α).holds = s.holds .owner from this.symm]
    exact Function.update_eq_self _ _
  refine ⟨h.top_nonneg, ?_, ?_, h.alive, ?_, ?_, ?_, ?_⟩
  · rw [hback']
    exact Nat.le_succ_of_le htop
  · rw [hback']
    show s.back + 1 ≤ s.top + s.cap
    omega
  · intro i hi hi'
    by_cases hib : i = b.toNat
    · subst hib
      show (pushes (s.log ++ [.push b.toNat v]))[Function.update s.occ b.toNat _ b.toNat]? =
        some (b.toNat, s.item (b.toNat : ℤ))
      rw [Function.update_self, pushes_push_last, Int.toNat_of_nonneg hb, hitem]
    · show (pushes (s.log ++ [.push b.toNat v]))[Function.update s.occ b.toNat _ i]? =
        some (i, s.item i)
      rw [Function.update_of_ne hib]
      exact pushes_snoc_of_some s.log _ (h.slots i hi (by omega))
  · show 0 ≤ b + 1
    omega
  · intro n
    refine (h.thieves n).frame rfl ?_ (fun _ hp => hp) (fun _ _ _ => rfl) fun _ => rfl
    intro hlt
    omega
  · rw [hback', hholds]
    show Ideal Thread.side (s.log ++ [.push b.toNat v])
      (occurrences (Function.update s.occ b.toNat (pushes s.log).length) s.top (s.back + 1)) s.holds
    rw [← hback, occurrences_push s.occ htop]
    exact h.ideal.push s.back v

/-! ## Steps of `pop` -/

/-- A `pop` that finds a smaller top claims the item before the old bottom: a thief that claims it
would have to load the top after this. -/
theorem inv_popClaim (h : Inv s) {b : ℤ} {p : ℕ} (hpc : s.owner = .popTop b p)
    (hlt : s.deque.mTop < b) :
    Inv { s with
      owner := .popLoad b p (s.occ b.toNat)
      log := s.log ++ [.claim .owner (s.occ b.toNat)] } := by
  have hok := h.owner
  rw [hpc] at hok
  obtain ⟨hbottom, hb, hp⟩ := hok
  have hn := h.top_nonneg
  have hback : s.back = b.toNat + 1 := by
    show (s.owner.back s.deque.mBottom).toNat = _
    rw [hpc]
    show (b + 1).toNat = _
    omega
  have htn : (s.top : ℤ) = s.deque.mTop := Int.toNat_of_nonneg hn
  have hslot := h.slots b.toNat (by omega) (by omega)
  rw [Int.toNat_of_nonneg (by omega)] at hslot
  set s' : State α := { s with
    owner := .popLoad b p (s.occ b.toNat)
    log := s.log ++ [.claim .owner (s.occ b.toNat)] } with hs'
  have hback' : s'.back = b.toNat := congrArg Int.toNat hbottom
  have hroom := h.room
  refine ⟨hn, ?_, ?_, h.alive, ?_, ?_, ?_, ?_⟩
  · rw [hback']
    show s.top ≤ b.toNat
    omega
  · rw [hback']
    show b.toNat ≤ s.top + s.cap
    omega
  · intro i hi hi'
    exact pushes_snoc_of_some s.log _ (h.slots i hi (by omega))
  · exact ⟨by show 0 ≤ s.deque.mBottom; omega, hp, pushes_snoc_of_some s.log _ hslot⟩
  · intro n
    refine (h.thieves n).frame rfl ?_ (fun _ hp => hp) (fun _ _ _ => rfl) fun _ => rfl
    intro _
    rw [hback']
    omega
  · have hideal := h.ideal
    rw [hback, occurrences_back s.occ (show s.top ≤ b.toNat by omega)] at hideal
    rw [hback', hs', holds_owner]
    refine hideal.claimBack Thread.owner rfl ?_
    show s.owner.holds = none
    rw [hpc]
    rfl

/-- Once the top has moved on, a thief's compare-exchange will fail. -/
theorem ThiefPc.Ok.advance {s' : State α} {pc : ThiefPc α} (h : pc.Ok s)
    (htop : s.deque.mTop < s'.deque.mTop) (hbufs : s'.bufs = s.bufs) : pc.Ok s' := by
  cases pc with
  | idle => trivial
  | bottom t =>
      obtain ⟨h₀, h₁⟩ := h
      exact ⟨h₀, by omega⟩
  | buf t =>
      obtain ⟨h₀, h₁, -⟩ := h
      exact ⟨h₀, by omega, by omega⟩
  | load t p =>
      obtain ⟨h₀, h₁, hp, -⟩ := h
      exact ⟨h₀, by omega, hbufs ▸ hp, by omega⟩
  | exchange t x =>
      obtain ⟨h₀, h₁, -⟩ := h
      exact ⟨h₀, by omega, by omega⟩

/-- A `pop` wins the last item. -/
theorem inv_popWin (h : Inv s) {b t : ℤ} {p : ℕ} (hpc : s.owner = .popExchange b t p)
    (hwin : s.deque.mTop = t) :
    Inv { s with
      deque := { s.deque with mTop := t + 1 }
      owner := .popWon b p (s.occ b.toNat)
      log := s.log ++ [.claim .owner (s.occ b.toNat)] } := by
  have hok := h.owner
  rw [hpc] at hok
  obtain ⟨hbottom, hb, htb, -, hp⟩ := hok
  subst htb
  have hback : s.back = t.toNat + 1 := by
    show (s.owner.back s.deque.mBottom).toNat = _
    rw [hpc]
    show (t + 1).toNat = _
    omega
  have htop : s.top = t.toNat := congrArg Int.toNat hwin
  have hslot := h.slots t.toNat (by omega) (by omega)
  rw [Int.toNat_of_nonneg hb] at hslot
  set s' : State α := { s with
    deque := { s.deque with mTop := t + 1 }
    owner := .popWon t p (s.occ t.toNat)
    log := s.log ++ [.claim .owner (s.occ t.toNat)] } with hs'
  have hback' : s'.back = t.toNat + 1 := by
    show (t + 1).toNat = _
    omega
  have htop' : s'.top = t.toNat + 1 := by
    show (t + 1).toNat = _
    omega
  refine ⟨?_, ?_, ?_, h.alive, ?_, ?_, ?_, ?_⟩
  · show 0 ≤ t + 1
    omega
  · omega
  · omega
  · intro i hi hi'
    omega
  · exact ⟨hbottom, hb, rfl, hp, pushes_snoc_of_some s.log _ hslot⟩
  · intro n
    refine (h.thieves n).advance ?_ rfl
    show s.deque.mTop < t + 1
    omega
  · have hideal := h.ideal
    rw [hback, htop, occurrences_back s.occ (Nat.le_refl _)] at hideal
    rw [hback', htop', hs', holds_owner, occurrences_empty _ (Nat.le_refl _)]
    rw [occurrences_empty _ (Nat.le_refl _)] at hideal
    refine hideal.claimBack Thread.owner rfl ?_
    show s.owner.holds = none
    rw [hpc]
    rfl

/-- A `pop` that found nothing restores the bottom and reports empty. -/
theorem inv_popRestore (h : Inv s) {b : ℤ} (hpc : s.owner = .popRestore b) :
    Inv { s with
      deque := { s.deque with mBottom := b + 1 }
      owner := .idle
      log := s.log ++ [.empty] } := by
  have hok := h.owner
  rw [hpc] at hok
  obtain ⟨hbottom, hb, htop⟩ := hok
  set s' : State α := { s with
    deque := { s.deque with mBottom := b + 1 }
    owner := .idle
    log := s.log ++ [.empty] } with hs'
  have hback : s.back = (b + 1).toNat := by
    show (s.owner.back s.deque.mBottom).toNat = _
    rw [hpc]
    rfl
  have hback' : s'.back = s.back := hback.symm
  have htb : s.top = s.back := by
    rw [hback]
    exact congrArg Int.toNat htop
  have hholds : s'.holds = s.holds := by
    rw [hs', holds_owner .idle _ s.occ]
    have : s.holds .owner = none := by simp [State.holds, hpc, OwnerPc.holds]
    rw [show (OwnerPc.idle : OwnerPc α).holds = s.holds .owner from this.symm]
    exact Function.update_eq_self _ _
  refine ⟨h.top_nonneg, ?_, ?_, h.alive, ?_, ?_, ?_, ?_⟩
  · rw [hback']
    exact h.top_le
  · rw [hback']
    exact h.room
  · rw [hback']
    intro i hi hi'
    exact pushes_snoc_of_some s.log _ (h.slots i hi hi')
  · show 0 ≤ b + 1
    omega
  · intro n
    refine (h.thieves n).frame rfl ?_ (fun _ hp => hp) (fun _ _ _ => rfl) fun _ => rfl
    rw [hback']
    exact id
  · have hideal := h.ideal
    rw [← htb, occurrences_empty _ (Nat.le_refl _)] at hideal
    rw [hback', hholds, ← htb]
    show Ideal Thread.side (s.log ++ [.empty]) (occurrences s.occ s.top s.top) s.holds
    rw [occurrences_empty _ (Nat.le_refl _)]
    exact hideal.empty

/-- A `pop` returns what it reads from the slot it claimed. -/
theorem inv_popLoad (h : Inv s) {b : ℤ} {p k : ℕ} (hpc : s.owner = .popLoad b p k) :
    Inv { s with
      owner := .idle
      log := s.log ++ [.deliver .owner k b.toNat ((s.deque.heap p).load b)] } := by
  have hok := h.owner
  rw [hpc] at hok
  obtain ⟨hbottom, hp, hval⟩ := hok
  subst hp
  set s' : State α := { s with
    owner := .idle
    log := s.log ++ [.deliver .owner k b.toNat ((s.deque.heap s.deque.mBuf).load b)] } with hs'
  have hback' : s'.back = s.back := by
    show s.deque.mBottom.toNat = (s.owner.back s.deque.mBottom).toNat
    rw [hpc]
    rfl
  refine ⟨h.top_nonneg, ?_, ?_, h.alive, ?_, hbottom, ?_, ?_⟩
  · rw [hback']
    exact h.top_le
  · rw [hback']
    exact h.room
  · rw [hback']
    intro i hi hi'
    exact pushes_snoc_of_some s.log _ (h.slots i hi hi')
  · intro n
    refine (h.thieves n).frame rfl ?_ (fun _ hp => hp) (fun _ _ _ => rfl) fun _ => rfl
    rw [hback']
    exact id
  · rw [hback', hs', holds_owner .idle s.deque s.occ]
    refine h.ideal.deliver Thread.owner ?_ hval
    show s.owner.holds = some k
    rw [hpc]
    rfl

/-! ## One step of each thread -/

/-- A top beyond the last item is just one beyond. -/
theorem top_eq_of_le (h : Inv s) {b : ℤ} (hback : s.owner.back s.deque.mBottom = b + 1)
    (hb : -1 ≤ b) (hgt : b < s.deque.mTop) : s.deque.mTop = b + 1 := by
  have htop := h.top_le
  have htn : (s.top : ℤ) = s.deque.mTop := Int.toNat_of_nonneg h.top_nonneg
  unfold State.back at htop
  rw [hback] at htop
  omega

/-- One access of the owner. -/
theorem inv_ownerStep (h : Inv s) {s' : State α} (hs : ownerStep s = some s') : Inv s' := by
  have hok := h.owner
  have hn := h.top_nonneg
  unfold ownerStep at hs
  cases hpc : s.owner with
  | idle =>
      rw [hpc] at hs
      cases hs
  | pushTop v b =>
      rw [hpc] at hs hok
      cases hs
      obtain ⟨hbottom, hb⟩ := hok
      refine h.ownerLocal (by rw [hpc]; rfl) (by rw [hpc]; rfl) ?_
      refine ⟨hbottom, hb, hn, Int.le_refl _, ?_⟩
      have hroom := h.room
      have hback : s.back = b.toNat := by
        show (s.owner.back s.deque.mBottom).toNat = _
        rw [hpc, ← hbottom]
        rfl
      have htn : (s.top : ℤ) = s.deque.mTop := Int.toNat_of_nonneg hn
      show b ≤ s.deque.mTop + s.cap
      omega
  | pushBuf v b t =>
      rw [hpc] at hs hok
      simp only at hs
      split at hs
      · rename_i hfull
        cases hs
        exact inv_allocate h hpc hfull
      · rename_i hfit
        cases hs
        refine h.ownerLocal (by rw [hpc]; rfl) (by rw [hpc]; rfl) ?_
        have htop := hok.top_le
        refine ⟨hok.bottom, hok.bottom_nonneg, rfl, ?_⟩
        show b < s.deque.mTop + s.cap
        have hfit' : ¬ (s.cap : ℤ) < (b - t) + 1 := hfit
        omega
  | copyLoad v b t p q i =>
      rw [hpc] at hs hok
      cases hs
      refine h.ownerLocal (by rw [hpc]; rfl) (by rw [hpc]; rfl) ?_
      obtain ⟨hcopy, hib⟩ := hok
      refine ⟨⟨⟨hcopy.bottom, hcopy.bottom_nonneg, hcopy.top_nonneg, hcopy.top_le, hcopy.room⟩,
        hcopy.buf, hcopy.fresh, hcopy.lt_next, hcopy.double, hcopy.le_i, hcopy.i_le,
        hcopy.copied⟩, hib, fun _ => ?_⟩
      rw [hcopy.buf]
      rfl
  | copyStore v b t p q i x =>
      rw [hpc] at hs
      cases hs
      exact inv_copyStore h hpc
  | pushSwap v b t p q =>
      rw [hpc] at hs
      cases hs
      exact inv_pushSwap h hpc
  | pushStore v b p =>
      rw [hpc] at hs
      cases hs
      exact inv_pushStore h hpc
  | pushBottom v b =>
      rw [hpc] at hs
      cases hs
      exact inv_pushBottom h hpc
  | popBuf b =>
      rw [hpc] at hs hok
      cases hs
      exact h.ownerLocal (by rw [hpc]; rfl) (by rw [hpc]; rfl) ⟨hok.1, hok.2, rfl⟩
  | popBottom b p =>
      rw [hpc] at hs hok
      cases hs
      refine h.ownerLocal ?_ (by rw [hpc]; rfl) ⟨rfl, hok.2⟩
      rw [hpc]
      exact hok.1.symm
  | popTop b p =>
      rw [hpc] at hs hok
      obtain ⟨hbottom, hb, hp⟩ := hok
      simp only at hs
      split at hs
      · split at hs
        · rename_i heq
          cases hs
          refine h.ownerLocal (by rw [hpc]; rfl) (by rw [hpc]; rfl) ?_
          exact ⟨hbottom, by omega, heq, Int.le_refl _, hp⟩
        · rename_i hle hne
          cases hs
          exact inv_popClaim h hpc (by omega)
      · rename_i hgt
        cases hs
        refine h.ownerLocal (by rw [hpc]; rfl) (by rw [hpc]; rfl) ⟨hbottom, hb, ?_⟩
        exact top_eq_of_le h (by rw [hpc]; rfl) (by omega) (by omega)
  | popExchange b t p =>
      rw [hpc] at hs hok
      obtain ⟨hbottom, hb, htb, htop, hp⟩ := hok
      simp only at hs
      split at hs
      · rename_i hwin
        cases hs
        exact inv_popWin h hpc hwin
      · rename_i hlost
        cases hs
        refine h.ownerLocal (by rw [hpc]; rfl) (by rw [hpc]; rfl) ⟨hbottom, by omega, ?_⟩
        exact top_eq_of_le h (by rw [hpc]; rfl) (by omega) (by omega)
  | popWon b p k =>
      rw [hpc] at hs hok
      cases hs
      obtain ⟨hbottom, hb, htop, hp, hval⟩ := hok
      refine h.ownerLocal (by rw [hpc]; rfl) (by rw [hpc]; rfl) ⟨?_, hp, hval⟩
      show 0 ≤ b + 1
      omega
  | popRestore b =>
      rw [hpc] at hs
      cases hs
      exact inv_popRestore h hpc
  | popLoad b p k =>
      rw [hpc] at hs
      cases hs
      exact inv_popLoad h hpc

/-- `m_bottom` never runs ahead of the items. -/
theorem Inv.mBottom_le_back (h : Inv s) : s.deque.mBottom ≤ s.back := by
  have hok := h.owner
  unfold State.back
  cases hpc : s.owner with
  | popTop b p => rw [hpc] at hok; have := hok.1; simp only [OwnerPc.back]; omega
  | popExchange b t p => rw [hpc] at hok; have := hok.1; simp only [OwnerPc.back]; omega
  | popWon b p k => rw [hpc] at hok; have := hok.1; simp only [OwnerPc.back]; omega
  | popRestore b => rw [hpc] at hok; have := hok.1; simp only [OwnerPc.back]; omega
  | _ => simp only [OwnerPc.back]; omega

/-- What the owner knows survives the steps of a thief: the memory is as it was, and the top
moves only while there is an item at it. -/
theorem OwnerPc.Ok.thief {s' : State α} {pc : OwnerPc α} (h : pc.Ok s) {t : ℤ}
    (hd : s'.deque = { s.deque with mTop := t }) (hle : s.deque.mTop ≤ t)
    (hclaim : s.deque.mTop = t ∨ s.deque.mTop < pc.back s.deque.mBottom)
    (hlog : ∀ (k : ℕ) (x : ℕ × α), (pushes s.log)[k]? = some x → (pushes s'.log)[k]? = some x) :
    pc.Ok s' := by
  have hbufs : s'.bufs = s.bufs := by simp [State.bufs, hd]
  have hitem : ∀ i, s'.item i = s.item i := fun i => by simp [State.item, hd]
  have hcap : s'.cap = s.cap := by simp [State.cap, hd]
  have hpushing : ∀ {b u : ℤ}, Pushing s b u → Pushing s' b u := by
    rintro b u ⟨h₁, h₂, h₃, h₄, h₅⟩
    exact ⟨by rw [hd]; exact h₁, h₂, h₃, by rw [hd]; exact Int.le_trans h₄ hle,
      by rw [hcap]; exact h₅⟩
  have hcopying : ∀ {b u : ℤ} {p q : ℕ} {i : ℤ}, Copying s b u p q i → Copying s' b u p q i := by
    rintro b u p q i ⟨h₀, h₁, h₂, h₃, h₄, h₅, h₆, h₇⟩
    refine ⟨hpushing h₀, by rw [hd]; exact h₁, by rw [hbufs]; exact h₂, by rw [hd]; exact h₃,
      by rw [hd, hcap]; exact h₄, h₅, h₆, ?_⟩
    intro j hj hji
    rw [hd] at hj ⊢
    rw [hitem]
    exact h₇ j (Int.le_trans hle hj) hji
  cases pc with
  | idle =>
      show 0 ≤ s'.deque.mBottom
      rw [hd]
      exact h
  | pushTop v b =>
      show s'.deque.mBottom = b ∧ 0 ≤ b
      rw [hd]
      exact h
  | pushBuf v b u => exact hpushing h
  | copyLoad v b u p q i => exact ⟨hcopying h.1, h.2⟩
  | copyStore v b u p q i x =>
      refine ⟨hcopying h.1, h.2.1, fun hi => ?_⟩
      rw [hd] at hi
      rw [hitem]
      exact h.2.2 (Int.le_trans hle hi)
  | pushSwap v b u p q => exact hcopying h
  | pushStore v b p =>
      obtain ⟨h₁, h₂, h₃, h₄⟩ := h
      refine ⟨by rw [hd]; exact h₁, h₂, by rw [hd]; exact h₃, ?_⟩
      rw [hcap, hd]
      show b < t + s.cap
      omega
  | pushBottom v b =>
      obtain ⟨h₁, h₂, h₃, h₄⟩ := h
      refine ⟨by rw [hd]; exact h₁, h₂, by rw [hitem]; exact h₃, ?_⟩
      rw [hcap, hd]
      show b < t + s.cap
      omega
  | popBuf b =>
      show s'.deque.mBottom = b + 1 ∧ -1 ≤ b
      rw [hd]
      exact h
  | popBottom b p =>
      show s'.deque.mBottom = b + 1 ∧ -1 ≤ b ∧ p = s'.deque.mBuf
      rw [hd]
      exact h
  | popTop b p =>
      show s'.deque.mBottom = b ∧ -1 ≤ b ∧ p = s'.deque.mBuf
      rw [hd]
      exact h
  | popExchange b u p =>
      obtain ⟨h₁, h₂, h₃, h₄, h₅⟩ := h
      refine ⟨by rw [hd]; exact h₁, h₂, h₃, ?_, by rw [hd]; exact h₅⟩
      rw [hd]
      exact Int.le_trans h₄ hle
  | popWon b p k =>
      obtain ⟨h₁, h₂, h₃, h₄, h₅⟩ := h
      -- no item is left, so no thief has claimed one
      have ht : s.deque.mTop = t := hclaim.resolve_right (by simp only [back]; omega)
      refine ⟨by rw [hd]; exact h₁, h₂, ?_, by rw [hd]; exact h₄, ?_⟩
      · rw [hd]
        exact ht.symm.trans h₃
      · rw [hitem]
        exact hlog k _ h₅
  | popRestore b =>
      obtain ⟨h₁, h₂, h₃⟩ := h
      have ht : s.deque.mTop = t := hclaim.resolve_right (by simp only [back]; omega)
      refine ⟨by rw [hd]; exact h₁, h₂, ?_⟩
      rw [hd]
      exact ht.symm.trans h₃
  | popLoad b p k =>
      obtain ⟨h₁, h₂, h₃⟩ := h
      refine ⟨by rw [hd]; exact h₁, by rw [hd]; exact h₂, ?_⟩
      rw [hitem]
      exact hlog k _ h₃

/-- An access of a thief that does not claim. -/
theorem Inv.thiefSilent (h : Inv s) {n : ℕ} {pc : ThiefPc α} (hok : pc.Ok s) :
    Inv { s with thief := Function.update s.thief n pc } := by
  have howner : s.owner.Ok { s with thief := Function.update s.thief n pc } :=
    h.owner.thief rfl (Int.le_refl _) (Or.inl rfl) fun _ _ hx => hx
  refine ⟨h.top_nonneg, h.top_le, h.room, h.alive, h.slots, howner, fun m => ?_, ?_⟩
  · by_cases hm : m = n
    · subst hm
      simp only [Function.update_self]
      exact hok.frame rfl id (fun _ hp => hp) (fun _ _ _ => rfl) fun _ => rfl
    · simp only [Function.update_of_ne hm]
      exact (h.thieves m).frame rfl id (fun _ hp => hp) (fun _ _ _ => rfl) fun _ => rfl
  · have hholds : State.holds { s with thief := Function.update s.thief n pc } = s.holds := by
      funext c
      cases c <;> rfl
    rw [hholds]
    exact h.ideal

/-- A thief claims the item at the top and returns what it has read before. -/
theorem inv_thiefClaim (h : Inv s) {n : ℕ} {t : ℤ} {x : α} (hpc : s.thief n = .exchange t x)
    (hwin : s.deque.mTop = t) :
    Inv { s with
      deque := { s.deque with mTop := t + 1 }
      thief := Function.update s.thief n .idle
      log := s.log ++ [.claim (.thief n) (s.occ t.toNat)] ++
        [.deliver (.thief n) (s.occ t.toNat) t.toNat x] } := by
  subst hwin
  have hn := h.thieves n
  rw [hpc] at hn
  obtain ⟨ht, -, hitem⟩ := hn
  obtain ⟨hlt, hx⟩ := hitem rfl
  have htn : (s.top : ℤ) = s.deque.mTop := Int.toNat_of_nonneg ht
  have hroom := h.room
  have hslot := h.slots s.top (Nat.le_refl _) (by omega)
  rw [htn, ← hx] at hslot
  set s' : State α := { s with
    deque := { s.deque with mTop := s.deque.mTop + 1 }
    thief := Function.update s.thief n .idle
    log := s.log ++ [.claim (.thief n) (s.occ s.deque.mTop.toNat)] ++
      [.deliver (.thief n) (s.occ s.deque.mTop.toNat) s.deque.mTop.toNat x] } with hs'
  have htop' : s'.top = s.top + 1 := by
    show (s.deque.mTop + 1).toNat = _
    omega
  have hback' : s'.back = s.back := rfl
  have hlog : ∀ (k : ℕ) (y : ℕ × α), (pushes s.log)[k]? = some y → (pushes s'.log)[k]? = some y :=
    fun k y hy => pushes_snoc_of_some _ _ (pushes_snoc_of_some _ _ hy)
  refine ⟨?_, ?_, ?_, h.alive, ?_, ?_, ?_, ?_⟩
  · show 0 ≤ s.deque.mTop + 1
    omega
  · omega
  · rw [htop', hback']
    show s.back ≤ s.top + 1 + s.cap
    omega
  · intro i hi hi'
    exact hlog _ _ (h.slots i (by omega) hi')
  · refine h.owner.thief (t := s.deque.mTop + 1) rfl (by omega) (Or.inr ?_) hlog
    unfold State.back at hlt
    omega
  · intro m
    by_cases hm : m = n
    · subst hm
      simp only [hs', Function.update_self]
      trivial
    · simp only [hs', Function.update_of_ne hm]
      refine (h.thieves m).advance ?_ rfl
      show s.deque.mTop < s.deque.mTop + 1
      omega
  · have hideal := h.ideal
    rw [occurrences_front s.occ (show s.top < s.back by omega)] at hideal
    have hclaim := hideal.claimFront (Thread.thief n) rfl rfl
    have hdeliver := hclaim.deliver (i := s.top) (v := x) (Thread.thief n)
      (Function.update_self _ _ _)
      (pushes_snoc_of_some _ _ hslot)
    have hnone : Function.update s.holds (Thread.thief n) none = s.holds :=
      Function.update_eq_self (Thread.thief n) s.holds
    rw [Function.update_idem, hnone] at hdeliver
    rw [htop', hback']
    exact hdeliver

/-- One access of a thief. -/
theorem inv_thiefStep (h : Inv s) (n : ℕ) : Inv (thiefStep s n) := by
  have hn := h.thieves n
  unfold thiefStep
  cases hpc : s.thief n with
  | idle => exact h.thiefSilent ⟨h.top_nonneg, Int.le_refl _⟩
  | bottom t =>
      rw [hpc] at hn
      obtain ⟨h₀, h₁⟩ := hn
      simp only
      split
      · rename_i hlt
        refine h.thiefSilent ⟨h₀, h₁, fun _ => ?_⟩
        exact Int.lt_of_lt_of_le hlt h.mBottom_le_back
      · exact h.thiefSilent trivial
  | buf t =>
      rw [hpc] at hn
      obtain ⟨h₀, h₁, h₂⟩ := hn
      exact h.thiefSilent ⟨h₀, h₁, mem_bufs_self s, fun ht => ⟨h₂ ht, rfl⟩⟩
  | load t p =>
      rw [hpc] at hn
      obtain ⟨h₀, h₁, -, h₂⟩ := hn
      exact h.thiefSilent ⟨h₀, h₁, h₂⟩
  | exchange t x =>
      simp only
      split
      · rename_i hwin
        exact inv_thiefClaim h hpc hwin
      · exact h.thiefSilent trivial

/-! ## Every run -/

/-- A new deque is empty. -/
theorem inv_new (log2 : ℕ) (mem : ℕ → ℕ → α) : Inv (State.new log2 mem) := by
  have hholds : (State.new log2 mem).holds = fun _ => none := by
    funext c
    cases c <;> rfl
  refine ⟨Int.le_refl _, Nat.le_refl _, Nat.zero_le _, ?_, ?_, Int.le_refl _, fun _ => trivial, ?_⟩
  · intro p hp
    rw [List.mem_singleton.mp hp]
    exact Nat.zero_lt_one
  · intro i _ hi
    exact absurd hi (Nat.not_lt_zero i)
  · rw [hholds]
    exact Ideal.nil

/-- One step of any thread. -/
theorem inv_step (h : Inv s) {a : Act α} {s' : State α} (hs : (machine α).step s a = some s') :
    Inv s' := by
  unfold machine at hs
  have hok := h.owner
  cases a with
  | push v =>
      simp only at hs
      split at hs
      · rename_i hidle
        cases hs
        rw [hidle] at hok
        exact h.ownerLocal (by rw [hidle]; rfl) (by rw [hidle]; rfl) ⟨rfl, hok⟩
      · cases hs
  | pop =>
      simp only at hs
      split at hs
      · rename_i hidle
        cases hs
        rw [hidle] at hok
        have hok' : 0 ≤ s.deque.mBottom := hok
        refine h.ownerLocal (by rw [hidle]; rfl) (by rw [hidle]; rfl) ⟨?_, by omega⟩
        show s.deque.mBottom = s.deque.mBottom - 1 + 1
        omega
      · cases hs
  | owner => exact inv_ownerStep h hs
  | thief n =>
      cases hs
      exact inv_thiefStep h n

/-- The invariant holds in every state of every run. -/
theorem inv_run {log2 : ℕ} {mem : ℕ → ℕ → α} {as : List (Act α)}
    (h : (machine α).Run Machine.free (State.new log2 mem) as s) : Inv s :=
  h.invariant (fun _ _ _ h _ hs => inv_step h hs) (inv_new log2 mem)

/-- **Every interleaving of one owner and any number of thieves delivers exactly once**, and the
steals claim in push order. -/
theorem exactlyOnce_fifo_of_run (log2 : ℕ) (mem : ℕ → ℕ → α) (as : List (Act α)) (t : State α)
    (h : (machine α).Run Machine.free (State.new log2 mem) as t) :
    ExactlyOnce Thread.side t.log ∧ (frontClaims Thread.side t.log).Pairwise (· < ·) :=
  ⟨(inv_run h).ideal.exactlyOnce, (inv_run h).ideal.frontClaims_sorted⟩

/-- A thief reads from a one-slot buffer, a `push` replaces the buffer, and the thief's
compare-exchange still succeeds. -/
theorem exactlyOnce_fifo_of_run_retired :
    ∃ t : State ℕ, (machine ℕ).Run Machine.free (State.new 0 fun _ _ => 0)
        ([.push 7] ++ List.replicate 4 .owner ++ List.replicate 3 (.thief 0) ++ [.push 8] ++
          List.replicate 7 .owner ++ List.replicate 2 (.thief 0)) t ∧
      t.log = [.push 0 7, .push 1 8, .claim (.thief 0) 0, .deliver (.thief 0) 0 0 7] ∧
      ExactlyOnce Thread.side t.log ∧ (frontClaims Thread.side t.log).Pairwise (· < ·) := by
  have h : ((machine ℕ).exec Machine.free (State.new 0 fun _ _ => 0)
      ([.push 7] ++ List.replicate 4 .owner ++ List.replicate 3 (.thief 0) ++ [.push 8] ++
        List.replicate 7 .owner ++ List.replicate 2 (.thief 0))).map State.log =
      some [.push 0 7, .push 1 8, .claim (.thief 0) 0, .deliver (.thief 0) 0 0 7] := by
    decide
  obtain ⟨t, ht, hlog⟩ := Option.map_eq_some_iff.mp h
  have hrun := Machine.run_iff_exec.mpr ht
  exact ⟨t, hrun, hlog, exactlyOnce_fifo_of_run 0 _ _ t hrun⟩

end Libfork.Deque.ChaseLev
