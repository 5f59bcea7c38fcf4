import Libfork.Deque.Common
import Libfork.Deque.Lace.Word
import Libfork.Found.Machine

/-!
# `lace_deque` as a machine of atomic steps

One owner calls `push` and `pop`, any number of thieves call `steal`. Every access to
`m_top_split`, `m_bottom`, `m_allstolen`, `m_splitreq` and every slot access of `m_array` is one
step of the machine, and the steps of the threads interleave in any order (sequential
consistency). What a thread does between two such accesses touches only its own data, so it
belongs to the step before it.

* `LaceDeque α` — the memory of the deque; `m_array` is the memory from the slot `0` on, in both
  directions, so that an access outside the slots reads whatever is there.
* `OwnerPc`, `ThiefPc` — where a call stands, with the locals it still needs. The owner's
  `push`, `pop`, `pop_cold_path`, `shrink_shared` and `grow_shared` are inlined into one another
  as the source calls them.
* `State.log`, `State.occ`, and the occurrence carried by a call that has claimed one, are
  ghosts: no step reads them to decide anything. An item counts as pushed from the slot write of
  its push on (a thief may claim it before `push` returns), as claimed by a pop when `m_bottom` is
  published, and as claimed by a steal at its compare-exchange.

Source: `deque_lace.hpp`, `push`, `pop`, `steal`, `pop_cold_path`, `pop_empty`, `shrink_shared`,
`grow_shared`.
-/

namespace Libfork.Deque.Lace

open Libfork.Found

/-! ## The data -/

/-- The owner's private cache line. Source: `deque_lace.hpp`, `m_worker` -/
structure Worker where
  bottom : ℤ
  osplit : ℤ
  oAllstolen : Bool
deriving DecidableEq, Repr

/-- The memory of a `lace_deque`. Source: `deque_lace.hpp`, class `lace_deque` -/
structure LaceDeque (α : Type) where
  mArray : ℤ → α
  mTopSplit : BitVec 64
  mBottom : BitVec 32
  mAllstolen : Bool
  mSplitreq : Bool
  mWorker : Worker

namespace LaceDeque

variable {α : Type}

/-- A freshly constructed deque over the memory `mem`.
Source: `deque_lace.hpp`, `lace_deque::lace_deque` -/
def new (mem : ℤ → α) : LaceDeque α where
  mArray := mem
  mTopSplit := pack 0 0
  mBottom := 0
  mAllstolen := true
  mSplitreq := false
  mWorker := ⟨0, 0, true⟩

/-- `static_cast<uint32_t>(m_worker.bottom)`. -/
def bot (d : LaceDeque α) : BitVec 32 := BitVec.ofInt 32 d.mWorker.bottom

/-- A slot write. -/
def write (d : LaceDeque α) (slot : ℤ) (v : α) : LaceDeque α :=
  { d with mArray := Function.update d.mArray slot v }

/-- `m_worker.bottom = b; publish_bottom(..)`. Source: `deque_lace.hpp`, `publish_bottom` -/
def publish (d : LaceDeque α) (b : ℤ) : LaceDeque α :=
  { d with mBottom := BitVec.ofInt 32 b, mWorker := { d.mWorker with bottom := b } }

/-- `m_worker.osplit = split; m_worker.o_allstolen = false`. -/
def own (d : LaceDeque α) (split : BitVec 32) : LaceDeque α :=
  { d with mWorker := { d.mWorker with osplit := split.toNat, oAllstolen := false } }

/-- Owning a split leaves the array alone. -/
@[simp] theorem own_mArray (d : LaceDeque α) (split : BitVec 32) :
    (d.own split).mArray = d.mArray := rfl

/-- It leaves the shared word alone. -/
@[simp] theorem own_mTopSplit (d : LaceDeque α) (split : BitVec 32) :
    (d.own split).mTopSplit = d.mTopSplit := rfl

end LaceDeque

/-! ## The threads -/

/-- What the owner does after `grow_shared` returns. -/
inductive Resume (α : Type)
  /-- Finish the `push`. -/
  | push
  /-- Return `val` from the `pop` that claimed the occurrence `k` at the index `i`. -/
  | pop (k : ℕ) (i : ℤ) (val : α)

/-- The next access of the owner. -/
inductive OwnerPc (α : Type)
  /-- Between two calls. -/
  | idle
  /-- `push`: `m_top_split.store(pack(bot, bot + 1))`. -/
  | pushWord (bot : BitVec 32)
  /-- `push`: `m_allstolen.store(false)`. -/
  | pushFlag (bot : BitVec 32)
  /-- `push`: `m_splitreq.load()` after publishing the first shared item. -/
  | pushCheck (bot : BitVec 32)
  /-- `push`: `m_splitreq.store(false)`. -/
  | pushClear (bot : BitVec 32)
  /-- `push`: `m_splitreq.load()` when not all is stolen. -/
  | pushReq
  /-- `push`: `++m_worker.bottom; publish_bottom()`. -/
  | pushPublish
  /-- `grow_shared`: `m_top_split.fetch_add(diff << k_split_shift)`. -/
  | growAdd (diff newSplit : BitVec 32) (ret : Resume α)
  /-- `grow_shared`: `m_allstolen.store(false)`. -/
  | growFlag (ret : Resume α)
  /-- `grow_shared`: `m_splitreq.store(false)`. -/
  | growClear (ret : Resume α)
  /-- `pop`: `m_array[m_worker.bottom]`, after claiming `k`. -/
  | popRead (k : ℕ)
  /-- `pop` and `pop_cold_path`: `m_splitreq.load()`. -/
  | popReq (k : ℕ) (i : ℤ) (val : α)
  /-- `shrink_shared`: `m_top_split.fetch_sub(decrement << k_split_shift)`. -/
  | shrinkSub (top split : BitVec 32)
  /-- `shrink_shared`: the second `m_top_split.load()`. -/
  | shrinkFresh (split newSplit : BitVec 32)
  /-- `shrink_shared`: `m_top_split.fetch_add(correction << k_split_shift)`. -/
  | shrinkFix (corrected correction : BitVec 32)
  /-- `shrink_shared` and `pop_empty`: `m_allstolen.store(true)`. -/
  | shrinkEmpty
  /-- `pop_cold_path`: `--m_worker.bottom; publish_bottom()`. -/
  | coldPublish
  /-- `pop_cold_path`: `m_array[mask_index(m_worker.bottom)]`, after claiming `k`. -/
  | coldRead (k : ℕ)

/-- The next access of a thief. -/
inductive ThiefPc
  /-- Between two calls; the first access of a call is `m_allstolen.load()`. -/
  | idle
  /-- `m_top_split.load()`. -/
  | load
  /-- `m_top_split.compare_exchange_strong(old_v, new_v)`. -/
  | exchange (oldV : BitVec 64)
  /-- `m_array[mask_index(s.top)]`, after claiming `k`. -/
  | read (top : BitVec 32) (k : ℕ)
  /-- `m_splitreq.store(true)`. -/
  | request
deriving DecidableEq, Repr

/-- The deque, its threads, and the ghosts. -/
structure State (α : Type) where
  deque : LaceDeque α
  owner : OwnerPc α
  thief : ℕ → ThiefPc
  /-- Ghost: the last occurrence pushed at an index. -/
  occ : ℕ → ℕ
  /-- Ghost: what has happened so far. -/
  log : List (Event ℕ α Thread)

/-- A new deque that no thread is using. -/
def State.new {α : Type} (mem : ℤ → α) : State α where
  deque := LaceDeque.new mem
  owner := .idle
  thief := fun _ => .idle
  occ := fun _ => 0
  log := []

/-- Who takes the next step, and which call it starts. -/
inductive Act (α : Type)
  /-- The owner calls `push(v)`. -/
  | push (v : α)
  /-- The owner calls `pop()`. -/
  | pop
  /-- The owner's call goes on. -/
  | owner
  /-- The `n`-th thief takes a step; a thief between two calls starts a `steal()`. -/
  | thief (n : ℕ)
deriving DecidableEq, Repr

/-! ## The steps -/

section steps

variable {α : Type} (cap : Capacity)

/-- `push(v)` up to its first access, the slot write. -/
def pushCall (s : State α) (v : α) : State α :=
  let bot := s.deque.bot
  { s with
    deque := s.deque.write (maskIndex cap bot.toNat) v
    owner := if s.deque.mWorker.oAllstolen then .pushWord bot else .pushReq
    occ := Function.update s.occ bot.toNat (pushes s.log).length
    log := s.log ++ [.push bot.toNat v] }

/-- `pop()` up to its first access: the published decrement on the fast path, the return on an
all-stolen deque, the first load of `shrink_shared` otherwise. -/
def popCall (s : State α) : State α :=
  let w := s.deque.mWorker
  if w.bottom > w.osplit then
    let k := s.occ (w.bottom - 1).toNat
    { s with
      deque := s.deque.publish (w.bottom - 1)
      owner := .popRead k
      log := s.log ++ [.claim .owner k] }
  else if w.oAllstolen then
    { s with log := s.log ++ [.empty] }
  else
    let v := unpack s.deque.mTopSplit
    { s with owner := if v.top ≠ v.split then .shrinkSub v.top v.split else .shrinkEmpty }

/-- The return of `grow_shared`. -/
def ret (s : State α) : Resume α → State α
  | .push => { s with owner := .pushPublish }
  | .pop k i val =>
      { s with owner := .idle, log := s.log ++ [.deliver .owner k i.toNat val] }

/-- `grow_shared()` up to its first access. -/
def growCall (s : State α) (r : Resume α) : State α :=
  let split := BitVec.ofInt 32 s.deque.mWorker.osplit
  let bot := s.deque.bot
  if bot ≤ split then ret s r
  else
    let diff := growDiff bot split
    { s with owner := .growAdd diff (split + diff) r }

/-- One access of the owner, `none` between two calls. -/
def ownerStep (s : State α) : Option (State α) :=
  let d := s.deque
  match s.owner with
  | .idle => none
  | .pushWord bot =>
      some { s with deque := { d with mTopSplit := pack bot (bot + 1) }, owner := .pushFlag bot }
  | .pushFlag bot =>
      some { s with deque := { d with mAllstolen := false }, owner := .pushCheck bot }
  | .pushCheck bot =>
      if d.mSplitreq then some { s with owner := .pushClear bot }
      else some { s with deque := d.own (bot + 1), owner := .pushPublish }
  | .pushClear bot =>
      some { s with
        deque := { d with mSplitreq := false }.own (bot + 1)
        owner := .pushPublish }
  | .pushReq =>
      if d.mSplitreq then some (growCall s .push) else some { s with owner := .pushPublish }
  | .pushPublish => some { s with deque := d.publish (d.mWorker.bottom + 1), owner := .idle }
  | .growAdd diff newSplit r =>
      some { s with
        deque := { d with mTopSplit := d.mTopSplit + onSplit diff }.own newSplit
        owner := .growFlag r }
  | .growFlag r =>
      some { s with deque := { d with mAllstolen := false }, owner := .growClear r }
  | .growClear r => some (ret { s with deque := { d with mSplitreq := false } } r)
  | .popRead k =>
      some { s with owner := .popReq k d.mWorker.bottom (d.mArray d.mWorker.bottom) }
  | .popReq k i val =>
      if d.mSplitreq then some (growCall s (.pop k i val)) else some (ret s (.pop k i val))
  | .shrinkSub top split =>
      let newSplit := midpoint top split
      some { s with
        deque := { d with mTopSplit := d.mTopSplit - onSplit (split - newSplit) }
        owner := .shrinkFresh split newSplit }
  | .shrinkFresh split newSplit =>
      let freshT := (unpack d.mTopSplit).top
      if freshT ≠ split then
        if freshT > newSplit then
          let corrected := correctedSplit freshT split
          some { s with owner := .shrinkFix corrected (corrected - newSplit) }
        else
          some { s with
            deque := { d with mWorker := { d.mWorker with osplit := newSplit.toNat } }
            owner := .coldPublish }
      else some { s with owner := .shrinkEmpty }
  | .shrinkFix corrected correction =>
      some { s with
        deque :=
          { d with
            mTopSplit := d.mTopSplit + onSplit correction
            mWorker := { d.mWorker with osplit := corrected.toNat } }
        owner := .coldPublish }
  | .shrinkEmpty =>
      some { s with
        deque := { d with mAllstolen := true, mWorker := { d.mWorker with oAllstolen := true } }
        owner := .idle
        log := s.log ++ [.empty] }
  | .coldPublish =>
      let k := s.occ (d.mWorker.bottom - 1).toNat
      some { s with
        deque := d.publish (d.mWorker.bottom - 1)
        owner := .coldRead k
        log := s.log ++ [.claim .owner k] }
  | .coldRead k =>
      let i := d.mWorker.bottom
      some { s with owner := .popReq k i (d.mArray (maskIndex cap i)) }

/-- One access of the thief `n`. -/
def thiefStep (s : State α) (n : ℕ) : State α :=
  let d := s.deque
  let goto := fun pc => { s with thief := Function.update s.thief n pc }
  match s.thief n with
  | .idle => if d.mAllstolen then s else goto .load
  | .load =>
      let v := unpack d.mTopSplit
      if 0 < (v.split - v.top).toInt then goto (.exchange d.mTopSplit) else goto .request
  | .exchange oldV =>
      if d.mTopSplit = oldV then
        let v := unpack oldV
        let k := s.occ v.top.toNat
        { s with
          deque := { d with mTopSplit := pack (v.top + 1) v.split }
          thief := Function.update s.thief n (.read v.top k)
          log := s.log ++ [.claim (.thief n) k] }
      else goto .idle
  | .read top k =>
      { s with
        thief := Function.update s.thief n .idle
        log := s.log ++
          [.deliver (.thief n) k top.toNat (d.mArray (maskIndex cap top.toNat))] }
  | .request =>
      { s with
        deque := { d with mSplitreq := true }
        thief := Function.update s.thief n .idle }

/-- The machine of one owner and any number of thieves. -/
def machine : Machine (State α) (Act α) where
  step s
    | .push v => match s.owner with
        | .idle => some (pushCall cap s v)
        | _ => none
    | .pop => match s.owner with
        | .idle => some (popCall s)
        | _ => none
    | .owner => ownerStep cap s
    | .thief n => some (thiefStep cap s n)

end steps

end Libfork.Deque.Lace
