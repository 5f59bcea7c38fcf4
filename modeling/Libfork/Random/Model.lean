import Mathlib.Data.BitVec
import Mathlib.Data.List.Basic
import Mathlib.Logic.Function.Iterate
import Mathlib.Tactic.Common

/-!
# The generator of the pools

The pseudo random number generator xoshiro256** of `random.hpp`, and the generators the pools give
to their workers.

* `call` — `operator()`: the number drawn and the state left; `next` is the state alone.
* `jumpImpl`, `jump`, `longJump` — the loops over the bits of the jump constants.
* `run` — any sequence of draws and jumps.
* `workerRngs` — the generators the constructors of `busy_pool` and `lazy_pool` hand out: each
  worker gets a copy, and the pool's own generator takes a long jump after each.
-/

namespace Libfork.Random

/-- `xoshiro`, with `m_state` as four words. -/
@[ext] structure Xoshiro where
  s0 : BitVec 64
  s1 : BitVec 64
  s2 : BitVec 64
  s3 : BitVec 64
deriving DecidableEq, Repr

/-- `rotl`. -/
def rotl (val : BitVec 64) (bits : ℕ) : BitVec 64 := val <<< bits ||| val >>> (64 - bits)

namespace Xoshiro

/-- The fixed default seed. -/
def default : Xoshiro :=
  ⟨0x8D0B73B52EA17D89, 0x2AA426A407C2B04F, 0xF513614E4798928A, 0xA65E479EC5B49D41⟩

/-- The state in which the generator is stuck. -/
def allZero : Xoshiro := ⟨0, 0, 0, 0⟩

/-- `operator()`: the result, and the state after it. -/
def call (x : Xoshiro) : BitVec 64 × Xoshiro :=
  let result := rotl (x.s1 * 5) 7 * 9
  let temp := x.s1 <<< 17
  let s2 := x.s2 ^^^ x.s0
  let s3 := x.s3 ^^^ x.s1
  let s1 := x.s1 ^^^ s2
  let s0 := x.s0 ^^^ s3
  let s2 := s2 ^^^ temp
  let s3 := rotl s3 45
  (result, ⟨s0, s1, s2, s3⟩)

/-- The state `operator()` leaves. -/
def next (x : Xoshiro) : Xoshiro := x.call.2

/-- `s[i] ^= m_state[i]` for the four words. -/
def xorWords (s m_state : Xoshiro) : Xoshiro :=
  ⟨s.s0 ^^^ m_state.s0, s.s1 ^^^ m_state.s1, s.s2 ^^^ m_state.s2, s.s3 ^^^ m_state.s3⟩

/-- One turn of the inner loop of `jump_impl`, on `s` and the generator. -/
def jumpBit (jump : BitVec 64) (p : Xoshiro × Xoshiro) (bit : ℕ) : Xoshiro × Xoshiro :=
  (if jump &&& (1#64 <<< bit) ≠ 0 then xorWords p.1 p.2 else p.1, p.2.next)

/-- One turn of the outer loop of `jump_impl`. -/
def jumpWord (p : Xoshiro × Xoshiro) (jump : BitVec 64) : Xoshiro × Xoshiro :=
  (List.range 64).foldl (jumpBit jump) p

/-- `jump_impl`. -/
def jumpImpl (jumpArray : List (BitVec 64)) (x : Xoshiro) : Xoshiro :=
  (jumpArray.foldl jumpWord (allZero, x)).1

/-- The constants of `jump`. -/
def jumpArray : List (BitVec 64) :=
  [0x180ec6d33cfd0aba, 0xd5a61266f0c9392c, 0xa9582618e03fc9aa, 0x39abdc4529b1661c]

/-- The constants of `long_jump`. -/
def longJumpArray : List (BitVec 64) :=
  [0x76e15d3efefdcbbf, 0xc5004e441c522fb3, 0x77710069854ee241, 0x39109bb02acbe635]

/-- `jump`. -/
def jump (x : Xoshiro) : Xoshiro := jumpImpl jumpArray x

/-- `long_jump`. -/
def longJump (x : Xoshiro) : Xoshiro := jumpImpl longJumpArray x

/-- A call on a generator. -/
inductive Op
  | call
  | jump
  | longJump
deriving DecidableEq, Repr

def Op.apply : Op → Xoshiro → Xoshiro
  | call, x => x.next
  | jump, x => x.jump
  | longJump, x => x.longJump

/-- The state after a sequence of calls. -/
def run (ops : List Op) (x : Xoshiro) : Xoshiro := ops.foldl (fun y op => op.apply y) x

/-- No operation leaves the state as it is. -/
@[simp] theorem run_nil (x : Xoshiro) : run [] x = x := rfl

/-- The first operation comes first. -/
@[simp] theorem run_cons (op : Op) (ops : List Op) (x : Xoshiro) :
    run (op :: ops) x = run ops (op.apply x) := rfl

/-- The loop of the constructors of the pools over `n` workers, from the pool's generator `rng`:
the copies handed out. -/
def workerRngs : ℕ → Xoshiro → List Xoshiro
  | 0, _ => []
  | n + 1, rng => rng :: workerRngs n rng.longJump

end Xoshiro

end Libfork.Random
