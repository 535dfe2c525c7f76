import Scubed3.Model.BlockioInfo
import Mathlib

/-! # Random numbers below a bound

`random.c` draws words of 32 bits. A word above `limit` is thrown away, so that the remainder of the others is one of
`count` equally likely numbers. All arithmetic is in 32 bits.
-/

namespace Scubed3.Random

/-- `random_uint32`. -/
def randomUint32 : Draw Failure (BitVec 32) := do
  let word ← Draw.draw (2 ^ 32)
  return BitVec.ofNat 32 word

/-- The `limit` of `random_custom`. -/
def limit (count : BitVec 32) : BitVec 32 := count * ((0xFFFFFFFF#32 - count + 1#32) / count) + count - 1#32

/-- The loop of `random_custom`, for at most `fuel` words, and the remainder. -/
def randomWord (count : BitVec 32) : (fuel : ℕ) → Draw Failure (BitVec 32)
  | 0 => .starve
  | fuel + 1 => do
    let tmp ← randomUint32
    if tmp > limit count then randomWord count fuel else return tmp % count

/-- `random_custom`. -/
def randomCustom (fuel : ℕ) (count : BitVec 32) : Draw Failure (BitVec 32) := do
  check (count ≠ 0) "count"
  randomWord count fuel

end Scubed3.Random
