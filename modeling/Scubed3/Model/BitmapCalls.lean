import Scubed3.Model.Bitmap
import Scubed3.ToMathlib.Except

/-! # The calls of `bitmap.c`

The same functions with every access to `b->bits` checked against the array that `bitmap_init` allocates, and with the
count in 32 bits.
-/

namespace Scubed3.Bitmap.Checked

/-- Read `b->bits[i]`. -/
def word (b : Bitmap) (i : ℕ) : Except Failure (BitVec 32) :=
  if i < words b.noBits then .ok (b.bits i) else .error (.outOfBounds "b->bits")

/-- Write `b->bits[i]`. -/
def setWord (b : Bitmap) (i : ℕ) (word : BitVec 32) : Except Failure Bitmap :=
  if i < words b.noBits then .ok { b with bits := Function.update b.bits i word } else .error (.outOfBounds "b->bits")

/-- The loop of `bitmap_setbits`, which sets whole words. -/
def setWords : (turns i : ℕ) → Bitmap → Except Failure Bitmap
  | 0, _, b => return b
  | turns + 1, i, b => do
    let b ← setWord b i 0xFFFFFFFF#32
    setWords turns (i + 1) b

/-- `bitmap_setbits`. -/
def setbits (b : Bitmap) (set : ℕ) : Except Failure Bitmap := do
  check (set ≤ b.noBits) "b && set <= b->no_bits"
  let bits := if b.noSet ≠ 0 then fun i => if i < words b.noBits then 0 else b.bits i else b.bits
  let b ← setWords (set / 32) 0 { b with bits, noSet := set }
  let i := set % 32
  if i ≠ 0 then setWord b (set / 32) (0xFFFFFFFF#32 >>> (32 - i)) else return b

/-- `bitmap_getbit`. -/
def getbit (b : Bitmap) (index : ℕ) : Except Failure Bool := do
  check (index < b.noBits) "b && index < b->no_bits"
  let word ← word b (index / 32)
  return word &&& 1#32 <<< (index % 32) != 0

/-- `bitmap_getbits`. -/
def getbits (b : Bitmap) (offset size : ℕ) : Except Failure (BitVec 32) := do
  check (offset < b.noBits) "b && offset < b->no_bits"
  check (offset + size ≤ b.noBits) "offset + size <= b->no_bits"
  check (size < 32) "size < 8*sizeof(uint32_t)"
  check (size ≠ 0) "size"
  let dword := offset / 32
  let bit := offset % 32
  let low ← word b dword
  let res := low >>> bit
  if bit + size < 32 then return res &&& 0xFFFFFFFF#32 >>> (32 - size)
  else if bit + size > 32 then do
    let high ← word b (dword + 1)
    return (res ||| high <<< (bit + size - 32)) &&& 0xFFFFFFFF#32 >>> (32 - size)
  else return res

/-- `b->bits[index/32] |= 1<<(index%32)`. -/
def orBit (b : Bitmap) (index : ℕ) : Except Failure Bitmap := do
  let word ← word b (index / 32)
  setWord b (index / 32) (word ||| 1#32 <<< (index % 32))

/-- `b->bits[index/32] &= ~(1<<(index%32))`. -/
def clearBit (b : Bitmap) (index : ℕ) : Except Failure Bitmap := do
  let word ← word b (index / 32)
  setWord b (index / 32) (word &&& ~~~(1#32 <<< (index % 32)))

/-- `b->no_set++`. -/
def increment (b : Bitmap) : Bitmap := { b with noSet := (b.noSet + 1) % 2 ^ 32 }

/-- `b->no_set--`. -/
def decrement (b : Bitmap) : Bitmap := { b with noSet := (b.noSet + 2 ^ 32 - 1) % 2 ^ 32 }

/-- `bitmap_setbit`. -/
def setbit (b : Bitmap) (index : ℕ) : Except Failure Bitmap := do
  check (index < b.noBits) "index < b->no_bits"
  let isSet ← getbit b index
  check (isSet = false) "!bitmap_getbit(b, index)"
  let b ← orBit b index
  return increment b

/-- `bitmap_setbit_safe`. -/
def setbitSafe (b : Bitmap) (index : ℕ) : Except Failure Bitmap := do
  check (index < b.noBits) "index < b->no_bits"
  let b ← orBit b index
  return increment b

/-- `bitmap_clearbit`. -/
def clearbit (b : Bitmap) (index : ℕ) : Except Failure Bitmap := do
  check (index < b.noBits) "index < b->no_bits"
  let isSet ← getbit b index
  check (isSet = true) "bitmap_getbit(b, index)"
  check (b.noSet ≠ 0) "b->no_set"
  let b ← clearBit b index
  return decrement b

/-- `bitmap_clearbit_safe`. -/
def clearbitSafe (b : Bitmap) (index : ℕ) : Except Failure Bitmap := do
  check (index < b.noBits) "index < b->no_bits"
  let isSet ← getbit b index
  clearBit (if isSet then decrement b else b) index

/-- `bitmap_count`. -/
def count (b : Bitmap) : ℕ := b.noSet

/-- The calls that change a bitmap. `bitmap_read` reads its words from the bytes `image`. -/
inductive Call where
  | setbits (set : ℕ)
  | setbit (index : ℕ)
  | setbitSafe (index : ℕ)
  | clearbit (index : ℕ)
  | clearbitSafe (index : ℕ)
  | read (image : Bytes)

/-- Make a call. -/
def Call.run (b : Bitmap) : Call → Except Failure Bitmap
  | setbits set => Checked.setbits b set
  | setbit index => Checked.setbit b index
  | setbitSafe index => Checked.setbitSafe b index
  | clearbit index => Checked.clearbit b index
  | clearbitSafe index => Checked.clearbitSafe b index
  | read image => .ok (b.read image 0)

end Scubed3.Bitmap.Checked
