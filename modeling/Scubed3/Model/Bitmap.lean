import Scubed3.Model.BlockioInfo
import Scubed3.Model.Binio

/-! # Bitmaps

`bitmap.c` keeps one bit for each macroblock of the base device in 32-bit words. A partition uses a
bitmap to record which macroblocks are its own.
-/

namespace Scubed3

/-- `bitmap_t`. Only the words the bitmap owns are ever looked at. -/
structure Bitmap where
  noBits : ℕ
  noSet : ℕ := 0
  bits : ℕ → BitVec 32 := fun _ => 0

namespace Bitmap

/-- The number of words, `(b->no_bits+31)/32`. -/
def words (noBits : ℕ) : ℕ := (noBits + 31) % 2 ^ 32 / 32

/-- `bitmap_init`. -/
def init (noBits : ℕ) : Bitmap := { noBits }

/-- `bitmap_size`. -/
def size (b : Bitmap) : ℕ := words b.noBits * 4

/-- `bitmap_getbit`. -/
def getbit (b : Bitmap) (index : ℕ) : Except Failure Bool := do
  check (index < b.noBits) "b && index < b->no_bits"
  return b.bits (index / 32) &&& 1#32 <<< (index % 32) != 0

/-- `bitmap_getbits`. -/
def getbits (b : Bitmap) (offset size : ℕ) : Except Failure (BitVec 32) := do
  check (offset < b.noBits) "b && offset < b->no_bits"
  check (offset + size ≤ b.noBits) "offset + size <= b->no_bits"
  check (size < 32) "size < 8*sizeof(uint32_t)"
  check (size ≠ 0) "size"
  let dword := offset / 32
  let bit := offset % 32
  let res := b.bits dword >>> bit
  if bit + size < 32 then return res &&& 0xFFFFFFFF#32 >>> (32 - size)
  else if bit + size > 32 then
    return (res ||| b.bits (dword + 1) <<< (bit + size - 32)) &&& 0xFFFFFFFF#32 >>> (32 - size)
  else return res

/-- `bitmap_setbit_safe`. -/
def setbitSafe (b : Bitmap) (index : ℕ) : Except Failure Bitmap := do
  check (index < b.noBits) "index < b->no_bits"
  return { b with
    bits := Function.update b.bits (index / 32) (b.bits (index / 32) ||| 1#32 <<< (index % 32))
    noSet := b.noSet + 1 }

/-- `bitmap_clearbit_safe`. -/
def clearbitSafe (b : Bitmap) (index : ℕ) : Except Failure Bitmap := do
  check (index < b.noBits) "index < b->no_bits"
  let isSet ← b.getbit index
  return { b with
    bits := Function.update b.bits (index / 32) (b.bits (index / 32) &&& ~~~(1#32 <<< (index % 32)))
    noSet := if isSet then b.noSet - 1 else b.noSet }

/-- `__builtin_popcount`. -/
def popcount (word : BitVec 32) : ℕ := (List.range 32).countP word.getLsbD

/-- `bitmap_read`. -/
def read (b : Bitmap) (m : Bytes) (off : ℕ) : Bitmap :=
  let bits i := if i < words b.noBits then BitVec.ofNat 32 (Binio.readUint32Be m (off + 4 * i)) else b.bits i
  { b with bits, noSet := ((List.range (words b.noBits)).map fun i => popcount (bits i)).sum }

/-- A bitmap of known words, with the number of set bits counted. -/
def ofWords (noBits : ℕ) (bits : ℕ → BitVec 32) : Bitmap :=
  { noBits, bits, noSet := ((List.range (words noBits)).map fun i => popcount (bits i)).sum }

theorem read_eq (b : Bitmap) (m : Bytes) (off : ℕ) : b.read m off = ofWords b.noBits fun i =>
    if i < words b.noBits then BitVec.ofNat 32 (Binio.readUint32Be m (off + 4 * i)) else b.bits i := rfl

theorem read_congr {b : Bitmap} {m m' : Bytes} {off : ℕ}
    (same : ∀ i < words b.noBits, Binio.readUint32Be m (off + 4 * i) = Binio.readUint32Be m' (off + 4 * i)) :
    b.read m off = b.read m' off := by
  rw [read_eq, read_eq]
  refine congrArg (ofWords b.noBits) (funext fun i => ?_)
  by_cases bound : i < words b.noBits
  · rw [if_pos bound, if_pos bound, same i bound]
  · rw [if_neg bound, if_neg bound]

/-- A bitmap that is read replaces the one that was there. -/
theorem read_read (b : Bitmap) (m m' : Bytes) (off off' : ℕ) : (b.read m off).read m' off' = b.read m' off' := by
  have size : (b.read m off).noBits = b.noBits := rfl
  rw [read_eq (b.read m off), read_eq b m' off', size]
  refine congrArg (ofWords b.noBits) (funext fun i => ?_)
  by_cases bound : i < words b.noBits
  · rw [if_pos bound, if_pos bound]
  · rw [if_neg bound, if_neg bound]
    exact if_neg bound

/-- The words that `bitmap_write` stores at `off`. -/
def write (off : ℕ) (b : Bitmap) : List (ℕ × List UInt8) :=
  Binio.words off (words b.noBits) fun i => (b.bits i).toNat

/-- The bit of macroblock `index`. -/
def used (b : Bitmap) (index : ℕ) : Bool := (b.bits (index / 32)).getLsbD (index % 32)

theorem and_one (word : BitVec 32) : word &&& 1#32 = if word.getLsbD 0 then 1 else 0 := by
  apply BitVec.eq_of_getLsbD_eq
  intro i bound
  cases i with
  | zero => cases h : word.getLsbD 0 <;> simp_all
  | succ i => split <;> simp

/-- Reading a single bit. -/
theorem getbits_one {b : Bitmap} {index : ℕ} (bound : index < b.noBits) :
    b.getbits index 1 = .ok (if b.used index then 1 else 0) := by
  have low : (b.bits (index / 32) >>> (index % 32)) &&& 1#32 = if b.used index then 1 else 0 := by
    rw [and_one, BitVec.getLsbD_ushiftRight, Nat.add_zero, used]
  unfold getbits
  rw [check_of _ _ bound, check_of _ _ (by omega), check_of _ _ (by decide), check_of _ _ (by decide)]
  change (if _ then _ else if _ then _ else _) = _
  by_cases inner : index % 32 + 1 < 32
  · rw [if_pos inner]
    exact congrArg Except.ok low
  · -- the last bit of a word is not masked; nothing is left above it
    have top : index % 32 = 31 := by omega
    rw [if_neg inner, if_neg (by omega)]
    refine congrArg Except.ok (Eq.trans ?_ low)
    rw [top]
    apply BitVec.eq_of_getLsbD_eq
    intro i iBound
    cases i with
    | zero => simp
    | succ i =>
      have above : (b.bits (index / 32)).getLsbD (31 + (i + 1)) = false := BitVec.getLsbD_of_ge _ _ (by omega)
      simp [above]

theorem used_setbitSafe {b b' : Bitmap} {index : ℕ} (set : b.setbitSafe index = .ok b') (other : ℕ) :
    b'.used other = (b.used other || other == index) := by
  unfold setbitSafe at set
  by_cases bound : index < b.noBits
  · rw [check_of _ _ bound] at set
    cases set
    rw [used, used]
    by_cases sameWord : other / 32 = index / 32
    · dsimp only
      rw [sameWord, Function.update_self, BitVec.getLsbD_or, ← BitVec.twoPow_eq, BitVec.getLsbD_twoPow]
      have same : (index % 32 = other % 32) ↔ other = index := by omega
      have small : index % 32 < 32 := Nat.mod_lt _ (by decide)
      simp [small, same, beq_eq_decide]
    · have different : other ≠ index := fun same => sameWord (by rw [same])
      dsimp only
      rw [Function.update_of_ne sameWord, beq_false_of_ne different, Bool.or_false]
  · simp [check, bound] at set

end Bitmap

end Scubed3
