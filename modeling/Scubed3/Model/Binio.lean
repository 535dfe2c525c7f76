import Scubed3.ToMathlib.Layout
import Mathlib.Tactic.Ring
import Mathlib.Tactic.Linarith

/-! # Big-endian integers in byte buffers

`binio.c` writes an integer most significant byte first and reads it back with shifts and ors.
A number is held in a `uint32_t` or `uint64_t` there, so a written value is read back modulo the
width. What is written is given as the bytes to store. Only the big-endian 32 and 64 bit forms are used by the block format.
-/

namespace Scubed3

abbrev Bytes := ℕ → UInt8

namespace Binio

open Memory

/-- The bytes `binio_write_uint32_be` stores. -/
def uint32Be (s : ℕ) : List UInt8 :=
  [UInt8.ofNat (s >>> 24), UInt8.ofNat (s >>> 16), UInt8.ofNat (s >>> 8), UInt8.ofNat s]

/-- The bytes `binio_write_uint64_be` stores. -/
def uint64Be (s : ℕ) : List UInt8 :=
  [UInt8.ofNat (s >>> 56), UInt8.ofNat (s >>> 48), UInt8.ofNat (s >>> 40), UInt8.ofNat (s >>> 32),
    UInt8.ofNat (s >>> 24), UInt8.ofNat (s >>> 16), UInt8.ofNat (s >>> 8), UInt8.ofNat s]

def readUint32Be (m : Bytes) (off : ℕ) : ℕ :=
  (m off).toNat <<< 24 ||| (m (off + 1)).toNat <<< 16 ||| (m (off + 2)).toNat <<< 8 ||| (m (off + 3)).toNat

def readUint64Be (m : Bytes) (off : ℕ) : ℕ :=
  (m off).toNat <<< 56 ||| (m (off + 1)).toNat <<< 48 ||| (m (off + 2)).toNat <<< 40 |||
    (m (off + 3)).toNat <<< 32 ||| (m (off + 4)).toNat <<< 24 ||| (m (off + 5)).toNat <<< 16 |||
    (m (off + 6)).toNat <<< 8 ||| (m (off + 7)).toNat

@[simp] theorem uint32Be_length (s : ℕ) : (uint32Be s).length = 4 := rfl

@[simp] theorem uint64Be_length (s : ℕ) : (uint64Be s).length = 8 := rfl

/-- Four bytes joined with shifts and ors are the base 256 number they spell. -/
theorem join4 (a b c d : ℕ) (hb : b < 256) (hc : c < 256) (hd : d < 256) :
    a <<< 24 ||| b <<< 16 ||| c <<< 8 ||| d = ((a * 256 + b) * 256 + c) * 256 + d := by
  have low : c <<< 8 ||| d = c * 256 + d := by
    rw [← Nat.shiftLeft_add_eq_or_of_lt (i := 8) (by omega), Nat.shiftLeft_eq]
  have middle : b <<< 16 ||| (c * 256 + d) = b * 65536 + (c * 256 + d) := by
    rw [← Nat.shiftLeft_add_eq_or_of_lt (i := 16) (by omega), Nat.shiftLeft_eq]
  have high : a <<< 24 ||| (b * 65536 + (c * 256 + d)) = a * 16777216 + (b * 65536 + (c * 256 + d)) := by
    rw [← Nat.shiftLeft_add_eq_or_of_lt (i := 24) (by omega), Nat.shiftLeft_eq]
  rw [Nat.or_assoc, Nat.or_assoc, low, middle, high]
  ring

theorem readUint32Be_eq (m : Bytes) (off : ℕ) :
    readUint32Be m off =
      (((m off).toNat * 256 + (m (off + 1)).toNat) * 256 + (m (off + 2)).toNat) * 256 +
        (m (off + 3)).toNat :=
  join4 _ _ _ _ (UInt8.toNat_lt _) (UInt8.toNat_lt _) (UInt8.toNat_lt _)

theorem readUint32Be_lt (m : Bytes) (off : ℕ) : readUint32Be m off < 2 ^ 32 := by
  have b0 := UInt8.toNat_lt (m off)
  have b1 := UInt8.toNat_lt (m (off + 1))
  have b2 := UInt8.toNat_lt (m (off + 2))
  have b3 := UInt8.toNat_lt (m (off + 3))
  rw [readUint32Be_eq]
  omega

/-- A 64-bit number is read as its two 32-bit halves. -/
theorem readUint64Be_eq (m : Bytes) (off : ℕ) :
    readUint64Be m off = readUint32Be m off * 2 ^ 32 + readUint32Be m (off + 4) := by
  have bound := readUint32Be_lt m (off + 4)
  have split : readUint64Be m off = readUint32Be m off <<< 32 ||| readUint32Be m (off + 4) := by
    simp only [readUint64Be, readUint32Be, Nat.shiftLeft_or_distrib, ← Nat.shiftLeft_add, Nat.or_assoc,
      Nat.add_assoc, Nat.reduceAdd]
  rw [split, ← Nat.shiftLeft_add_eq_or_of_lt bound, Nat.shiftLeft_eq]

/-- A 32-bit integer is read back from the bytes written for it. -/
theorem readUint32Be_of_readList {m : Bytes} {off s : ℕ} (bytes : readList m off 4 = uint32Be s) :
    readUint32Be m off = s % 2 ^ 32 := by
  have byte (i : ℕ) (bound : i < 4) : m (off + i) = (uint32Be s)[i] := by
    simp only [← bytes, readList, List.getElem_map, List.getElem_range]
  have first : m off = (uint32Be s)[0] := byte 0 (by decide)
  rw [readUint32Be_eq, first, byte 1 (by decide), byte 2 (by decide), byte 3 (by decide)]
  simp only [uint32Be, List.getElem_cons_zero, List.getElem_cons_succ, UInt8.toNat_ofNat']
  omega

theorem readUint64Be_of_readList {m : Bytes} {off s : ℕ} (bytes : readList m off 8 = uint64Be s) :
    readUint64Be m off = s % 2 ^ 64 := by
  have byte (i : ℕ) (bound : i < 8) : m (off + i) = (uint64Be s)[i] := by
    simp only [← bytes, readList, List.getElem_map, List.getElem_range]
  have first : m off = (uint64Be s)[0] := byte 0 (by decide)
  rw [readUint64Be_eq, readUint32Be_eq, readUint32Be_eq]
  simp only [Nat.add_assoc, Nat.reduceAdd]
  rw [first, byte 1 (by decide), byte 2 (by decide), byte 3 (by decide), byte 4 (by decide),
    byte 5 (by decide), byte 6 (by decide), byte 7 (by decide)]
  simp only [uint64Be, List.getElem_cons_zero, List.getElem_cons_succ, UInt8.toNat_ofNat']
  omega

theorem readUint32Be_congr {m m' : Bytes} {off : ℕ}
    (same : ∀ i, off ≤ i → i < off + 4 → m i = m' i) : readUint32Be m off = readUint32Be m' off := by
  simp only [readUint32Be, same off (by omega) (by omega), same (off + 1) (by omega) (by omega),
    same (off + 2) (by omega) (by omega), same (off + 3) (by omega) (by omega)]

theorem readUint64Be_congr {m m' : Bytes} {off : ℕ}
    (same : ∀ i, off ≤ i → i < off + 8 → m i = m' i) : readUint64Be m off = readUint64Be m' off := by
  rw [readUint64Be_eq, readUint64Be_eq,
    readUint32Be_congr (fun i lower upper => same i lower (by omega)),
    readUint32Be_congr (fun i lower upper => same i (by omega) (by omega))]

/-- The fields of the loop that writes `count` consecutive 32-bit words. -/
def words (off count : ℕ) (word : ℕ → ℕ) : List (ℕ × List UInt8) :=
  (List.range count).map fun i => (off + 4 * i, uint32Be (word i))

theorem mem_words (off : ℕ) {count i : ℕ} (word : ℕ → ℕ) (bound : i < count) :
    (off + 4 * i, uint32Be (word i)) ∈ words off count word :=
  List.mem_map.mpr ⟨i, List.mem_range.mpr bound, rfl⟩

theorem words_tiles (off count : ℕ) (word : ℕ → ℕ) : Tiles off (words off count word) (off + 4 * count) :=
  Tiles.range count fun _ => rfl

end Binio

end Scubed3
