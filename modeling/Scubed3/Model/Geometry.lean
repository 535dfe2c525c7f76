import Scubed3.Model.Bitmap
import Mathlib.Tactic.IntervalCases

/-! # The geometry of a base device

A macroblock consists of `mmpm + 1` mesoblocks, the first of which is its index block. The index
block holds a header, one 32-bit index for every other mesoblock, and a bitmap with one bit for
every macroblock of the device. `initFile` computes the sizes from the two logarithms, `devCheck` is
what opening a partition asserts about them. A geometry that passes both is `Sound`: the parts of the
index block fill it exactly.
-/

namespace Scubed3

/-- The fields of `blockio_t` that do not change. -/
structure Geometry where
  macroblockLog : ℕ
  mesoblkLog : ℕ
  /-- Mesoblocks per macroblock, without the index block. -/
  mmpm : ℕ
  bitmapOffset : ℕ
  maxMacroblocks : ℕ
  totalMacroblocks : ℕ

namespace Geometry

/-- The arithmetic of `blockio_init_file`, for a backing file of `size` bytes. -/
def initFile (macroblockLog mesoblkLog size : ℕ) : Except Failure Geometry := do
  check (macroblockLog < 8 * 4) "macroblock_log < 8*sizeof(uint32_t)"
  if macroblockLog < mesoblkLog then throw (.undefined "1<<(b->macroblock_log - b->mesoblk_log)")
  let mmpm := (1 <<< (macroblockLog - mesoblkLog) - 1) % 2 ^ 16
  let bitmapOffset := (256 + 4 <<< (macroblockLog - mesoblkLog)) % 2 ^ 32
  if bitmapOffset ≥ 1 <<< mesoblkLog then throw (.fatal "not enough room for indexblock in mesoblock")
  let maxMacroblocks := (1 <<< mesoblkLog - bitmapOffset) <<< 3 % 2 ^ 32
  if size >>> macroblockLog > maxMacroblocks then throw (.fatal "device is too large")
  return { macroblockLog, mesoblkLog, mmpm, bitmapOffset, maxMacroblocks,
           totalMacroblocks := size >>> macroblockLog }

/-- What `blockio_dev_init` asserts. -/
def devCheck (b : Geometry) : Except Failure Unit := do
  check (b.mesoblkLog < b.macroblockLog) "b->mesoblk_log < b->macroblock_log"
  check ((Bitmap.init b.maxMacroblocks).size + 260 + b.mmpm <<< 2 = 1 <<< b.mesoblkLog)
    "bitmap_size(&dev->status) + 260 + (dev->b->mmpm<<2) == 1<<dev->b->mesoblk_log"

/-- The geometry was computed by `blockio_init_file` and passes `blockio_dev_init`. -/
def Accepted (b : Geometry) : Prop :=
  (∃ macroblockLog mesoblkLog size, initFile macroblockLog mesoblkLog size = .ok b) ∧
    b.devCheck = .ok ()

/-- The `mesobits` of `scubed3_init`. -/
def mesobits (b : Geometry) : ℕ := b.macroblockLog - b.mesoblkLog

/-- How the sizes of an accepted geometry fit together. -/
structure Sound (b : Geometry) : Prop where
  logs : b.macroblockLog = b.mesoblkLog + b.mesobits
  mesobits_pos : 0 < b.mesobits
  mesobits_le : b.mesobits ≤ 14
  mesoblkLog_le : b.mesoblkLog ≤ 29
  mmpm : b.mmpm + 1 = 2 ^ b.mesobits
  bitmapOffset : b.bitmapOffset = 260 + 4 * b.mmpm
  bitmap : b.bitmapOffset + 4 * Bitmap.words b.maxMacroblocks = 2 ^ b.mesoblkLog
  maxMacroblocks : b.maxMacroblocks = 32 * Bitmap.words b.maxMacroblocks
  total_le : b.totalMacroblocks ≤ b.maxMacroblocks

theorem Sound.maxMacroblocks_lt {b : Geometry} (sound : b.Sound) : b.maxMacroblocks < 2 ^ 32 := by
  have max := sound.maxMacroblocks
  have words := sound.bitmap
  have offset := sound.bitmapOffset
  have size : 2 ^ b.mesoblkLog ≤ 2 ^ 29 := Nat.pow_le_pow_right (by decide) sound.mesoblkLog_le
  omega

theorem initFile_eq_ok {macroblockLog mesoblkLog size : ℕ} {b : Geometry}
    (ok : initFile macroblockLog mesoblkLog size = .ok b) :
    macroblockLog < 32 ∧ mesoblkLog ≤ macroblockLog ∧
      b.macroblockLog = macroblockLog ∧ b.mesoblkLog = mesoblkLog ∧
      b.mmpm = (2 ^ (macroblockLog - mesoblkLog) - 1) % 2 ^ 16 ∧
      b.bitmapOffset = (256 + 4 * 2 ^ (macroblockLog - mesoblkLog)) % 2 ^ 32 ∧
      b.bitmapOffset < 2 ^ mesoblkLog ∧
      b.maxMacroblocks = (2 ^ mesoblkLog - b.bitmapOffset) * 8 % 2 ^ 32 ∧
      b.totalMacroblocks ≤ b.maxMacroblocks := by
  unfold initFile at ok
  by_cases small : macroblockLog < 8 * 4
  · rw [check_of _ _ small] at ok
    simp only [Nat.shiftLeft_eq, one_mul] at ok
    by_cases order : macroblockLog < mesoblkLog
    · rw [if_pos order] at ok; cases ok
    · rw [if_neg order] at ok
      by_cases room : (256 + 4 * 2 ^ (macroblockLog - mesoblkLog)) % 2 ^ 32 ≥ 2 ^ mesoblkLog
      · simp only [room, if_true] at ok; cases ok
      · simp only [room, if_false] at ok
        by_cases large : size >>> macroblockLog >
            (2 ^ mesoblkLog - (256 + 4 * 2 ^ (macroblockLog - mesoblkLog)) % 2 ^ 32) * 2 ^ 3 % 2 ^ 32
        · simp only [large, if_true] at ok; cases ok
        · simp only [large, if_false] at ok
          cases ok
          exact ⟨small, by omega, rfl, rfl, rfl, rfl, by simpa using room, rfl, by simpa using large⟩
  · rw [check, if_neg small] at ok; cases ok

theorem devCheck_eq_ok {b : Geometry} (ok : b.devCheck = .ok ()) :
    b.mesoblkLog < b.macroblockLog ∧
      Bitmap.words b.maxMacroblocks * 4 + 260 + b.mmpm * 4 = 2 ^ b.mesoblkLog := by
  unfold devCheck at ok
  by_cases order : b.mesoblkLog < b.macroblockLog
  · rw [check_of _ _ order] at ok
    refine ⟨order, ?_⟩
    have filled := (check_ok_iff _ _).mp ok
    simpa [Nat.shiftLeft_eq, Bitmap.size, Bitmap.init] using filled
  · rw [check, if_neg order] at ok; cases ok

/-- What `blockio_init_file` alone guarantees. -/
structure Computed (b : Geometry) : Prop where
  logs : b.macroblockLog = b.mesoblkLog + b.mesobits
  mesobits_le : b.mesobits ≤ 14
  mmpm : b.mmpm + 1 = 2 ^ b.mesobits
  bitmapOffset : b.bitmapOffset = 260 + 4 * b.mmpm
  room : b.bitmapOffset < 2 ^ b.mesoblkLog
  maxMacroblocks : b.maxMacroblocks = (2 ^ b.mesoblkLog - b.bitmapOffset) * 8 % 2 ^ 32
  total_le : b.totalMacroblocks ≤ b.maxMacroblocks

theorem computed_of_initFile {macroblockLog mesoblkLog size : ℕ} {b : Geometry}
    (ok : initFile macroblockLog mesoblkLog size = .ok b) : b.Computed := by
  obtain ⟨small, order, rfl, rfl, mmpm, offset, room, max, total⟩ := initFile_eq_ok ok
  obtain ⟨k, logs⟩ := Nat.exists_eq_add_of_le order
  have bits : b.mesobits = k := by rw [mesobits]; omega
  rw [logs, Nat.add_sub_cancel_left] at mmpm offset
  -- with more than 14 bits the indices alone would not fit in a mesoblock
  have few : k ≤ 14 := by
    by_contra many
    have shallow : 2 ^ b.mesoblkLog ≤ 2 ^ (31 - k) := Nat.pow_le_pow_right (by decide) (by omega)
    have bounds : 15 ≤ k ∧ k ≤ 31 := by omega
    obtain ⟨lower, upper⟩ := bounds
    interval_cases k
    all_goals norm_num at offset shallow logs
    all_goals omega
  have powBound : 2 ^ k ≤ 2 ^ 14 := Nat.pow_le_pow_right (by decide) few
  have powPos : 0 < 2 ^ k := Nat.two_pow_pos k
  rw [Nat.mod_eq_of_lt (by omega)] at mmpm offset
  refine ⟨by omega, by omega, ?_, by omega, room, max, total⟩
  rw [bits]
  omega

theorem Accepted.sound {b : Geometry} (accepted : b.Accepted) : b.Sound := by
  obtain ⟨⟨M, m, size, ok⟩, checked⟩ := accepted
  obtain ⟨logs, few, mmpm, offset, room, max, total⟩ := computed_of_initFile ok
  obtain ⟨strict, filled⟩ := devCheck_eq_ok checked
  have words : Bitmap.words b.maxMacroblocks < 2 ^ 27 := by
    have := Nat.mod_lt (b.maxMacroblocks + 31) (Nat.two_pow_pos 32)
    rw [Bitmap.words]
    omega
  have powBound : 2 ^ b.mesobits ≤ 2 ^ 14 := Nat.pow_le_pow_right (by decide) few
  have shallow : b.mesoblkLog ≤ 29 := by
    by_contra deep
    have : 2 ^ 30 ≤ 2 ^ b.mesoblkLog := Nat.pow_le_pow_right (by decide) (by omega)
    omega
  have exact : (2 ^ b.mesoblkLog - b.bitmapOffset) * 8 = 32 * Bitmap.words b.maxMacroblocks := by omega
  refine ⟨logs, by omega, few, shallow, mmpm, offset, by omega, ?_, total⟩
  rw [← exact, max]
  exact Nat.mod_eq_of_lt (by omega)

end Geometry

/-- An initialisation vector, as passed to `cipher_enc` and `cipher_dec`. -/
abbrev Iv := ℕ × ℕ × ℕ

/-- A block cipher mode with its key, for blocks of `n` bytes. -/
structure Cipher (n : ℕ) where
  enc : Iv → (Fin n → UInt8) → Fin n → UInt8
  dec : Iv → (Fin n → UInt8) → Fin n → UInt8
  dec_enc : ∀ iv block, dec iv (enc iv block) = block

/-- What stays the same while a partition is used: the base device, the cipher and the hash. -/
structure Params where
  b : Geometry
  accepted : b.Accepted
  c : Cipher (2 ^ b.mesoblkLog)
  hash : List UInt8 → Hash

namespace Params

variable (p : Params)

/-- The size of a mesoblock, `1<<b->mesoblk_log`. -/
abbrev mesoblkSize : ℕ := 2 ^ p.b.mesoblkLog

/-- The size of a macroblock, `1<<b->macroblock_log`. -/
abbrev macroblockSize : ℕ := 2 ^ p.b.macroblockLog

/-- The plaintext or ciphertext of one mesoblock. -/
abbrev Mesoblk : Type := Fin p.mesoblkSize → UInt8

theorem sound : p.b.Sound := p.accepted.sound

theorem mesoblkSize_pos : 0 < p.mesoblkSize := Nat.two_pow_pos _

theorem mmpm_pos : 0 < p.b.mmpm := by
  have pow := p.sound.mmpm
  have : 2 ^ 1 ≤ 2 ^ p.b.mesobits := Nat.pow_le_pow_right (by decide) p.sound.mesobits_pos
  omega

/-- A macroblock is its index block and `mmpm` data blocks. -/
theorem macroblockSize_eq : p.macroblockSize = (p.b.mmpm + 1) * p.mesoblkSize := by
  rw [p.sound.mmpm, macroblockSize, p.sound.logs, pow_add, Nat.mul_comm]

end Params

/-! ## The smallest devices -/

/-- One data mesoblock of 512 bytes in every macroblock. -/
def Geometry.smallest (totalMacroblocks : ℕ) : Geometry where
  macroblockLog := 10
  mesoblkLog := 9
  mmpm := 1
  bitmapOffset := 264
  maxMacroblocks := 1984
  totalMacroblocks

theorem Geometry.smallest_accepted {total : ℕ} (few : total ≤ 1984) : (Geometry.smallest total).Accepted := by
  have checked : (Geometry.smallest 0).devCheck = .ok () := by decide
  refine ⟨⟨10, 9, total * 2 ^ 10, ?_⟩, checked⟩
  have size : (total * 2 ^ 10) >>> 10 = total := by
    rw [Nat.shiftRight_eq_div_pow, Nat.mul_div_cancel _ (by decide)]
  have fits : ¬ total > 1984 := by omega
  rw [initFile, size, check_of _ _ (by decide)]
  simp only [Nat.reduceSub, Nat.reduceShiftLeft, Nat.reduceAdd, Nat.reducePow, Nat.reduceMod, fits, if_false]
  rfl

theorem Geometry.one_fits : 1 ≤ 1984 := by decide

theorem Geometry.two_fits : 2 ≤ 1984 := by decide

/-- A cipher that complements every byte. -/
def Cipher.complement (n : ℕ) : Cipher n where
  enc _ block i := ~~~ block i
  dec _ block i := ~~~ block i
  dec_enc _ block := by
    funext i
    exact UInt8.not_not

/-- A small device with the complement for a cipher and a constant for a hash. -/
def Params.smallest (total : ℕ) (few : total ≤ 1984) : Params where
  b := Geometry.smallest total
  accepted := Geometry.smallest_accepted few
  c := Cipher.complement _
  hash _ _ := 0

end Scubed3
