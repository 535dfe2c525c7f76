import Scubed3.Model.Blockio
import Scubed3.ToMathlib.Except

/-! # The index block

The fields of the index block tile it for every geometry, so every field is read back as it was
written and no byte of the previous buffer is left. What a scan makes of a macroblock is a function
of its index block alone: `Carries` says that it is ours and what record it holds, `Foreign` that it is
not ours.
-/

namespace Scubed3.Blockio

open Memory

variable (p : Params)

/-- A record that a scan accepts once it is written. -/
structure Storable (bi : BlockioInfo) : Prop where
  seqno_pos : 0 < bi.seqno
  seqno_lt : bi.seqno < bi.nextSeqno
  nextSeqno : bi.nextSeqno < 2 ^ 64
  noIndices : bi.noIndices ≤ p.b.mmpm

/-- The index block of macroblock `no`, decrypted. -/
def header (base : Bytes) (no : ℕ) : Bytes :=
  ofBlock (p.c.dec (indexIv no) (slice base (no * p.macroblockSize) p.mesoblkSize))

/-- Macroblock `no` is one of ours and holds the record `bi`. -/
def Carries (base : Bytes) (no : ℕ) (bi : BlockioInfo) : Prop :=
  seemsOurs p (header p base no) = true ∧ parseInfo p (header p base no) {} = .ok bi

/-- Macroblock `no` is not one of ours. -/
def Foreign (base : Bytes) (no : ℕ) : Prop := seemsOurs p (header p base no) = false

/-! ## Only the index block is looked at -/

theorem mesoblkSize_ge : 264 ≤ p.mesoblkSize := by
  have bits := p.sound.mesobits_pos
  have mmpm := p.sound.mmpm
  have offset := p.sound.bitmapOffset
  have bitmap := p.sound.bitmap
  have : 2 ^ 1 ≤ 2 ^ p.b.mesobits := Nat.pow_le_pow_right (by decide) bits
  rw [Params.mesoblkSize]
  omega

theorem seemsOurs_congr {m m' : Bytes} (same : ∀ i < p.mesoblkSize, m i = m' i) :
    seemsOurs p m = seemsOurs p m' := by
  have large := mesoblkSize_ge p
  have magicBytes : readList m magic64 8 = readList m' magic64 8 :=
    readList_congr fun i _ upper => same i (by simp only [magic64] at upper; omega)
  have stored : slice m indexblockSha256 32 = slice m' indexblockSha256 32 :=
    slice_congr fun i _ upper => same i (by simp only [indexblockSha256] at upper; omega)
  have hashed : readList m 32 (p.mesoblkSize - 32) = readList m' 32 (p.mesoblkSize - 32) :=
    readList_congr fun i _ upper => same i (by omega)
  rw [seemsOurs, seemsOurs, magicBytes, stored, hashed]

/-- The word at which index `i` is stored. -/
def indexWord (tmp : Bytes) (i : ℕ) : ℕ := Binio.readUint32Be tmp (noIndicesUint32 + 4 * (i + 1))

/-- Everything `blockio_dev_scan_header` checks about the fields of an index block of ours. -/
structure Parses (tmp : Bytes) : Prop where
  reserved : readList tmp reservedSpace1024 128 = List.replicate 128 0
  seqno_pos : 0 < Binio.readUint64Be tmp seqnoUint64
  seqno_lt : Binio.readUint64Be tmp seqnoUint64 < Binio.readUint64Be tmp nextSeqnoUint64
  capacity : Binio.readUint32Be tmp noIndicesUint32 ≤ p.b.mmpm
  unused : ∀ i < p.b.mmpm, Binio.readUint32Be tmp noIndicesUint32 ≤ i → indexWord tmp i = 0

/-- The record that an index block holds. -/
def parsed (tmp : Bytes) (bi : BlockioInfo) : BlockioInfo :=
  { bi with
    dataHash := slice tmp datablocksSha256 32
    seqno := Binio.readUint64Be tmp seqnoUint64
    nextSeqno := Binio.readUint64Be tmp nextSeqnoUint64
    noNonobsolete := Binio.readUint32Be tmp noIndicesUint32
    noIndices := Binio.readUint32Be tmp noIndicesUint32
    indices := fun i => if i < Binio.readUint32Be tmp noIndicesUint32 then indexWord tmp i else 0 }

theorem parseInfo_eq_ok_iff {tmp : Bytes} {bi bi' : BlockioInfo} :
    parseInfo p tmp bi = .ok bi' ↔ Parses p tmp ∧ parsed tmp bi = bi' := by
  unfold parseInfo
  simp only [Except.ite_throw_eq_ok_iff, Except.pure_eq_ok_iff]
  constructor
  · rintro ⟨reserved, seqnoPos, seqnoLt, capacity, unused, rfl⟩
    exact ⟨⟨not_not.mp reserved, by omega, by omega, by omega, not_not.mp unused⟩, rfl⟩
  · rintro ⟨⟨reserved, seqnoPos, seqnoLt, capacity, unused⟩, rfl⟩
    exact ⟨not_not.mpr reserved, by omega, by omega, by omega, not_not.mpr unused, rfl⟩

theorem indexWord_congr {m m' : Bytes} (same : ∀ i < p.mesoblkSize, m i = m' i) {i : ℕ}
    (bound : i < p.b.mmpm) : indexWord m i = indexWord m' i := by
  have offset := p.sound.bitmapOffset
  have bitmap := p.sound.bitmap
  refine Binio.readUint32Be_congr fun k _ upper => same k ?_
  simp only [noIndicesUint32] at upper
  rw [Params.mesoblkSize]
  omega

theorem parseInfo_congr {m m' : Bytes} {bi bi' : BlockioInfo} (same : ∀ i < p.mesoblkSize, m i = m' i)
    (parses : parseInfo p m bi = .ok bi') : parseInfo p m' bi = .ok bi' := by
  have large := mesoblkSize_ge p
  obtain ⟨⟨reserved, seqnoPos, seqnoLt, capacity, unused⟩, rfl⟩ := (parseInfo_eq_ok_iff p).mp parses
  have count : Binio.readUint32Be m noIndicesUint32 = Binio.readUint32Be m' noIndicesUint32 :=
    Binio.readUint32Be_congr fun k _ upper => same k (by simp [noIndicesUint32] at upper; omega)
  have seqno : Binio.readUint64Be m seqnoUint64 = Binio.readUint64Be m' seqnoUint64 :=
    Binio.readUint64Be_congr fun i _ upper => same i (by simp [seqnoUint64] at upper; omega)
  have nextSeqno : Binio.readUint64Be m nextSeqnoUint64 = Binio.readUint64Be m' nextSeqnoUint64 :=
    Binio.readUint64Be_congr fun i _ upper => same i (by simp [nextSeqnoUint64] at upper; omega)
  have dataHash : slice m datablocksSha256 32 = slice m' datablocksSha256 32 :=
    slice_congr fun i _ upper => same i (by simp [datablocksSha256] at upper; omega)
  have space : readList m reservedSpace1024 128 = readList m' reservedSpace1024 128 :=
    readList_congr fun i _ upper => same i (by simp [reservedSpace1024] at upper; omega)
  refine (parseInfo_eq_ok_iff p).mpr ⟨⟨space.symm.trans reserved, ?_, ?_, ?_, fun i bound unusedHere => ?_⟩, ?_⟩
  · rwa [← seqno]
  · rwa [← seqno, ← nextSeqno]
  · rwa [← count]
  · rw [← indexWord_congr p same bound]
    exact unused i bound (by rwa [count])
  · have indices : (fun i => if i < Binio.readUint32Be m' noIndicesUint32 then indexWord m' i else 0) =
        fun i => if i < Binio.readUint32Be m noIndicesUint32 then indexWord m i else 0 := by
      funext i
      rw [← count]
      split
      · next used => exact (indexWord_congr p same (by omega)).symm
      · rfl
    rw [parsed, parsed, indices, ← count, ← seqno, ← nextSeqno, ← dataHash]

/-- Only the owner is taken from the record that was there before. -/
theorem parseInfo_dev {m : Bytes} {bi' : BlockioInfo} (parses : parseInfo p m {} = .ok bi')
    (bi : BlockioInfo) : parseInfo p m bi = .ok { bi' with dev := bi.dev } := by
  obtain ⟨valid, rfl⟩ := (parseInfo_eq_ok_iff p).mp parses
  exact (parseInfo_eq_ok_iff p).mpr ⟨valid, rfl⟩

end Scubed3.Blockio
