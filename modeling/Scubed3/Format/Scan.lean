import Scubed3.Format.Header

/-! # Scanning one macroblock

`blockio_dev_scan_header` skips a macroblock that is taken or not ours. Otherwise it takes the record over,
sorts the macroblock into the replay list, and, when its sequence number is the highest so far,
takes what its index block says about the whole partition.
-/

namespace Scubed3.Blockio

open Memory

variable (p : Params)

/-- The macroblock joins the partition with the record found on it. -/
def adopt (dev : BlockioDev) (no : ℕ) (bi : BlockioInfo) (replay : List ℕ) : BlockioDev :=
  { dev with
    tmpMacroblock := readHeader p dev no
    replay
    b := { dev.b with
      infos := dev.b.infos.set no { bi with dev := some dev.self }
      unallocated := dev.b.unallocated.erase no } }

/-- Take over what the index block of `no` says about the whole partition. -/
def summarize (dev : BlockioDev) (no : ℕ) : BlockioDev :=
  { dev with
    status := dev.status.read (header p dev.b.base no) p.b.bitmapOffset
    seqnosHash := slice (header p dev.b.base no) seqnosSha256 32
    noMacroblocks := Binio.readUint32Be (header p dev.b.base no) noMacroblocksUint32
    reservedMacroblocks := Binio.readUint32Be (header p dev.b.base no) reservedBlocksUint32 }

/-- The effect of finding `no`, for the highest sequence number so far. -/
def found (dev : BlockioDev) (no : ℕ) (bi : BlockioInfo) (replay : List ℕ) (highest : ℕ) :
    BlockioDev × ℕ :=
  if bi.seqno > highest then (summarize p (adopt p dev no bi replay) no, bi.seqno)
  else (adopt p dev no bi replay, highest)

theorem readHeader_eq (dev : BlockioDev) {no i : ℕ} (bound : i < p.mesoblkSize) :
    readHeader p dev no i = header p dev.b.base no i := by
  have inside := store_inside dev.tmpMacroblock 0
    (p.c.dec (indexIv no) (slice dev.b.base (no * p.macroblockSize) p.mesoblkSize)) ⟨i, bound⟩
  rw [Nat.zero_add] at inside
  rw [readHeader, inside, header, ofBlock_apply _ bound]

/-- What is read about the partition comes from the index block. -/
theorem summarize_eq (dev : BlockioDev) {no : ℕ} {tmp : Bytes}
    (status : dev.status.noBits = p.b.maxMacroblocks)
    (same : ∀ i < p.mesoblkSize, tmp i = header p dev.b.base no i) :
    { dev with
      status := dev.status.read tmp p.b.bitmapOffset
      seqnosHash := slice tmp seqnosSha256 32
      noMacroblocks := Binio.readUint32Be tmp noMacroblocksUint32
      reservedMacroblocks := Binio.readUint32Be tmp reservedBlocksUint32 } = summarize p dev no := by
  have large := mesoblkSize_ge p
  have bitmap := p.sound.bitmap
  have words : dev.status.read tmp p.b.bitmapOffset =
      dev.status.read (header p dev.b.base no) p.b.bitmapOffset := by
    refine Bitmap.read_congr fun w bound => Binio.readUint32Be_congr fun i _ upper => same i ?_
    rw [status] at bound
    rw [Params.mesoblkSize]
    omega
  have hash : slice tmp seqnosSha256 32 = slice (header p dev.b.base no) seqnosSha256 32 :=
    slice_congr fun i _ upper => same i (by simp only [seqnosSha256] at upper; omega)
  have count : Binio.readUint32Be tmp noMacroblocksUint32 =
      Binio.readUint32Be (header p dev.b.base no) noMacroblocksUint32 :=
    Binio.readUint32Be_congr fun i _ upper => same i (by simp only [noMacroblocksUint32] at upper; omega)
  have reserved : Binio.readUint32Be tmp reservedBlocksUint32 =
      Binio.readUint32Be (header p dev.b.base no) reservedBlocksUint32 :=
    Binio.readUint32Be_congr fun i _ upper => same i (by simp only [reservedBlocksUint32] at upper; omega)
  rw [summarize, words, hash, count, reserved]

/-- On a macroblock that is not taken, parsing does not look at the old record. -/
theorem parseInfo_untaken {m : Bytes} {bi bi' : BlockioInfo} (untaken : bi.dev = none) :
    parseInfo p m bi = .ok bi' ↔ parseInfo p m {} = .ok bi' := by
  rw [parseInfo_eq_ok_iff, parseInfo_eq_ok_iff, parsed, parsed, untaken]

theorem sortToReplay_eq_ok_iff {infos : BlockioInfos} {replay replay' : List ℕ} {no : ℕ} :
    sortToReplay infos replay no = .ok replay' ↔
      replay.insertByKey (fun b => (infos b).seqno) no = some replay' := by
  unfold sortToReplay
  cases replay.insertByKey (fun b => (infos b).seqno) no <;> simp

/-- All that a scan of one macroblock can do. -/
theorem scanHeader_eq_ok_iff {dev : BlockioDev} {no highest : ℕ} {r : BlockioDev × ℕ}
    (status : dev.status.noBits = p.b.maxMacroblocks) :
    scanHeader p dev no highest = .ok r ↔ no < p.b.totalMacroblocks ∧
      if (dev.b.infos no).dev ≠ none then r = (dev, highest)
      else if seemsOurs p (header p dev.b.base no) = false then
        r = ({ dev with tmpMacroblock := readHeader p dev no }, highest)
      else ∃ bi replay, parseInfo p (header p dev.b.base no) {} = .ok bi ∧ no ∈ dev.b.unallocated ∧
        dev.replay.insertByKey (fun b => ((dev.b.infos.set no { bi with dev := some dev.self }) b).seqno) no =
          some replay ∧
        bi.seqno ≠ highest ∧ r = found p dev no bi replay highest := by
  have same (i : ℕ) (bound : i < p.mesoblkSize) : readHeader p dev no i = header p dev.b.base no i :=
    readHeader_eq p dev bound
  unfold scanHeader
  simp only [Except.bind_eq_ok_iff, check_eq_ok_iff, exists_const]
  refine and_congr_right fun _ => ?_
  by_cases taken : (dev.b.infos no).dev ≠ none
  · simp only [if_pos taken]
    exact Except.pure_eq_ok_iff.trans eq_comm
  · simp only [if_neg taken]
    rw [seemsOurs_congr p same]
    cases ours : seemsOurs p (header p dev.b.base no) with
    | false => exact Except.pure_eq_ok_iff.trans eq_comm
    | true =>
      simp only [Bool.not_true, Bool.false_eq_true, if_false, Except.bind_eq_ok_iff, check_eq_ok_iff,
        exists_const, sortToReplay_eq_ok_iff, exists_and_left, parseInfo_untaken p (not_not.mp taken)]
      have parses (bi : BlockioInfo) : parseInfo p (readHeader p dev no) {} = .ok bi ↔
          parseInfo p (header p dev.b.base no) {} = .ok bi :=
        ⟨parseInfo_congr p same, parseInfo_congr p fun i bound => (same i bound).symm⟩
      refine exists_congr fun bi => and_congr (parses bi) (and_congr_right fun _ => exists_congr fun replay =>
        and_congr_right fun _ => and_congr_right fun _ => ?_)
      rw [found]
      split
      · rw [← summarize_eq p (adopt p dev no bi replay) status same]
        exact Except.pure_eq_ok_iff.trans eq_comm
      · exact Except.pure_eq_ok_iff.trans eq_comm

end Scubed3.Blockio
