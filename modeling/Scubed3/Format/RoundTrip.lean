import Scubed3.Format.Scan
import Scubed3.Format.Write

/-! # The macroblock format round-trips

What a scan recovers from the macroblock that was written last is what the writer put there: the
record of the block, what is known about the whole partition, and the data.
-/

namespace Scubed3.Blockio

open Memory

variable (p : Params)

section Written

variable {p} {dev : BlockioDev} {bi : BlockioInfo} (id : ℕ)

/-- A number in the written index block, after decryption. -/
theorem readUint32Be_header (base : Bytes) (capacity : bi.noIndices ≤ p.b.mmpm)
    (status : dev.status.noBits = p.b.maxMacroblocks) {off s : ℕ}
    (member : (off, Binio.uint32Be s) ∈
      headerFields p dev bi (dataHashOf p (encryptData p dev.tmpMacroblock bi id))) :
    Binio.readUint32Be (header p (blit base (id * p.macroblockSize) p.macroblockSize
      (encodeMacroblock p dev bi id)) id) off = s % 2 ^ 32 := by
  have inside := (headerFields_bounds capacity status _ member).2
  simp only [Binio.uint32Be_length] at inside
  rw [← readUint32Be_writeHeader capacity status member]
  exact Binio.readUint32Be_congr fun i _ upper => header_encode id base (by omega)

/-- The bitmap of the partition is found again. -/
theorem used_header (base : Bytes) (capacity : bi.noIndices ≤ p.b.mmpm)
    (status : dev.status.noBits = p.b.maxMacroblocks) {b : Bitmap} (size : b.noBits = p.b.maxMacroblocks)
    {i : ℕ} (bound : i < p.b.maxMacroblocks) :
    (b.read (header p (blit base (id * p.macroblockSize) p.macroblockSize
      (encodeMacroblock p dev bi id)) id) p.b.bitmapOffset).used i = dev.status.used i := by
  have full := p.sound.maxMacroblocks
  have word : i / 32 < Bitmap.words p.b.maxMacroblocks := by omega
  have stored : (p.b.bitmapOffset + 4 * (i / 32), Binio.uint32Be (dev.status.bits (i / 32)).toNat) ∈
      headerFields p dev bi (dataHashOf p (encryptData p dev.tmpMacroblock bi id)) := by
    refine List.mem_append_right _ ?_
    rw [Bitmap.write, status]
    exact Binio.mem_words _ (fun i => (dev.status.bits i).toNat) word
  rw [Bitmap.used, Bitmap.used, Bitmap.read]
  dsimp only
  rw [size, if_pos word, readUint32Be_header id base capacity status stored,
    Nat.mod_eq_of_lt (BitVec.isLt _), BitVec.ofNat_toNat, BitVec.setWidth_eq]

theorem seqnosHash_header (base : Bytes) (capacity : bi.noIndices ≤ p.b.mmpm)
    (status : dev.status.noBits = p.b.maxMacroblocks) :
    slice (header p (blit base (id * p.macroblockSize) p.macroblockSize (encodeMacroblock p dev bi id)) id)
      seqnosSha256 32 = dev.j.hashScheduledSeqnos p.hash dev.b.infos := by
  have large := mesoblkSize_ge p
  have stored : (seqnosSha256, List.ofFn (dev.j.hashScheduledSeqnos p.hash dev.b.infos)) ∈
      staticFields p dev bi (dataHashOf p (encryptData p dev.tmpMacroblock bi id)) := by
    simp only [staticFields, List.mem_cons, true_or, or_true]
  rw [← slice_writeHeader capacity status stored]
  exact slice_congr fun i _ upper => header_encode id base (by simp only [seqnosSha256] at upper; omega)

/-- The data hash is that of the data on the device. -/
theorem dataHash_encode (base : Bytes) (capacity : bi.noIndices ≤ p.b.mmpm)
    (status : dev.status.noBits = p.b.maxMacroblocks) :
    p.hash (readList (blit base (id * p.macroblockSize) p.macroblockSize (encodeMacroblock p dev bi id))
      (id * p.macroblockSize + p.mesoblkSize) (p.macroblockSize - p.mesoblkSize)) =
      dataHashOf p (encryptData p dev.tmpMacroblock bi id) := by
  have size : p.macroblockSize - p.mesoblkSize = p.b.mmpm * p.mesoblkSize := by
    rw [p.macroblockSize_eq, Nat.succ_mul, Nat.add_sub_cancel]
  have whole : p.mesoblkSize + p.b.mmpm * p.mesoblkSize = p.macroblockSize := by
    rw [p.macroblockSize_eq, Nat.succ_mul, Nat.add_comm]
  rw [size]
  refine congrArg p.hash (List.ext_getElem (by simp) fun i inside _ => ?_)
  rw [readList_length] at inside
  simp only [readList, List.getElem_map, List.getElem_range]
  rw [Nat.add_assoc, blit_inside _ _ (by omega)]
  have outside : p.mesoblkSize ≤ p.mesoblkSize + i := Nat.le_add_right _ _
  exact (store_outside _ _ (.inr (by rwa [Nat.zero_add]))).trans (writeHeader_outside capacity status outside)

end Written

/-- What a scan of macroblock `id` recovers of the state in which it was written. -/
structure Recovered (dev : BlockioDev) (id : ℕ) (reader : BlockioDev) : Prop where
  seqno : (reader.b.infos id).seqno = (dev.b.infos id).seqno
  nextSeqno : (reader.b.infos id).nextSeqno = (dev.b.infos id).nextSeqno
  noIndices : (reader.b.infos id).noIndices = (dev.b.infos id).noIndices
  indices : ∀ k < (dev.b.infos id).noIndices, (reader.b.infos id).indices k = (dev.b.infos id).indices k
  noMacroblocks : reader.noMacroblocks = dev.noMacroblocks
  reservedMacroblocks : reader.reservedMacroblocks = dev.reservedMacroblocks
  status : ∀ i < p.b.maxMacroblocks, reader.status.used i = dev.status.used i
  dataHash : (reader.b.infos id).dataHash =
    p.hash (readList (encryptData p dev.tmpMacroblock (dev.b.infos id) id) p.mesoblkSize
      (p.b.mmpm * p.mesoblkSize))
  dataHash_ok : checkDataHash p reader id = true
  seqnosHash : reader.seqnosHash = dev.j.hashScheduledSeqnos p.hash dev.b.infos
  data : ∀ k < (dev.b.infos id).noIndices,
    readMesoblk p reader id k = slice dev.tmpMacroblock ((k + 1) * p.mesoblkSize) p.mesoblkSize

/-- A partition that is being opened and has not seen macroblock `id`, nor a sequence number like its. -/
structure Unseen (reader : BlockioDev) (id seqno highest : ℕ) : Prop where
  status : reader.status.noBits = p.b.maxMacroblocks
  untaken : (reader.b.infos id).dev = none
  unallocated : id ∈ reader.b.unallocated
  fresh : ∀ c ∈ reader.replay, c ≠ id ∧ (reader.b.infos c).seqno ≠ seqno
  highest_lt : highest < seqno

/-- Writing the current macroblock and scanning it gives everything back, in every accepted geometry
and for every previous content of the buffer, on which the index block does not depend. -/
theorem macroblock_roundTrip {dev : BlockioDev} {id : ℕ} (current : dev.bi = some id)
    (bound : id < p.b.totalMacroblocks) (owned : (dev.b.infos id).dev ≠ none)
    (storable : Storable p (dev.b.infos id))
    (indices : ∀ k < (dev.b.infos id).noIndices, (dev.b.infos id).indices k < 2 ^ 32)
    (noMacroblocks : dev.noMacroblocks < 2 ^ 32) (reserved : dev.reservedMacroblocks < 2 ^ 32)
    (status : dev.status.noBits = p.b.maxMacroblocks) :
    ∃ dev', writeCurrentMacroblock p dev = .ok dev' ∧
      (∀ reader highest, reader.b.base = dev'.b.base →
        Unseen p reader id (dev.b.infos id).seqno highest →
        ∃ reader', scanHeader p reader id highest = .ok (reader', (dev.b.infos id).seqno) ∧
          Recovered p dev id reader') ∧
      ∀ tmp : Bytes, (∀ i, p.mesoblkSize ≤ i → i < p.macroblockSize → tmp i = dev.tmpMacroblock i) →
        ∃ dev'', writeCurrentMacroblock p { dev with tmpMacroblock := tmp } = .ok dev'' ∧
          slice dev''.b.base (id * p.macroblockSize) p.mesoblkSize =
            slice dev'.b.base (id * p.macroblockSize) p.mesoblkSize := by
  have capacity := storable.noIndices
  have written := (writeCurrentMacroblock_eq_ok_iff p).mpr ⟨id, current, owned, bound, capacity, rfl⟩
  refine ⟨_, written, fun reader highest base unseen => ?_, fun tmp same => ?_⟩
  · obtain ⟨ours, parses⟩ := carries_encode id dev.b.base storable status
    have base : reader.b.base = blit dev.b.base (id * p.macroblockSize) p.macroblockSize
      (encodeMacroblock p dev (dev.b.infos id) id) := base
    let bi := recordOf (dev.b.infos id) (dataHashOf p (encryptData p dev.tmpMacroblock (dev.b.infos id) id))
    have apart : ∀ c ∈ reader.replay, ((reader.b.infos.set id { bi with dev := some reader.self }) c).seqno ≠
        ((reader.b.infos.set id { bi with dev := some reader.self }) id).seqno := by
      intro c member
      rw [BlockioInfos.set_of_ne _ _ (unseen.fresh c member).1, BlockioInfos.set_same]
      exact (unseen.fresh c member).2
    obtain ⟨replay, sorted⟩ := List.insertByKey_isSome apart
    have scanned : scanHeader p reader id highest =
        .ok (summarize p (adopt p reader id bi replay) id, (dev.b.infos id).seqno) := by
      refine (scanHeader_eq_ok_iff p unseen.status).mpr ⟨bound, ?_⟩
      rw [if_neg (not_not.mpr unseen.untaken), base, ours, if_neg (by decide)]
      refine ⟨bi, replay, parses, unseen.unallocated, sorted, unseen.highest_lt.ne', ?_⟩
      rw [found, if_pos (show bi.seqno > highest from unseen.highest_lt)]
      rfl
    refine ⟨_, scanned, ?_⟩
    have info : (summarize p (adopt p reader id bi replay) id).b.infos id =
      { bi with dev := some reader.self } := BlockioInfos.set_same ..
    have field {off s : ℕ} (small : s < 2 ^ 32) (member : (off, Binio.uint32Be s) ∈ staticFields p dev
        (dev.b.infos id) (dataHashOf p (encryptData p dev.tmpMacroblock (dev.b.infos id) id))) :
        Binio.readUint32Be (header p reader.b.base id) off = s := by
      rw [base, readUint32Be_header id _ capacity status (mem_headerFields member), Nat.mod_eq_of_lt small]
    constructor
    · rw [info]; rfl
    · rw [info]; rfl
    · rw [info]; rfl
    · intro k used
      rw [info]
      exact (if_pos used).trans (Nat.mod_eq_of_lt (indices k used))
    · exact field noMacroblocks (by simp only [staticFields, List.mem_cons, true_or, or_true])
    · exact field reserved (by simp only [staticFields, List.mem_cons, true_or, or_true])
    · intro i inside
      have found := used_header id dev.b.base capacity status unseen.status inside
      rwa [← base] at found
    · rw [info]; rfl
    · have stored := dataHash_encode id dev.b.base capacity status
      rw [← base] at stored
      rw [checkDataHash, decide_eq_true_iff, info]
      exact stored.symm
    · have stored := seqnosHash_header id dev.b.base capacity status
      rwa [← base] at stored
    · intro k used
      rw [readMesoblk, info]
      have plain := dec_encode id dev.b.base capacity status used
      rwa [← base] at plain
  · have rewritten : writeCurrentMacroblock p { dev with tmpMacroblock := tmp } =
        .ok (afterWrite p { dev with tmpMacroblock := tmp } id) :=
      (writeCurrentMacroblock_eq_ok_iff p).mpr ⟨id, current, owned, bound, capacity, rfl⟩
    refine ⟨_, rewritten, ?_⟩
    have inside := macroblock_bound (p := p) (Nat.zero_le _)
    have index (image : Bytes) := slice_blit_same (p := p) (n := p.mesoblkSize) id dev.b.base image 0 (by omega)
    simp only [Nat.add_zero] at index
    refine (index _).trans (Eq.trans ?_ (index _).symm)
    rw [slice_encodeMacroblock_index, slice_encodeMacroblock_index]
    refine congrArg _ (slice_congr fun i _ upper => ?_)
    exact writeHeader_congr capacity status (fun i h h' => encryptData_congr id capacity same h h')
      (by omega)

/-- A current block with one mesoblock in use, on a device of one macroblock. -/
def firstBlock : BlockioDev where
  b :=
    { infos := fun _ => { seqno := 1, nextSeqno := 3, noIndices := 1, indices := fun _ => 5, dev := some 0 }
      unallocated := []
      base := fun _ => 0 }
  self := 0
  status := Bitmap.init 1984
  noMacroblocks := 1
  bi := some 0

theorem macroblock_roundTrip_firstBlock : ∃ dev' reader reader',
    writeCurrentMacroblock (.smallest 1 (by decide)) firstBlock = .ok dev' ∧ reader.b.base = dev'.b.base ∧
      scanHeader (.smallest 1 (by decide)) reader 0 0 = .ok (reader', 1) ∧
      Recovered (.smallest 1 (by decide)) firstBlock 0 reader' := by
  obtain ⟨dev', written, scans, -⟩ := macroblock_roundTrip (.smallest 1 (by decide))
    (show firstBlock.bi = some 0 from rfl) (by decide) (by decide) ⟨by decide, by decide, by decide, by decide⟩
    (fun _ _ => (by decide : 5 < 2 ^ 32)) (by decide) (by decide) rfl
  let reader : BlockioDev :=
    { b := { unallocated := [0], base := dev'.b.base }, self := 0, status := Bitmap.init 1984 }
  obtain ⟨reader', scanned, recovered⟩ := scans reader 0 rfl
    ⟨rfl, rfl, List.mem_singleton_self 0, fun _ member => absurd member List.not_mem_nil, by decide⟩
  exact ⟨dev', reader, reader', written, rfl, scanned, recovered⟩

end Scubed3.Blockio
