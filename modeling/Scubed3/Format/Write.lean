import Scubed3.Format.Header

/-! # What a macroblock write leaves on the device

The written macroblock carries the record of the current block, and each of its used data blocks
decrypts to the mesoblock that was in memory. Nothing else on the device changes.
-/

namespace Scubed3.Blockio

open Memory

variable (p : Params)

/-! ## The index block -/

/-- The fields of the index block lie side by side from the end of its hash to its own end. -/
theorem headerFields_tiles {dev : BlockioDev} {bi : BlockioInfo} (dataHash : Hash)
    (capacity : bi.noIndices ≤ p.b.mmpm) (status : dev.status.noBits = p.b.maxMacroblocks) :
    ∃ sorted, (headerFields p dev bi dataHash).Perm sorted ∧ Tiles 32 sorted p.mesoblkSize := by
  have sound := p.sound
  refine ⟨[(datablocksSha256, List.ofFn dataHash),
      (seqnosSha256, List.ofFn (dev.j.hashScheduledSeqnos p.hash dev.b.infos)),
      (seqnoUint64, Binio.uint64Be bi.seqno), (nextSeqnoUint64, Binio.uint64Be bi.nextSeqno),
      (magic64, magic), (noMacroblocksUint32, Binio.uint32Be dev.noMacroblocks),
      (reservedBlocksUint32, Binio.uint32Be dev.reservedMacroblocks),
      (reservedSpace1024, List.replicate 128 0), (noIndicesUint32, Binio.uint32Be bi.noIndices)] ++
    Binio.words (noIndicesUint32 + 4) bi.noIndices bi.indices ++
    Binio.words (noIndicesUint32 + 4 * (bi.noIndices + 1)) (p.b.mmpm - bi.noIndices) (fun _ => 0) ++
    Bitmap.write p.b.bitmapOffset dev.status, ?_, ?_⟩
  · unfold headerFields staticFields
    refine ((List.Perm.append_right _ ?_).append_right _).append_right _
    exact (((((List.Perm.swap _ _ _).cons _).cons _).cons _).cons _).cons _
  · refine Tiles.append p.b.bitmapOffset
      (Tiles.append _ (Tiles.append 260 ?_ (Binio.words_tiles 260 bi.noIndices bi.indices)) ?_) ?_
    · simp [Tiles, datablocksSha256, seqnosSha256, seqnoUint64, nextSeqnoUint64, magic64, magic,
        noMacroblocksUint32, reservedBlocksUint32, reservedSpace1024, noIndicesUint32]
    · have unused := Binio.words_tiles (noIndicesUint32 + 4 * (bi.noIndices + 1))
        (p.b.mmpm - bi.noIndices) fun _ => 0
      have first : noIndicesUint32 + 4 * (bi.noIndices + 1) = 260 + 4 * bi.noIndices := by
        simp only [noIndicesUint32]; omega
      have last : 260 + 4 * bi.noIndices + 4 * (p.b.mmpm - bi.noIndices) = p.b.bitmapOffset := by
        rw [sound.bitmapOffset]; omega
      rw [first] at unused ⊢
      rwa [last] at unused
    · have bits := Binio.words_tiles p.b.bitmapOffset (Bitmap.words dev.status.noBits)
        fun i => (dev.status.bits i).toNat
      rw [status, sound.bitmap] at bits
      rw [Bitmap.write, status]
      exact bits

section Header

variable {p} {tmp : Bytes} {dev : BlockioDev} {bi : BlockioInfo} {dataHash : Hash}

theorem headerFields_apart (capacity : bi.noIndices ≤ p.b.mmpm)
    (status : dev.status.noBits = p.b.maxMacroblocks) : (headerFields p dev bi dataHash).Pairwise Apart := by
  obtain ⟨sorted, perm, tiles⟩ := headerFields_tiles p dataHash capacity status
  exact (perm.pairwise_iff fun apart => apart.symm).mpr tiles.apart

theorem headerFields_bounds (capacity : bi.noIndices ≤ p.b.mmpm)
    (status : dev.status.noBits = p.b.maxMacroblocks) :
    ∀ f ∈ headerFields p dev bi dataHash, 32 ≤ f.1 ∧ f.1 + f.2.length ≤ p.mesoblkSize := by
  obtain ⟨sorted, perm, tiles⟩ := headerFields_tiles p dataHash capacity status
  exact fun f member => tiles.bounds.2 f (perm.mem_iff.mp member)

theorem mem_headerFields {f : ℕ × List UInt8} (member : f ∈ staticFields p dev bi dataHash) :
    f ∈ headerFields p dev bi dataHash :=
  List.mem_append_left _ (List.mem_append_left _ (List.mem_append_left _ member))

/-- The data hash that goes into the index block. -/
def dataHashOf (p : Params) (tmp : Bytes) : Hash :=
  p.hash (readList tmp p.mesoblkSize (p.b.mmpm * p.mesoblkSize))

/-- Every field of the index block is there to be read. -/
theorem readList_writeHeader (len : ℕ) (capacity : bi.noIndices ≤ p.b.mmpm)
    (status : dev.status.noBits = p.b.maxMacroblocks) {off : ℕ} {entries : List UInt8}
    (member : (off, entries) ∈ headerFields p dev bi (dataHashOf p tmp)) (length : entries.length = len) :
    readList (writeHeader p tmp dev bi) off len = entries := by
  subst length
  have inside := (headerFields_bounds capacity status _ member).1
  dsimp only at inside
  refine Eq.trans (readList_congr fun i lower _ => ?_)
    (readList_writeFields (m := tmp) (headerFields_apart capacity status) member)
  exact store_outside _ _ (.inr (by rw [indexblockSha256]; omega))

theorem readUint64Be_writeHeader (capacity : bi.noIndices ≤ p.b.mmpm)
    (status : dev.status.noBits = p.b.maxMacroblocks) {off s : ℕ} (small : s < 2 ^ 64)
    (member : (off, Binio.uint64Be s) ∈ staticFields p dev bi (dataHashOf p tmp)) :
    Binio.readUint64Be (writeHeader p tmp dev bi) off = s := by
  have stored := readList_writeHeader 8 capacity status (mem_headerFields member) (Binio.uint64Be_length s)
  rw [Binio.readUint64Be_of_readList stored, Nat.mod_eq_of_lt small]

theorem readUint32Be_writeHeader (capacity : bi.noIndices ≤ p.b.mmpm)
    (status : dev.status.noBits = p.b.maxMacroblocks) {off s : ℕ}
    (member : (off, Binio.uint32Be s) ∈ headerFields p dev bi (dataHashOf p tmp)) :
    Binio.readUint32Be (writeHeader p tmp dev bi) off = s % 2 ^ 32 :=
  Binio.readUint32Be_of_readList (readList_writeHeader 4 capacity status member (Binio.uint32Be_length s))

theorem slice_writeHeader (capacity : bi.noIndices ≤ p.b.mmpm)
    (status : dev.status.noBits = p.b.maxMacroblocks) {off : ℕ} {hash : Hash}
    (member : (off, List.ofFn hash) ∈ staticFields p dev bi (dataHashOf p tmp)) :
    slice (writeHeader p tmp dev bi) off 32 = hash := by
  have stored := readList_writeHeader 32 capacity status (mem_headerFields member) (by simp)
  rw [readList_eq_ofFn] at stored
  exact List.ofFn_injective stored

/-- Outside the index block nothing is written. -/
theorem writeHeader_outside (capacity : bi.noIndices ≤ p.b.mmpm)
    (status : dev.status.noBits = p.b.maxMacroblocks) {i : ℕ} (outside : p.mesoblkSize ≤ i) :
    writeHeader p tmp dev bi i = tmp i := by
  have large := mesoblkSize_ge p
  refine (store_outside _ _ (.inr (by simp [indexblockSha256]; omega))).trans ?_
  refine writeFields_outside fun f member => .inr ?_
  exact (headerFields_bounds capacity status f member).2.trans outside

/-- The index block is determined by the state and the encrypted data. -/
theorem writeHeader_congr (capacity : bi.noIndices ≤ p.b.mmpm)
    (status : dev.status.noBits = p.b.maxMacroblocks) {tmp' : Bytes}
    (same : ∀ i, p.mesoblkSize ≤ i → i < p.macroblockSize → tmp i = tmp' i) {i : ℕ}
    (inside : i < p.mesoblkSize) : writeHeader p tmp dev bi i = writeHeader p tmp' dev bi i := by
  have large := mesoblkSize_ge p
  have hashes : dataHashOf p tmp = dataHashOf p tmp' := by
    refine congrArg p.hash (readList_congr fun i lower upper => same i lower ?_)
    rw [p.macroblockSize_eq, Nat.succ_mul]
    omega
  obtain ⟨sorted, perm, tiles⟩ := headerFields_tiles p (dataHashOf p tmp) capacity status
  have fields : ∀ i, 32 ≤ i → i < p.mesoblkSize →
      writeFields tmp (headerFields p dev bi (dataHashOf p tmp)) i =
        writeFields tmp' (headerFields p dev bi (dataHashOf p tmp')) i := fun i lower upper =>
    hashes ▸ tiles.writeFields_congr perm lower upper tmp tmp'
  have first : readList (writeFields tmp (headerFields p dev bi (dataHashOf p tmp))) 32 (p.mesoblkSize - 32) =
      readList (writeFields tmp' (headerFields p dev bi (dataHashOf p tmp'))) 32 (p.mesoblkSize - 32) :=
    readList_congr fun i lower upper => fields i lower (by omega)
  change store _ _ _ i = store _ _ _ i
  by_cases early : i < 32
  · obtain ⟨k, rfl⟩ : ∃ k : Fin 32, i = indexblockSha256 + k := ⟨⟨i, early⟩, by simp [indexblockSha256]⟩
    rw [store_inside, store_inside]
    exact congrFun (congrArg p.hash first) k
  · rw [store_outside _ _ (.inr (by simp [indexblockSha256]; omega)),
      store_outside _ _ (.inr (by simp [indexblockSha256]; omega))]
    exact fields i (by omega) inside

theorem writeHeader_ours (capacity : bi.noIndices ≤ p.b.mmpm)
    (status : dev.status.noBits = p.b.maxMacroblocks) : seemsOurs p (writeHeader p tmp dev bi) = true := by
  rw [seemsOurs, decide_eq_true_iff]
  have stored : (magic64, magic) ∈ staticFields p dev bi (dataHashOf p tmp) := by
    simp only [staticFields, List.mem_cons, true_or, or_true]
  refine ⟨readList_writeHeader 8 capacity status (mem_headerFields stored) rfl, ?_⟩
  rw [writeHeader, slice_store_same]
  refine congrArg p.hash (readList_congr fun i lower _ => ?_)
  exact (store_outside _ _ (.inr (by simpa [indexblockSha256] using lower))).symm

/-- The record that goes to the device with block `bi`. -/
def recordOf (bi : BlockioInfo) (dataHash : Hash) : BlockioInfo :=
  { seqno := bi.seqno, nextSeqno := bi.nextSeqno, dataHash, noIndices := bi.noIndices,
    noNonobsolete := bi.noIndices,
    indices := fun i => if i < bi.noIndices then bi.indices i % 2 ^ 32 else 0 }

theorem writeHeader_parses (storable : Storable p bi) (status : dev.status.noBits = p.b.maxMacroblocks) :
    parseInfo p (writeHeader p tmp dev bi) {} = .ok (recordOf bi (dataHashOf p tmp)) := by
  have capacity := storable.noIndices
  have few : p.b.mmpm < 2 ^ 32 := by
    have := p.sound.mmpm
    have : 2 ^ p.b.mesobits ≤ 2 ^ 14 := Nat.pow_le_pow_right (by decide) p.sound.mesobits_le
    omega
  have seqno : Binio.readUint64Be (writeHeader p tmp dev bi) seqnoUint64 = bi.seqno :=
    readUint64Be_writeHeader capacity status (storable.seqno_lt.trans storable.nextSeqno)
      (by simp only [staticFields, List.mem_cons, true_or, or_true])
  have nextSeqno : Binio.readUint64Be (writeHeader p tmp dev bi) nextSeqnoUint64 = bi.nextSeqno :=
    readUint64Be_writeHeader capacity status storable.nextSeqno
      (by simp only [staticFields, List.mem_cons, true_or, or_true])
  have count : Binio.readUint32Be (writeHeader p tmp dev bi) noIndicesUint32 = bi.noIndices := by
    have stored : (noIndicesUint32, Binio.uint32Be bi.noIndices) ∈ staticFields p dev bi (dataHashOf p tmp) := by
      simp only [staticFields, List.mem_cons, true_or, or_true]
    rw [readUint32Be_writeHeader capacity status (mem_headerFields stored), Nat.mod_eq_of_lt (by omega)]
  have used (i : ℕ) (bound : i < bi.noIndices) :
      indexWord (writeHeader p tmp dev bi) i = bi.indices i % 2 ^ 32 := by
    have member : (noIndicesUint32 + 4 * (i + 1), Binio.uint32Be (bi.indices i)) ∈
        headerFields p dev bi (dataHashOf p tmp) := by
      have inWords := Binio.mem_words (noIndicesUint32 + 4) bi.indices bound
      have place : noIndicesUint32 + 4 * (i + 1) = noIndicesUint32 + 4 + 4 * i := by omega
      rw [place]
      exact List.mem_append_left _ (List.mem_append_left _ (List.mem_append_right _ inWords))
    exact readUint32Be_writeHeader capacity status member
  have unused (i : ℕ) (bound : i < p.b.mmpm) (beyond : bi.noIndices ≤ i) :
      indexWord (writeHeader p tmp dev bi) i = 0 := by
    have member : (noIndicesUint32 + 4 * (i + 1), Binio.uint32Be 0) ∈
        headerFields p dev bi (dataHashOf p tmp) := by
      have inWords := Binio.mem_words (noIndicesUint32 + 4 * (bi.noIndices + 1)) (fun _ => 0)
        (show i - bi.noIndices < p.b.mmpm - bi.noIndices by omega)
      have place : noIndicesUint32 + 4 * (i + 1) =
          noIndicesUint32 + 4 * (bi.noIndices + 1) + 4 * (i - bi.noIndices) := by omega
      rw [place]
      exact List.mem_append_left _ (List.mem_append_right _ inWords)
    exact readUint32Be_writeHeader capacity status member
  refine (parseInfo_eq_ok_iff p).mpr ⟨⟨?_, ?_, ?_, ?_, ?_⟩, ?_⟩
  · exact readList_writeHeader 128 capacity status (mem_headerFields
      (by simp only [staticFields, List.mem_cons, true_or, or_true])) (by simp)
  · rw [seqno]; exact storable.seqno_pos
  · rw [seqno, nextSeqno]; exact storable.seqno_lt
  · rw [count]; exact capacity
  · intro i bound beyond
    exact unused i bound (by rwa [count] at beyond)
  · have dataHash : slice (writeHeader p tmp dev bi) datablocksSha256 32 = dataHashOf p tmp :=
      slice_writeHeader capacity status (by simp only [staticFields, List.mem_cons, true_or])
    have indices : (fun i => if i < bi.noIndices then indexWord (writeHeader p tmp dev bi) i else 0) =
        fun i => if i < bi.noIndices then bi.indices i % 2 ^ 32 else 0 := by
      funext i
      split
      · next bound => exact used i bound
      · rfl
    rw [parsed, recordOf, seqno, nextSeqno, count, dataHash, indices]

end Header

/-! ## The written macroblock -/

/-- The state after writing the current block `id`. -/
def afterWrite (dev : BlockioDev) (id : ℕ) : BlockioDev :=
  let bi := dev.b.infos id
  let tmp := encodeMacroblock p dev bi id
  { dev with
    writes := dev.writes + 1
    tmpMacroblock := tmp
    bi := none
    b := { dev.b with
      infos := dev.b.infos.set id { bi with noNonobsolete := bi.noIndices }
      base := blit dev.b.base (id * p.macroblockSize) p.macroblockSize tmp
      written := { id, seqno := bi.seqno, indexIv := indexIv id,
                   dataIvs := (List.range' 1 p.b.mmpm).map fun i => dataIv bi.seqno i id } ::
        dev.b.written } }

theorem writeCurrentMacroblock_eq_ok_iff {dev dev' : BlockioDev} :
    writeCurrentMacroblock p dev = .ok dev' ↔ ∃ id, dev.bi = some id ∧ (dev.b.infos id).dev ≠ none ∧
      id < p.b.totalMacroblocks ∧ (dev.b.infos id).noIndices ≤ p.b.mmpm ∧ afterWrite p dev id = dev' := by
  unfold writeCurrentMacroblock
  cases current : dev.bi with
  | none => simp [throw, throwThe, MonadExceptOf.throw]
  | some id =>
    simp only [Except.bind_eq_ok_iff, check_eq_ok_iff, Except.ite_throw_eq_ok_iff, Except.pure_eq_ok_iff,
      Option.some.injEq, exists_eq_left', not_lt, exists_const]
    rfl

section Image

variable {p} {dev : BlockioDev} {bi : BlockioInfo} (id : ℕ)

theorem macroblock_bound {k : ℕ} (bound : k ≤ p.b.mmpm) :
    k * p.mesoblkSize + p.mesoblkSize ≤ p.macroblockSize := by
  rw [p.macroblockSize_eq, ← Nat.succ_mul]
  exact Nat.mul_le_mul_right _ (by omega)

/-- A data block in use goes to the device encrypted. -/
theorem slice_encryptData {tmp : Bytes} {k : ℕ} (used : k < bi.noIndices) (capacity : bi.noIndices ≤ p.b.mmpm) :
    slice (encryptData p tmp bi id) ((k + 1) * p.mesoblkSize) p.mesoblkSize =
      p.c.enc (dataIv bi.seqno (k + 1) id) (slice tmp ((k + 1) * p.mesoblkSize) p.mesoblkSize) := by
  unfold encryptData
  rw [slice_mapBlocks _ _ (by omega) (by omega)]
  congr 1
  refine slice_congr fun i _ upper => mapBlocks_outside _ _ (.inl ?_)
  calc i < (k + 1) * p.mesoblkSize + p.mesoblkSize := upper
    _ = (k + 1 + 1) * p.mesoblkSize := (Nat.succ_mul _ _).symm
    _ ≤ (bi.noIndices + 1) * p.mesoblkSize := Nat.mul_le_mul_right _ (by omega)

/-- The encrypted data is determined by the data area of the buffer. -/
theorem encryptData_congr {tmp tmp' : Bytes} (capacity : bi.noIndices ≤ p.b.mmpm)
    (same : ∀ i, p.mesoblkSize ≤ i → i < p.macroblockSize → tmp i = tmp' i) {i : ℕ}
    (lower : p.mesoblkSize ≤ i) (upper : i < p.macroblockSize) :
    encryptData p tmp bi id i = encryptData p tmp' bi id i := by
  have size := p.macroblockSize_eq
  have last : (bi.noIndices + 1 + (p.b.mmpm - bi.noIndices)) * p.mesoblkSize ≤ p.macroblockSize := by
    rw [size]
    exact Nat.mul_le_mul_right _ (by omega)
  refine mapBlocks_congr _ (fun i h h' => mapBlocks_congr _ same ?_ last h h') ?_ ?_ lower upper
  · exact Nat.le_mul_of_pos_left _ (Nat.succ_pos _)
  · rw [one_mul]
  · rw [size, Nat.add_comm]

theorem slice_encodeMacroblock_index :
    slice (encodeMacroblock p dev bi id) 0 p.mesoblkSize =
      p.c.enc (indexIv id)
        (slice (writeHeader p (encryptData p dev.tmpMacroblock bi id) dev bi) 0 p.mesoblkSize) :=
  slice_store_same ..

theorem slice_encodeMacroblock_data (capacity : bi.noIndices ≤ p.b.mmpm)
    (status : dev.status.noBits = p.b.maxMacroblocks) (k : ℕ) :
    slice (encodeMacroblock p dev bi id) ((k + 1) * p.mesoblkSize) p.mesoblkSize =
      slice (encryptData p dev.tmpMacroblock bi id) ((k + 1) * p.mesoblkSize) p.mesoblkSize := by
  have beyond : p.mesoblkSize ≤ (k + 1) * p.mesoblkSize := Nat.le_mul_of_pos_left _ (Nat.succ_pos k)
  refine slice_congr fun i lower _ => ?_
  have outside : p.mesoblkSize ≤ i := beyond.trans lower
  exact (store_outside _ _ (.inr (by rwa [Nat.zero_add]))).trans (writeHeader_outside capacity status outside)

/-- A part of the macroblock that was written. -/
theorem slice_blit_same (base image : Bytes) (off : ℕ) {n : ℕ} (inside : off + n ≤ p.macroblockSize) :
    slice (blit base (id * p.macroblockSize) p.macroblockSize image) (id * p.macroblockSize + off) n =
      slice image off n := by
  funext i
  rw [slice_apply, slice_apply, Nat.add_assoc]
  exact blit_inside base image (by omega)

/-- A part of another macroblock. -/
theorem slice_blit_other (base image : Bytes) (off : ℕ) {no n : ℕ} (other : no ≠ id)
    (inside : off + n ≤ p.macroblockSize) :
    slice (blit base (id * p.macroblockSize) p.macroblockSize image) (no * p.macroblockSize + off) n =
      slice base (no * p.macroblockSize + off) n := by
  refine slice_blit_disjoint base image ?_
  rcases Nat.lt_or_gt_of_ne other with below | above
  · left
    calc no * p.macroblockSize + off + n ≤ no * p.macroblockSize + p.macroblockSize := by omega
      _ = (no + 1) * p.macroblockSize := (Nat.succ_mul _ _).symm
      _ ≤ id * p.macroblockSize := Nat.mul_le_mul_right _ below
  · right
    calc id * p.macroblockSize + p.macroblockSize = (id + 1) * p.macroblockSize := (Nat.succ_mul _ _).symm
      _ ≤ no * p.macroblockSize := Nat.mul_le_mul_right _ above
      _ ≤ no * p.macroblockSize + off := Nat.le_add_right _ _

/-- The header of a macroblock only depends on that macroblock. -/
theorem header_congr {base base' : Bytes} {c : ℕ}
    (same : slice base' (c * p.macroblockSize) p.macroblockSize = slice base (c * p.macroblockSize) p.macroblockSize) :
    header p base' c = header p base c := by
  have size : p.mesoblkSize ≤ p.macroblockSize := by
    rw [p.macroblockSize_eq]
    exact Nat.le_mul_of_pos_left _ (Nat.succ_pos _)
  have prefixSame : slice base' (c * p.macroblockSize) p.mesoblkSize = slice base (c * p.macroblockSize) p.mesoblkSize := by
    funext i
    exact congrFun same ⟨i, i.isLt.trans_le size⟩
  rw [header, prefixSame, header]

theorem header_blit_other (base image : Bytes) {no : ℕ} (other : no ≠ id) :
    header p (blit base (id * p.macroblockSize) p.macroblockSize image) no = header p base no := by
  have inside := macroblock_bound (p := p) (Nat.zero_le _)
  have same := slice_blit_other (p := p) (n := p.mesoblkSize) id base image 0 other (by omega)
  rw [header, header]
  exact congrArg (fun block => ofBlock (p.c.dec (indexIv no) block)) same

/-- The index block on the device decrypts to the one that was built. -/
theorem header_encode (base : Bytes) {i : ℕ} (bound : i < p.mesoblkSize) :
    header p (blit base (id * p.macroblockSize) p.macroblockSize (encodeMacroblock p dev bi id)) id i =
      writeHeader p (encryptData p dev.tmpMacroblock bi id) dev bi i := by
  have inside := macroblock_bound (p := p) (Nat.zero_le _)
  have same := slice_blit_same (p := p) (n := p.mesoblkSize) id base (encodeMacroblock p dev bi id) 0 (by omega)
  rw [Nat.add_zero] at same
  rw [header, same, slice_encodeMacroblock_index, p.c.dec_enc, ofBlock_apply _ bound, slice_apply,
    Nat.zero_add]

/-- The written macroblock carries the record of the current block. -/
theorem carries_encode (base : Bytes) (storable : Storable p bi)
    (status : dev.status.noBits = p.b.maxMacroblocks) :
    Carries p (blit base (id * p.macroblockSize) p.macroblockSize (encodeMacroblock p dev bi id)) id
      (recordOf bi (dataHashOf p (encryptData p dev.tmpMacroblock bi id))) := by
  refine ⟨?_, ?_⟩
  · rw [seemsOurs_congr p fun i bound => header_encode id base bound]
    exact writeHeader_ours storable.noIndices status
  · exact parseInfo_congr p (fun i bound => (header_encode id base bound).symm)
      (writeHeader_parses storable status)

/-- A data block in use is read back as it was. -/
theorem dec_encode (base : Bytes) (capacity : bi.noIndices ≤ p.b.mmpm)
    (status : dev.status.noBits = p.b.maxMacroblocks) {k : ℕ} (used : k < bi.noIndices) :
    p.c.dec (bi.seqno, k + 1, id)
        (slice (blit base (id * p.macroblockSize) p.macroblockSize (encodeMacroblock p dev bi id))
          (id * p.macroblockSize + (k + 1) * p.mesoblkSize) p.mesoblkSize) =
      slice dev.tmpMacroblock ((k + 1) * p.mesoblkSize) p.mesoblkSize := by
  rw [slice_blit_same id base _ _ (macroblock_bound (by omega)), slice_encodeMacroblock_data id capacity status,
    slice_encryptData id used capacity]
  exact p.c.dec_enc _ _

end Image

end Scubed3.Blockio
