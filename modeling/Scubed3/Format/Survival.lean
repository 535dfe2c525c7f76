import Scubed3.Format.Scan
import Scubed3.Model.ScanHeader
import Mathlib

/-! # What a scan does with any header

The fields of a header that can be read lie in the index block, for every geometry that `blockio_init_file`
computes. The loop that takes the indices trusts the number of indices in the header: when this number is larger
than `mmpm` the loop stores behind the end of the array. A header whose sequence number is that of a macroblock
that was accepted before runs into an assertion. Every other header is accepted, left alone, or fatal.
-/

namespace Scubed3.Blockio.Checked

variable {b : Geometry}

/-! ## Accesses -/

theorem access_eq {off len : ℕ} (inside : off + len ≤ 2 ^ b.mesoblkLog) : access b off len = .ok () := by
  rw [access, Nat.one_shiftLeft, if_pos inside]

theorem readList_eq {tmp : Bytes} {off len : ℕ} (inside : off + len ≤ 2 ^ b.mesoblkLog) :
    readList b tmp off len = .ok (Memory.readList tmp off len) := by
  rw [readList, access_eq inside]
  rfl

theorem readHash_eq {tmp : Bytes} {off : ℕ} (inside : off + 32 ≤ 2 ^ b.mesoblkLog) :
    readHash b tmp off = .ok (Memory.slice tmp off 32) := by
  rw [readHash, access_eq inside]
  rfl

theorem readUint32Be_eq {tmp : Bytes} {off : ℕ} (inside : off + 4 ≤ 2 ^ b.mesoblkLog) :
    readUint32Be b tmp off = .ok (Binio.readUint32Be tmp off) := by
  rw [readUint32Be, access_eq inside]
  rfl

theorem readUint64Be_eq {tmp : Bytes} {off : ℕ} (inside : off + 8 ≤ 2 ^ b.mesoblkLog) :
    readUint64Be b tmp off = .ok (Binio.readUint64Be tmp off) := by
  rw [readUint64Be, access_eq inside]
  rfl

/-! ## The index block of a computed geometry -/

/-- There is room for the static fields, for one index more than there are slots, and for the bitmap. -/
theorem room (computed : b.Computed) : 264 + 4 * b.mmpm ≤ 2 ^ b.mesoblkLog ∧
    b.bitmapOffset + 4 * Bitmap.words b.maxMacroblocks ≤ 2 ^ b.mesoblkLog := by
  obtain ⟨-, -, -, offset, room, max, -⟩ := computed
  have large : 9 ≤ b.mesoblkLog := by
    by_contra small
    have : 2 ^ b.mesoblkLog ≤ 2 ^ 8 := Nat.pow_le_pow_right (by decide) (by omega)
    omega
  have factor : 2 ^ b.mesoblkLog = 512 * 2 ^ (b.mesoblkLog - 9) := by
    rw [show (512 : ℕ) = 2 ^ 9 from rfl, ← Nat.pow_add, Nat.add_sub_cancel' large]
  refine ⟨by omega, ?_⟩
  have whole := Nat.mod_le ((2 ^ b.mesoblkLog - b.bitmapOffset) * 8) (2 ^ 32)
  have words : Bitmap.words b.maxMacroblocks ≤ (b.maxMacroblocks + 31) / 32 :=
    Nat.div_le_div_right (Nat.mod_le ..)
  omega

theorem readUint32Be_index (computed : b.Computed) (tmp : Bytes) {i : ℕ} (bound : i ≤ b.mmpm + 1) :
    readUint32Be b tmp (noIndicesUint32 + 4 * i) = .ok (Binio.readUint32Be tmp (noIndicesUint32 + 4 * i)) := by
  have := (room computed).1
  exact readUint32Be_eq (by simp only [noIndicesUint32]; omega)

/-! ## The two loops over the indices -/

theorem copyIndices_eq (computed : b.Computed) (tmp : Bytes) {turns k : ℕ} (bound : k + turns ≤ b.mmpm)
    (indices : ℕ → ℕ) : copyIndices b tmp turns (k + 1) indices =
      .ok fun i => if k ≤ i ∧ i < k + turns then indexWord tmp i else indices i := by
  induction turns generalizing k indices with
  | zero =>
    refine congrArg Except.ok (funext fun i => ?_)
    rw [if_neg (by omega)]
  | succ turns ih =>
    have slot : k < b.mmpm := by omega
    rw [copyIndices, readUint32Be_index computed tmp (by omega)]
    change (storeIndex b indices (k + 1) _ >>= fun indices => copyIndices b tmp turns (k + 1 + 1) indices) = _
    rw [storeIndex, Nat.add_sub_cancel, if_pos slot]
    refine (ih (by omega) _).trans (congrArg Except.ok (funext fun i => ?_))
    by_cases first : i = k
    · rw [first, if_neg (by omega), if_pos (by omega), Function.update_self]
      rfl
    · rw [Function.update_of_ne first]
      exact if_congr (by omega) rfl rfl

/-- The loop reaches the slot behind the last one. -/
theorem copyIndices_overrun (computed : b.Computed) (tmp : Bytes) {turns k : ℕ} (start : k ≤ b.mmpm)
    (overrun : b.mmpm < k + turns) (indices : ℕ → ℕ) :
    copyIndices b tmp turns (k + 1) indices = .error (.outOfBounds "bi->indices[i-1]") := by
  induction turns generalizing k indices with
  | zero => omega
  | succ turns ih =>
    rw [copyIndices, readUint32Be_index computed tmp (by omega)]
    change (storeIndex b indices (k + 1) _ >>= fun indices => copyIndices b tmp turns (k + 1 + 1) indices) = _
    rw [storeIndex, Nat.add_sub_cancel]
    by_cases slot : k < b.mmpm
    · rw [if_pos slot]
      exact ih (by omega) (by omega) _
    · rw [if_neg slot]
      rfl

theorem checkUnused_eq (computed : b.Computed) (tmp : Bytes) {turns k : ℕ} (bound : k + turns ≤ b.mmpm) :
    checkUnused b tmp turns (k + 1) = if ∀ i < k + turns, k ≤ i → indexWord tmp i = 0 then .ok ()
      else .error (.fatal "unused indices must be zero, they are not") := by
  induction turns generalizing k with
  | zero =>
    rw [if_pos fun i _ _ => by omega]
    rfl
  | succ turns ih =>
    rw [checkUnused, readUint32Be_index computed tmp (by omega)]
    change (if indexWord tmp k ≠ 0 then _ else checkUnused b tmp turns (k + 1 + 1)) = _
    by_cases zero : indexWord tmp k = 0
    · rw [if_neg (not_not.mpr zero), ih (by omega)]
      refine if_congr ⟨fun rest i upper lower => ?_, fun all i upper lower => all i (by omega) (by omega)⟩ rfl rfl
      by_cases first : i = k
      · rw [first, zero]
      · exact rest i (by omega) (by omega)
    · rw [if_pos zero, if_neg fun all => zero (all k (by omega) le_rfl)]
      rfl

/-! ## One header -/

/-- The macroblock carries our magic and the hash of its index block. -/
def Ours (b : Geometry) (hash : List UInt8 → Hash) (tmp : Bytes) : Prop :=
  Memory.readList tmp magic64 8 = magic ∧
    Memory.slice tmp indexblockSha256 32 = hash (Memory.readList tmp 32 (2 ^ b.mesoblkLog - 32))

/-- The header passes the three tests that come before its indices. -/
structure Dated (tmp : Bytes) : Prop where
  reserved : Memory.readList tmp reservedSpace1024 128 = List.replicate 128 0
  seqno_pos : Binio.readUint64Be tmp seqnoUint64 ≠ 0
  seqno_lt : Binio.readUint64Be tmp seqnoUint64 < Binio.readUint64Be tmp nextSeqnoUint64

/-- The number of indices of a header. -/
abbrev noIndices (tmp : Bytes) : ℕ := Binio.readUint32Be tmp noIndicesUint32

/-- The unused indices are zero. -/
def Blank (b : Geometry) (tmp : Bytes) : Prop := ∀ i < b.mmpm, noIndices tmp ≤ i → indexWord tmp i = 0

theorem seemsOurs_eq (computed : b.Computed) (hash : List UInt8 → Hash) (tmp : Bytes) :
    ∃ ours, seemsOurs b hash tmp = .ok ours ∧ (ours = true ↔ Ours b hash tmp) := by
  have := (room computed).1
  rw [seemsOurs, readList_eq (by simp only [magic64]; omega)]
  change ∃ ours, (if Memory.readList tmp magic64 8 ≠ magic then _ else _) = Except.ok ours ∧ _
  by_cases same : Memory.readList tmp magic64 8 = magic
  · rw [if_neg (not_not.mpr same), Nat.one_shiftLeft, readList_eq (by omega)]
    change ∃ ours, (readHash b tmp indexblockSha256 >>= fun digest => pure (decide (digest = _))) = Except.ok ours ∧ _
    rw [readHash_eq (by simp only [indexblockSha256]; omega)]
    refine ⟨_, rfl, ?_⟩
    rw [decide_eq_true_iff, Ours]
    exact (and_iff_right same).symm
  · rw [if_pos same]
    exact ⟨false, rfl, by simp [Ours, same]⟩

/-- Up to the loops, taking the record only looks at static fields. -/
theorem parseInfo_start (computed : b.Computed) (tmp : Bytes) (bi : BlockioInfo) : parseInfo b tmp bi =
    if Memory.readList tmp reservedSpace1024 128 ≠ List.replicate 128 0 then
      .error (.fatal "reserved space is not zeroed out")
    else if Binio.readUint64Be tmp seqnoUint64 = 0 then
      .error (.fatal "block found with seqno 0, not possibile")
    else if Binio.readUint64Be tmp nextSeqnoUint64 ≤ Binio.readUint64Be tmp seqnoUint64 then
      .error (.fatal "block found with seqno >= next_seqno, not possible")
    else do
      let indices ← copyIndices b tmp (noIndices tmp) (0 + 1) fun _ => 0
      checkUnused b tmp (b.mmpm - noIndices tmp) (noIndices tmp + 1)
      return { parsed tmp bi with indices } := by
  have := (room computed).1
  rw [parseInfo, readHash_eq (by simp only [datablocksSha256]; omega),
    readUint64Be_eq (by simp only [seqnoUint64]; omega), readUint64Be_eq (by simp only [nextSeqnoUint64]; omega),
    readList_eq (by simp only [reservedSpace1024]; omega),
    readUint32Be_eq (by simp only [noIndicesUint32]; omega)]
  change (if _ then _ else if _ then _ else if _ then _ else _) = _
  split
  · rfl
  · split
    · rfl
    · split
      · rfl
      · rfl

/-- All that taking the record of a header can do. -/
theorem parseInfo_cases (computed : b.Computed) (tmp : Bytes) (bi : BlockioInfo) :
    (¬ Dated tmp ∧ ∃ message, parseInfo b tmp bi = .error (.fatal message)) ∨
    (Dated tmp ∧ b.mmpm < noIndices tmp ∧ parseInfo b tmp bi = .error (.outOfBounds "bi->indices[i-1]")) ∨
    (Dated tmp ∧ noIndices tmp ≤ b.mmpm ∧ ¬ Blank b tmp ∧
      parseInfo b tmp bi = .error (.fatal "unused indices must be zero, they are not")) ∨
    (Dated tmp ∧ noIndices tmp ≤ b.mmpm ∧ Blank b tmp ∧ parseInfo b tmp bi = .ok (parsed tmp bi)) := by
  rw [parseInfo_start computed]
  by_cases reserved : Memory.readList tmp reservedSpace1024 128 = List.replicate 128 0
  swap
  · exact .inl ⟨fun dated => reserved dated.reserved, _, if_pos reserved⟩
  rw [if_neg (not_not.mpr reserved)]
  by_cases seqno : Binio.readUint64Be tmp seqnoUint64 = 0
  · exact .inl ⟨fun dated => dated.seqno_pos seqno, _, if_pos seqno⟩
  rw [if_neg seqno]
  by_cases order : Binio.readUint64Be tmp nextSeqnoUint64 ≤ Binio.readUint64Be tmp seqnoUint64
  · exact .inl ⟨fun dated => absurd dated.seqno_lt (not_lt.mpr order), _, if_pos order⟩
  rw [if_neg order]
  have dated : Dated tmp := ⟨reserved, seqno, not_le.mp order⟩
  by_cases large : b.mmpm < noIndices tmp
  · refine .inr (.inl ⟨dated, large, ?_⟩)
    rw [copyIndices_overrun computed tmp (Nat.zero_le _) (by omega)]
    rfl
  · rw [copyIndices_eq computed tmp (by omega)]
    change _ ∨ _ ∨ (_ ∧ _ ∧ _ ∧ (checkUnused b tmp (b.mmpm - noIndices tmp) (noIndices tmp + 1) >>= fun _ => _) = _) ∨
      _ ∧ _ ∧ _ ∧ (checkUnused b tmp (b.mmpm - noIndices tmp) (noIndices tmp + 1) >>= fun _ => _) = _
    rw [checkUnused_eq computed tmp (by omega), Nat.add_sub_of_le (not_lt.mp large)]
    by_cases blank : ∀ i < b.mmpm, noIndices tmp ≤ i → indexWord tmp i = 0
    · refine .inr (.inr (.inr ⟨dated, not_lt.mp large, blank, ?_⟩))
      rw [if_pos blank]
      simp only [Nat.zero_le, true_and, Nat.zero_add]
      rfl
    · refine .inr (.inr (.inl ⟨dated, not_lt.mp large, blank, ?_⟩))
      rw [if_neg blank]
      rfl

/-! ## One macroblock -/

/-- What holds between two macroblocks of the scan. -/
structure Scanning (b : Geometry) (dev : BlockioDev) (highest : ℕ) : Prop where
  noBits : dev.status.noBits = b.maxMacroblocks
  unallocated : ∀ i < b.totalMacroblocks, (dev.b.infos i).dev = none → i ∈ dev.b.unallocated
  taken : ∀ i ∈ dev.replay, (dev.b.infos i).dev ≠ none
  sorted : dev.replay.SortedByKey fun i => (dev.b.infos i).seqno
  highest : (dev.replay = [] ∧ highest = 0) ∨ ∃ top ∈ dev.replay, (dev.b.infos top).seqno = highest

/-- A macroblock that was accepted before has this sequence number. -/
def Repeated (dev : BlockioDev) (seqno : ℕ) : Prop := ∃ i ∈ dev.replay, (dev.b.infos i).seqno = seqno

variable (b) in
/-- The state in which macroblock `no` is accepted, with the record of its header. -/
def accepted (dev : BlockioDev) (tmp : Bytes) (no : ℕ) (replay : List ℕ) (highest : ℕ) : BlockioDev × ℕ :=
  let dev := { dev with
    tmpMacroblock := tmp
    replay
    b := { dev.b with
      infos := dev.b.infos.set no { parsed tmp (dev.b.infos no) with dev := some dev.self }
      unallocated := dev.b.unallocated.erase no } }
  if Binio.readUint64Be tmp seqnoUint64 > highest then
    ({ dev with
      status := dev.status.read tmp b.bitmapOffset
      seqnosHash := Memory.slice tmp seqnosSha256 32
      noMacroblocks := Binio.readUint32Be tmp noMacroblocksUint32
      reservedMacroblocks := Binio.readUint32Be tmp reservedBlocksUint32 }, Binio.readUint64Be tmp seqnoUint64)
  else (dev, highest)

section

variable {c : Cipher (2 ^ b.mesoblkLog)} {hash : List UInt8 → Hash} {dev : BlockioDev} {no highest : ℕ}

/-- The replay list with macroblock `no` sorted in, once its record has a new sequence number. -/
theorem sortToReplay_eq (scanning : Scanning b dev highest) (untaken : (dev.b.infos no).dev = none)
    (info : BlockioInfo) :
    (Repeated dev info.seqno ∧ ∃ expr, sortToReplay (dev.b.infos.set no info) dev.replay no = .error (.assertion expr)) ∨
    (¬ Repeated dev info.seqno ∧ ∃ replay, sortToReplay (dev.b.infos.set no info) dev.replay no = .ok replay) := by
  have other (i : ℕ) (member : i ∈ dev.replay) : (dev.b.infos.set no info) i = dev.b.infos i :=
    BlockioInfos.set_of_ne _ _ fun same => scanning.taken i member (same ▸ untaken)
  have sorted : dev.replay.SortedByKey fun i => ((dev.b.infos.set no info) i).seqno := by
    refine scanning.sorted.imp_of_mem fun {i j} first second below => ?_
    change ((dev.b.infos.set no info) i).seqno < ((dev.b.infos.set no info) j).seqno
    rw [other i first, other j second]
    exact below
  unfold sortToReplay
  by_cases repeated : Repeated dev info.seqno
  · obtain ⟨i, member, same⟩ := repeated
    refine .inl ⟨⟨i, member, same⟩, "*seqno != bi->seqno", ?_⟩
    rw [List.insertByKey_eq_none sorted member (by rw [other i member, BlockioInfos.set_same, same])]
  · have fresh : ∀ i ∈ dev.replay, ((dev.b.infos.set no info) i).seqno ≠ ((dev.b.infos.set no info) no).seqno := by
      intro i member same
      rw [other i member, BlockioInfos.set_same] at same
      exact repeated ⟨i, member, same⟩
    obtain ⟨replay, inserted⟩ := List.insertByKey_isSome fresh
    exact .inr ⟨repeated, replay, by rw [inserted]⟩

variable (hash) in
/-- All that a scan of one macroblock can do. -/
theorem scanHeader_cases (computed : b.Computed) (scanning : Scanning b dev highest)
    (inside : no < b.totalMacroblocks) :
    ((dev.b.infos no).dev ≠ none ∧ scanHeader b c hash dev no highest = .ok (dev, highest)) ∨
    ((dev.b.infos no).dev = none ∧ ¬ Ours b hash (readHeader b c dev no) ∧
      scanHeader b c hash dev no highest = .ok ({ dev with tmpMacroblock := readHeader b c dev no }, highest)) ∨
    ((dev.b.infos no).dev = none ∧ Ours b hash (readHeader b c dev no) ∧
      ((¬ Dated (readHeader b c dev no) ∧ ∃ message, scanHeader b c hash dev no highest = .error (.fatal message)) ∨
      Dated (readHeader b c dev no) ∧
        ((b.mmpm < noIndices (readHeader b c dev no) ∧
          scanHeader b c hash dev no highest = .error (.outOfBounds "bi->indices[i-1]")) ∨
        noIndices (readHeader b c dev no) ≤ b.mmpm ∧
          ((¬ Blank b (readHeader b c dev no) ∧ ∃ message, scanHeader b c hash dev no highest = .error (.fatal message)) ∨
          Blank b (readHeader b c dev no) ∧
            ((Repeated dev (Binio.readUint64Be (readHeader b c dev no) seqnoUint64) ∧
              ∃ expr, scanHeader b c hash dev no highest = .error (.assertion expr)) ∨
            (¬ Repeated dev (Binio.readUint64Be (readHeader b c dev no) seqnoUint64) ∧ ∃ replay,
              sortToReplay (dev.b.infos.set no
                { parsed (readHeader b c dev no) (dev.b.infos no) with dev := some dev.self }) dev.replay no =
                  .ok replay ∧
              scanHeader b c hash dev no highest =
                .ok (accepted b dev (readHeader b c dev no) no replay highest))))))) := by
  set tmp := readHeader b c dev no with tmpEq
  by_cases taken : (dev.b.infos no).dev ≠ none
  · refine .inl ⟨taken, ?_⟩
    rw [scanHeader, check_of _ _ inside]
    exact if_pos taken
  have untaken := not_not.mp taken
  obtain ⟨ours, seems, iff⟩ := seemsOurs_eq computed hash tmp
  have start : scanHeader b c hash dev no highest = if !ours then .ok ({ dev with tmpMacroblock := tmp }, highest) else do
      let bi ← parseInfo b tmp (dev.b.infos no)
      let infos := dev.b.infos.set no { bi with dev := some dev.self }
      check (no ∈ dev.b.unallocated) "at_elt->prev"
      let replay ← sortToReplay infos dev.replay no
      let dev := { dev with
        tmpMacroblock := tmp
        replay
        b := { dev.b with infos, unallocated := dev.b.unallocated.erase no } }
      check (bi.seqno ≠ highest) "bi->seqno != *seqno"
      if bi.seqno > highest then
        let status ← readBitmap b dev.status tmp
        let seqnosHash ← readHash b tmp seqnosSha256
        let noMacroblocks ← readUint32Be b tmp noMacroblocksUint32
        let reservedMacroblocks ← readUint32Be b tmp reservedBlocksUint32
        return ({ dev with status, seqnosHash, noMacroblocks, reservedMacroblocks }, bi.seqno)
      else return (dev, highest) := by
    rw [scanHeader, check_of _ _ inside]
    change (if _ then _ else seemsOurs b hash tmp >>= fun ours => _) = _
    rw [if_neg taken, seems]
    cases ours <;> rfl
  by_cases isOurs : Ours b hash tmp
  swap
  · refine .inr (.inl ⟨untaken, isOurs, ?_⟩)
    rw [start, if_pos (by simpa using fun same => isOurs (iff.mp same))]
  refine .inr (.inr ⟨untaken, isOurs, ?_⟩)
  rw [iff.mpr isOurs] at start
  rcases parseInfo_cases computed tmp (dev.b.infos no) with
    ⟨undated, message, parse⟩ | ⟨dated, large, parse⟩ | ⟨dated, fits, notBlank, parse⟩ | ⟨dated, fits, blank, parse⟩
  · exact .inl ⟨undated, message, by rw [start, parse]; rfl⟩
  · exact .inr ⟨dated, .inl ⟨large, by rw [start, parse]; rfl⟩⟩
  · exact .inr ⟨dated, .inr ⟨fits, .inl ⟨notBlank, _, by rw [start, parse]; rfl⟩⟩⟩
  refine .inr ⟨dated, .inr ⟨fits, .inr ⟨blank, ?_⟩⟩⟩
  have listed := scanning.unallocated no inside untaken
  rcases sortToReplay_eq scanning untaken { parsed tmp (dev.b.infos no) with dev := some dev.self } with
    ⟨repeated, expr, sort⟩ | ⟨fresh, replay, sort⟩
  · refine .inl ⟨repeated, expr, ?_⟩
    rw [start, parse]
    change (check _ _ >>= fun _ => sortToReplay _ _ _ >>= fun _ => _) = _
    rw [check_of _ _ listed, sort]
    rfl
  · refine .inr ⟨fresh, replay, sort, ?_⟩
    have new : Binio.readUint64Be tmp seqnoUint64 ≠ highest := by
      rcases scanning.highest with ⟨-, zero⟩ | ⟨top, member, same⟩
      · exact zero ▸ dated.seqno_pos
      · exact fun repeats => fresh ⟨top, member, same.trans repeats.symm⟩
    have large := (room computed).1
    have bitmap : b.bitmapOffset + dev.status.size ≤ 2 ^ b.mesoblkLog := by
      have := (room computed).2
      rw [Bitmap.size, scanning.noBits]
      omega
    rw [start, parse]
    change (check _ _ >>= fun _ => sortToReplay _ _ _ >>= fun _ => check _ _ >>= fun _ =>
      if Binio.readUint64Be tmp seqnoUint64 > highest then readBitmap b dev.status tmp >>= fun _ => _ else _) = _
    rw [check_of _ _ listed, sort]
    change (check (Binio.readUint64Be tmp seqnoUint64 ≠ highest) _ >>= fun _ =>
      if Binio.readUint64Be tmp seqnoUint64 > highest then readBitmap b dev.status tmp >>= fun _ => _ else _) = _
    rw [check_of _ _ new, accepted]
    by_cases higher : Binio.readUint64Be tmp seqnoUint64 > highest
    · rw [if_pos higher, readBitmap, access_eq bitmap, readHash_eq (by simp only [seqnosSha256]; omega),
        readUint32Be_eq (by simp only [noMacroblocksUint32]; omega),
        readUint32Be_eq (by simp only [reservedBlocksUint32]; omega)]
      exact congrArg Except.ok (if_pos higher).symm
    · rw [if_neg higher]
      exact congrArg Except.ok (if_neg higher).symm

/-! ## The whole scan -/

/-- Before the first macroblock. -/
theorem Scanning.start {device : Blockio} (addr : ℕ)
    (unallocated : ∀ i < b.totalMacroblocks, (device.infos i).dev = none → i ∈ device.unallocated) :
    Scanning b { b := device, self := addr, status := Bitmap.init b.maxMacroblocks } 0 where
  noBits := rfl
  unallocated := unallocated
  taken := nofun
  sorted := .nil
  highest := .inl ⟨rfl, rfl⟩

/-- A macroblock that is accepted keeps the scan going. -/
theorem Scanning.accept (scanning : Scanning b dev highest) (untaken : (dev.b.infos no).dev = none)
    (tmp : Bytes) {replay : List ℕ}
    (sort : sortToReplay (dev.b.infos.set no { parsed tmp (dev.b.infos no) with dev := some dev.self }) dev.replay no =
      .ok replay) :
    Scanning b (accepted b dev tmp no replay highest).1 (accepted b dev tmp no replay highest).2 := by
  set info : BlockioInfo := { parsed tmp (dev.b.infos no) with dev := some dev.self } with infoEq
  have inserted := sortToReplay_eq_ok_iff.mp sort
  have members (i : ℕ) : i ∈ replay ↔ i = no ∨ i ∈ dev.replay := by
    rw [(List.insertByKey_perm inserted).mem_iff, List.mem_cons]
  have other (i : ℕ) (member : i ∈ dev.replay) : (dev.b.infos.set no info) i = dev.b.infos i :=
    BlockioInfos.set_of_ne _ _ fun same => scanning.taken i member (same ▸ untaken)
  have unallocated : ∀ i < b.totalMacroblocks, ((dev.b.infos.set no info) i).dev = none →
      i ∈ dev.b.unallocated.erase no := by
    intro i inside free
    have different : i ≠ no := by
      rintro rfl
      rw [BlockioInfos.set_same] at free
      cases free
    rw [BlockioInfos.set_of_ne _ _ different] at free
    exact (List.mem_erase_of_ne different).mpr (scanning.unallocated i inside free)
  have taken : ∀ i ∈ replay, ((dev.b.infos.set no info) i).dev ≠ none := by
    intro i member
    rcases (members i).mp member with rfl | old
    · rw [BlockioInfos.set_same]
      nofun
    · rw [other i old]
      exact scanning.taken i old
  have before : dev.replay.SortedByKey fun i => ((dev.b.infos.set no info) i).seqno := by
    refine scanning.sorted.imp_of_mem fun {i j} first second below => ?_
    change ((dev.b.infos.set no info) i).seqno < ((dev.b.infos.set no info) j).seqno
    rw [other i first, other j second]
    exact below
  have sorted := List.insertByKey_sorted before inserted
  unfold accepted
  dsimp only
  split
  · refine ⟨scanning.noBits, unallocated, taken, sorted, .inr ⟨no, (members no).mpr (.inl rfl), ?_⟩⟩
    exact congrArg BlockioInfo.seqno (BlockioInfos.set_same ..)
  · next lower =>
    refine ⟨scanning.noBits, unallocated, taken, sorted, ?_⟩
    rcases scanning.highest with ⟨-, zero⟩ | ⟨top, member, same⟩
    · refine .inr ⟨no, (members no).mpr (.inl rfl), ?_⟩
      refine (congrArg BlockioInfo.seqno (BlockioInfos.set_same ..)).trans ?_
      change Binio.readUint64Be tmp seqnoUint64 = highest
      omega
    · exact .inr ⟨top, (members top).mpr (.inr member), (congrArg BlockioInfo.seqno (other top member)).trans same⟩

/-- A scan of one macroblock keeps the scan going. -/
theorem Scanning.step (computed : b.Computed) (scanning : Scanning b dev highest) (inside : no < b.totalMacroblocks) :
    (scanHeader b c hash dev no highest).Yields fun r => Scanning b r.1 r.2 := by
  refine .yields fun r ran => ?_
  rcases scanHeader_cases hash (c := c) computed scanning inside with
    ⟨-, scan⟩ | ⟨-, -, scan⟩ | ⟨untaken, -, rest⟩
  · cases ran.symm.trans scan
    exact scanning
  · cases ran.symm.trans scan
    exact ⟨scanning.noBits, scanning.unallocated, scanning.taken, scanning.sorted, scanning.highest⟩
  rcases rest with ⟨-, _, scan⟩ | ⟨-, ⟨-, scan⟩ | ⟨-, ⟨-, _, scan⟩ | ⟨-, ⟨-, _, scan⟩ | ⟨-, replay, sort, scan⟩⟩⟩⟩
  · cases ran.symm.trans scan
  · cases ran.symm.trans scan
  · cases ran.symm.trans scan
  · cases ran.symm.trans scan
  · cases ran.symm.trans scan
    exact scanning.accept untaken _ sort

/-- The scan of a device meets each macroblock in such a state. -/
theorem Scanning.scan (computed : b.Computed) {device : Blockio} (addr : ℕ)
    (unallocated : ∀ i < b.totalMacroblocks, (device.infos i).dev = none → i ∈ device.unallocated) :
    ((List.range b.totalMacroblocks).foldlM (fun (r : BlockioDev × ℕ) i => scanHeader b c hash r.1 i r.2)
      ({ b := device, self := addr, status := Bitmap.init b.maxMacroblocks }, 0)).Yields
        fun r => Scanning b r.1 r.2 := by
  refine .foldlM (I := fun _ (r : BlockioDev × ℕ) => Scanning b r.1 r.2) (.start addr unallocated) fun visited i rest r whole scanning => ?_
  have inside : i < b.totalMacroblocks := List.mem_range.mp (by rw [whole]; simp)
  exact scanning.step computed inside

/-! ## Surviving -/

theorem accepted_infos (tmp : Bytes) (replay : List ℕ) :
    (accepted b dev tmp no replay highest).1.b.infos no =
      { parsed tmp (dev.b.infos no) with dev := some dev.self } := by
  unfold accepted
  dsimp only
  split
  · exact BlockioInfos.set_same ..
  · exact BlockioInfos.set_same ..

/-- The scan leaves the macroblock as it is, stops with `FATAL`, or accepts the macroblock with a record that fits.
An access outside the index block or outside the slots of `bi->indices` is not among these, nor is a failing
assertion. -/
def Survives (b : Geometry) (dev : BlockioDev) (no : ℕ) : Except Failure (BlockioDev × ℕ) → Prop
  | .error (.fatal _) => True
  | .error _ => False
  | .ok r => r.1.b = dev.b ∨
      (r.1.b.infos no).dev = some dev.self ∧ (r.1.b.infos no).noIndices ≤ b.mmpm ∧
        (r.1.b.infos no).seqno < (r.1.b.infos no).nextSeqno

/-- The macroblock is free, the header is ours and passes the tests on its dates, and it has more indices than there
are slots, or it repeats a sequence number and nothing else is wrong with it. -/
def Deadly (b : Geometry) (hash : List UInt8 → Hash) (dev : BlockioDev) (tmp : Bytes) (no : ℕ) : Prop :=
  (dev.b.infos no).dev = none ∧ Ours b hash tmp ∧ Dated tmp ∧
    (b.mmpm < noIndices tmp ∨
      noIndices tmp ≤ b.mmpm ∧ Blank b tmp ∧ Repeated dev (Binio.readUint64Be tmp seqnoUint64))

/-- A scan survives every header but those that have too many indices or repeat a sequence number. -/
theorem scan_survives_iff {macroblockLog mesoblkLog size : ℕ}
    (init : Geometry.initFile macroblockLog mesoblkLog size = .ok b) (scanning : Scanning b dev highest)
    (inside : no < b.totalMacroblocks) :
    Survives b dev no (scanHeader b c hash dev no highest) ↔ ¬ Deadly b hash dev (readHeader b c dev no) no := by
  have computed := Geometry.computed_of_initFile init
  unfold Deadly
  rcases scanHeader_cases hash (c := c) computed scanning inside with
    ⟨taken, scan⟩ | ⟨-, foreign, scan⟩ | ⟨untaken, ours, rest⟩
  · rw [scan]
    exact iff_of_true (.inl rfl) fun deadly => taken deadly.1
  · rw [scan]
    exact iff_of_true (.inl rfl) fun deadly => foreign deadly.2.1
  rcases rest with ⟨undated, message, scan⟩ | ⟨dated, ⟨large, scan⟩ | ⟨fits, rest⟩⟩
  · rw [scan]
    exact iff_of_true trivial fun deadly => undated deadly.2.2.1
  · rw [scan]
    exact iff_of_false id (not_not.mpr ⟨untaken, ours, dated, .inl large⟩)
  rcases rest with ⟨notBlank, message, scan⟩ | ⟨blank, ⟨repeated, expr, scan⟩ | ⟨fresh, replay, -, scan⟩⟩
  · rw [scan]
    refine iff_of_true trivial ?_
    rintro ⟨-, -, -, large | ⟨-, blank, -⟩⟩
    · omega
    · exact notBlank blank
  · rw [scan]
    exact iff_of_false id (not_not.mpr ⟨untaken, ours, dated, .inr ⟨fits, blank, repeated⟩⟩)
  · rw [scan]
    refine iff_of_true (.inr ?_) ?_
    · rw [accepted_infos]
      exact ⟨rfl, fits, dated.seqno_lt⟩
    · rintro ⟨-, -, -, large | ⟨-, -, repeated⟩⟩
      · omega
      · exact fresh repeated

end

/-- A device of zeroes carries no header. -/
theorem scan_survives_iff_zeroes :
    let b := Geometry.smallest 1
    let dev : BlockioDev := { b := Blockio.initInfos (Params.smallest 1 (by decide)) (fun _ => 0) [], self := 0,
                              status := Bitmap.init b.maxMacroblocks }
    Survives b dev 0 (scanHeader b (Cipher.complement _) (fun _ _ => 0) dev 0 0) ↔
      ¬ Deadly b (fun _ _ => 0) dev (readHeader b (Cipher.complement _) dev 0) 0 :=
  scan_survives_iff (show Geometry.initFile 10 9 1024 = .ok (Geometry.smallest 1) from rfl)
    (.start 0 fun i inside _ => List.mem_range.mpr inside) (by decide)

/-- One macroblock with our magic, the sequence numbers 1 and 2, and two indices for one slot. -/
def overfull : Blockio :=
  let header := Memory.writeList (fun _ => 0) seqnoUint64 (Binio.uint64Be 1 ++ Binio.uint64Be 2 ++ magic)
  Blockio.initInfos (Params.smallest 1 Geometry.one_fits)
    (fun i => ~~~ Memory.writeList header noIndicesUint32 (Binio.uint32Be 2) i) []

/-- The scan stores the second index behind the end of the array. -/
theorem scan_overruns :
    let b := Geometry.smallest 1
    let dev : BlockioDev := { b := overfull, self := 0, status := Bitmap.init b.maxMacroblocks }
    Geometry.initFile 10 9 1024 = .ok b ∧ Scanning b dev 0 ∧ 0 < b.totalMacroblocks ∧
      scanHeader b (Cipher.complement _) (fun _ _ => 0) dev 0 0 = .error (.outOfBounds "bi->indices[i-1]") ∧
      ¬ Survives b dev 0 (scanHeader b (Cipher.complement _) (fun _ _ => 0) dev 0 0) := by
  have overrun : scanHeader (Geometry.smallest 1) (Cipher.complement _) (fun _ _ => 0)
      { b := overfull, self := 0, status := Bitmap.init (Geometry.smallest 1).maxMacroblocks } 0 0 =
        .error (.outOfBounds "bi->indices[i-1]") := rfl
  refine ⟨rfl, .start 0 fun i inside _ => List.mem_range.mpr inside, by decide, overrun, fun survives => ?_⟩
  rw [overrun] at survives
  exact survives

/-! ## The scan of the model -/

section

variable (p : Params) {dev : BlockioDev} {no highest : ℕ}

theorem computed (p : Params) : p.b.Computed := by
  obtain ⟨macroblockLog, mesoblkLog, size, init⟩ := p.accepted.1
  exact Geometry.computed_of_initFile init

/-- The bounds of the accesses to a header are all that makes the difference. -/
theorem scanHeader_eq (noBits : dev.status.noBits = p.b.maxMacroblocks) :
    scanHeader p.b p.c p.hash dev no highest = Blockio.scanHeader p dev no highest := by
  have computed := computed p
  have large := (room computed).1
  have bitmap : p.b.bitmapOffset + dev.status.size ≤ 2 ^ p.b.mesoblkLog := by
    have := (room computed).2
    rw [Bitmap.size, noBits]
    omega
  have seems (tmp : Bytes) : seemsOurs p.b p.hash tmp = .ok (Blockio.seemsOurs p tmp) := by
    obtain ⟨ours, seems, iff⟩ := seemsOurs_eq computed p.hash tmp
    rw [seems]
    refine congrArg Except.ok (Bool.eq_iff_iff.mpr (iff.trans ?_))
    rw [Blockio.seemsOurs, decide_eq_true_iff]
    rfl
  have parse (tmp : Bytes) (bi : BlockioInfo) : parseInfo p.b tmp bi = Blockio.parseInfo p tmp bi := by
    rw [parseInfo_start computed, Blockio.parseInfo]
    refine ite_congr rfl (fun _ => rfl) fun _ => ite_congr rfl (fun _ => rfl) fun _ =>
      ite_congr rfl (fun _ => rfl) fun _ => ?_
    by_cases many : noIndices tmp > p.b.mmpm
    · rw [copyIndices_overrun computed tmp (Nat.zero_le _) (by omega)]
      exact (if_pos many).symm
    · rw [copyIndices_eq computed tmp (by omega)]
      refine Eq.trans ?_ (if_neg many).symm
      change (checkUnused p.b tmp (p.b.mmpm - noIndices tmp) (noIndices tmp + 1) >>= fun _ => _) = _
      rw [checkUnused_eq computed tmp (by omega), Nat.add_sub_of_le (not_lt.mp many)]
      by_cases blank : ∀ i < p.b.mmpm, noIndices tmp ≤ i → indexWord tmp i = 0
      · rw [if_pos blank]
        refine Eq.trans ?_ (if_neg (not_not.mpr blank)).symm
        simp only [Nat.zero_le, true_and, Nat.zero_add]
        rfl
      · rw [if_neg blank]
        exact (if_pos blank).symm
  unfold scanHeader Blockio.scanHeader
  refine bind_congr fun _ => ite_congr rfl (fun _ => rfl) fun _ => ?_
  change (seemsOurs p.b p.hash (Blockio.readHeader p dev no) >>= fun ours => _) = _
  rw [seems]
  refine ite_congr rfl (fun _ => rfl) fun _ => ?_
  change (parseInfo p.b (Blockio.readHeader p dev no) (dev.b.infos no) >>= fun bi => _) = _
  rw [parse]
  refine bind_congr fun bi => bind_congr fun _ => bind_congr fun replay => bind_congr fun _ =>
    ite_congr rfl (fun _ => ?_) fun _ => rfl
  change (readBitmap p.b dev.status (Blockio.readHeader p dev no) >>= fun status => _) = _
  rw [readBitmap, access_eq bitmap, readHash_eq (by simp only [seqnosSha256]; omega),
    readUint32Be_eq (by simp only [noMacroblocksUint32]; omega),
    readUint32Be_eq (by simp only [reservedBlocksUint32]; omega)]
  rfl

end

end Scubed3.Blockio.Checked
