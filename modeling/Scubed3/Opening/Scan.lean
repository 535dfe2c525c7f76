import Scubed3.Format.Scan
import Scubed3.Juggler.Rebuild

/-! # Scanning the whole device

The scan visits the macroblocks in physical order and sorts those that are ours into the replay list.
Its result does not depend on that order: the list is sorted on the sequence numbers, every record is
the one on the macroblock, and what is known about the partition comes from the highest sequence number.
-/

namespace Scubed3.Blockio

open Memory

variable (p : Params)

/-- The macroblocks that nobody has taken and that carry a header of ours. -/
def ours (b : Blockio) : Finset ℕ :=
  (Finset.range p.b.totalMacroblocks).filter fun no =>
    (b.infos no).dev = none ∧ seemsOurs p (header p b.base no) = true

/-- The record found on macroblock `no`. -/
def record (base : Bytes) (no : ℕ) : BlockioInfo := parsed (header p base no) {}

/-- The unallocated list holds the macroblocks that belong to nobody, each once. -/
structure Coherent (b : Blockio) : Prop where
  nodup : b.unallocated.Nodup
  mem_iff : ∀ no, no ∈ b.unallocated ↔ no < p.b.totalMacroblocks ∧ (b.infos no).dev = none

/-- What is known about the partition is what the index block of `no` says. -/
structure Summarized (base : Bytes) (no : ℕ) (dev : BlockioDev) : Prop where
  status : dev.status = (Bitmap.init p.b.maxMacroblocks).read (header p base no) p.b.bitmapOffset
  seqnosHash : dev.seqnosHash = slice (header p base no) seqnosSha256 32
  noMacroblocks : dev.noMacroblocks = Binio.readUint32Be (header p base no) noMacroblocksUint32
  reservedMacroblocks : dev.reservedMacroblocks = Binio.readUint32Be (header p base no) reservedBlocksUint32

variable {p}

theorem mem_ours {b : Blockio} {no : ℕ} : no ∈ ours p b ↔
    no < p.b.totalMacroblocks ∧ (b.infos no).dev = none ∧ seemsOurs p (header p b.base no) = true := by
  rw [ours, Finset.mem_filter, Finset.mem_range]

theorem parseInfo_record {base : Bytes} {no : ℕ} {bi : BlockioInfo} :
    parseInfo p (header p base no) {} = .ok bi ↔ Parses p (header p base no) ∧ bi = record p base no := by
  rw [parseInfo_eq_ok_iff, record, eq_comm (a := bi)]

/-- Taking a macroblock keeps the unallocated list coherent. -/
theorem Coherent.take {b : Blockio} {no : ℕ} {info : BlockioInfo} (coherent : Coherent p b)
    (taken : info.dev ≠ none) :
    Coherent p { b with infos := b.infos.set no info, unallocated := b.unallocated.erase no } := by
  refine ⟨coherent.nodup.erase no, fun c => ?_⟩
  rw [coherent.nodup.mem_erase_iff, coherent.mem_iff c]
  by_cases same : c = no
  · subst same
    simp [taken]
  · simp only [ne_eq, same, not_false_eq_true, true_and, BlockioInfos.set_of_ne _ _ same]

/-- The state of `blockio_dev_init` after it scanned the macroblocks `visited`. -/
structure Scanned (p : Params) (b : Blockio) (addr : ℕ) (visited : List ℕ) (dev : BlockioDev)
    (highest : ℕ) : Prop where
  owner : dev.self = addr
  base : dev.b.base = b.base
  written : dev.b.written = b.written
  idle : dev.bi = none ∧ dev.tailMacroblock = none ∧ dev.updated = false ∧ dev.j = Juggler.init
  sorted : dev.replay.SortedByKey fun c => (record p b.base c).seqno
  mem_iff : ∀ c, c ∈ dev.replay ↔ c ∈ visited ∧ c ∈ ours p b
  parses : ∀ c ∈ dev.replay, Parses p (header p b.base c)
  infos : ∀ c, dev.b.infos c =
    if c ∈ dev.replay then { record p b.base c with dev := some addr } else b.infos c
  coherent : Coherent p b → Coherent p dev.b
  noBits : dev.status.noBits = p.b.maxMacroblocks
  summary : (dev.replay = [] ∧ highest = 0 ∧ dev.noMacroblocks = 0 ∧ dev.reservedMacroblocks = 0 ∧
      dev.status = Bitmap.init p.b.maxMacroblocks) ∨
    ∃ top ∈ dev.replay, (record p b.base top).seqno = highest ∧
      (∀ c ∈ dev.replay, (record p b.base c).seqno ≤ highest) ∧ Summarized p b.base top dev

namespace Scanned

variable {b : Blockio} {addr highest no : ℕ} {visited : List ℕ} {dev : BlockioDev}

theorem start (b : Blockio) (addr : ℕ) :
    Scanned p b addr [] { b, self := addr, status := Bitmap.init p.b.maxMacroblocks } 0 where
  owner := rfl
  base := rfl
  written := rfl
  idle := ⟨rfl, rfl, rfl, rfl⟩
  sorted := .nil
  mem_iff := by simp
  parses := by simp
  infos := by simp
  coherent := id
  noBits := rfl
  summary := .inl ⟨rfl, rfl, rfl, rfl, rfl⟩

theorem seqno_pos (scanned : Scanned p b addr visited dev highest) {c : ℕ} (member : c ∈ dev.replay) :
    0 < (record p b.base c).seqno := (scanned.parses c member).seqno_pos

/-- A macroblock that was not visited has its old record. -/
theorem infos_of_not_visited (scanned : Scanned p b addr visited dev highest) (new : no ∉ visited) :
    dev.b.infos no = b.infos no := by
  rw [scanned.infos, if_neg fun member => new ((scanned.mem_iff no).mp member).1]

/-- Where a new macroblock of ours goes in the replay list. -/
theorem insert_eq (scanned : Scanned p b addr visited dev highest) (new : no ∉ visited) :
    dev.replay.insertByKey (fun c =>
      ((dev.b.infos.set no { record p b.base no with dev := some dev.self }) c).seqno) no =
      dev.replay.insertByKey (fun c => (record p b.base c).seqno) no := by
  refine List.insertByKey_congr fun c member => ?_
  rcases List.mem_cons.mp member with rfl | inReplay
  · rw [BlockioInfos.set_same]
  · have different : c ≠ no := fun same => new (same ▸ ((scanned.mem_iff c).mp inReplay).1)
    rw [BlockioInfos.set_of_ne _ _ different, scanned.infos, if_pos inReplay]

/-- A macroblock of ours is adopted. -/
theorem adopt (scanned : Scanned p b addr visited dev highest) (new : no ∉ visited) (inOurs : no ∈ ours p b)
    (parses : Parses p (header p b.base no)) {replay : List ℕ}
    (inserted : dev.replay.insertByKey (fun c => (record p b.base c).seqno) no = some replay) :
    Scanned p b addr (visited ++ [no]) (found p dev no (record p b.base no) replay highest).1
      (found p dev no (record p b.base no) replay highest).2 := by
  have perm := List.insertByKey_perm inserted
  have members (c : ℕ) : c ∈ replay ↔ c = no ∨ c ∈ dev.replay := by rw [perm.mem_iff, List.mem_cons]
  have infos (c : ℕ) : (Blockio.adopt p dev no (record p b.base no) replay).b.infos c =
      if c ∈ replay then { record p b.base c with dev := some addr } else b.infos c := by
    change (dev.b.infos.set no { record p b.base no with dev := some dev.self }) c = _
    by_cases same : c = no
    · rw [same, BlockioInfos.set_same, if_pos ((members no).mpr (.inl rfl)), scanned.owner]
    · rw [BlockioInfos.set_of_ne _ _ same, scanned.infos]
      simp only [members, same, false_or]
  have coherent (before : Coherent p b) : Coherent p (Blockio.adopt p dev no (record p b.base no) replay).b :=
    (scanned.coherent before).take (by simp)
  have memIff (c : ℕ) : c ∈ replay ↔ c ∈ visited ++ [no] ∧ c ∈ ours p b := by
    rw [members, scanned.mem_iff, List.mem_append, List.mem_singleton]
    constructor
    · rintro (rfl | ⟨old, isOurs⟩)
      · exact ⟨.inr rfl, inOurs⟩
      · exact ⟨.inl old, isOurs⟩
    · rintro ⟨old | rfl, isOurs⟩
      · exact .inr ⟨old, isOurs⟩
      · exact .inl rfl
  have allParse : ∀ c ∈ replay, Parses p (header p b.base c) := by
    intro c member
    rcases (members c).mp member with rfl | old
    · exact parses
    · exact scanned.parses c old
  have sorted := List.insertByKey_sorted scanned.sorted inserted
  have lower : ∀ c ∈ dev.replay, (record p b.base c).seqno ≤ highest := by
    rcases scanned.summary with ⟨empty, -⟩ | ⟨_, -, -, upper, -⟩
    · simp [empty]
    · exact upper
  rw [found]
  split
  · next higher =>
    refine ⟨scanned.owner, scanned.base, scanned.written, scanned.idle, sorted, memIff, allParse, infos, coherent,
      scanned.noBits, .inr ⟨no, (members no).mpr (.inl rfl), rfl, ?_, ?_⟩⟩
    · intro c member
      rcases (members c).mp member with rfl | old
      · exact le_rfl
      · exact (lower c old).trans higher.le
    · have base : (Blockio.adopt p dev no (record p b.base no) replay).b.base = b.base := scanned.base
      refine ⟨?_, ?_, ?_, ?_⟩
      · change dev.status.read (header p dev.b.base no) p.b.bitmapOffset = _
        rw [scanned.base]
        rcases scanned.summary with ⟨-, -, -, -, status⟩ | ⟨_, -, -, -, summarized⟩
        · rw [status]
        · rw [summarized.status, Bitmap.read_read]
      · exact congrArg (fun base => slice (header p base no) seqnosSha256 32) base
      · exact congrArg (fun base => Binio.readUint32Be (header p base no) noMacroblocksUint32) base
      · exact congrArg (fun base => Binio.readUint32Be (header p base no) reservedBlocksUint32) base
  · next notHigher =>
    refine ⟨scanned.owner, scanned.base, scanned.written, scanned.idle, sorted, memIff, allParse, infos, coherent,
      scanned.noBits, ?_⟩
    rcases scanned.summary with ⟨-, zero, -⟩ | ⟨top, member, same, upper, summarized⟩
    · have := parses.seqno_pos
      rw [zero] at notHigher
      exact absurd this notHigher
    · refine .inr ⟨top, (members top).mpr (.inr member), same, ?_,
        ⟨summarized.status, summarized.seqnosHash, summarized.noMacroblocks, summarized.reservedMacroblocks⟩⟩
      intro c member
      rcases (members c).mp member with rfl | old
      · exact not_lt.mp notHigher
      · exact upper c old

/-- A macroblock that is not ours changes nothing. -/
theorem skip (scanned : Scanned p b addr visited dev highest) (notOurs : no ∉ ours p b) (tmp : Bytes) :
    Scanned p b addr (visited ++ [no]) { dev with tmpMacroblock := tmp } highest := by
  refine ⟨scanned.owner, scanned.base, scanned.written, scanned.idle, scanned.sorted, fun c => ?_, scanned.parses,
    scanned.infos, scanned.coherent, scanned.noBits, ?_⟩
  · rw [scanned.mem_iff, List.mem_append, List.mem_singleton]
    constructor
    · exact fun ⟨old, isOurs⟩ => ⟨.inl old, isOurs⟩
    · rintro ⟨old | rfl, isOurs⟩
      · exact ⟨old, isOurs⟩
      · exact absurd isOurs notOurs
  · refine scanned.summary.imp_right ?_
    rintro ⟨top, member, same, upper, summarized⟩
    exact ⟨top, member, same, upper, ⟨summarized.status, summarized.seqnosHash, summarized.noMacroblocks,
      summarized.reservedMacroblocks⟩⟩

/-- One macroblock is scanned. -/
theorem step (scanned : Scanned p b addr visited dev highest) (new : no ∉ visited) :
    (scanHeader p dev no highest).Yields fun r => Scanned p b addr (visited ++ [no]) r.1 r.2 := by
  refine .yields fun r ran => ?_
  obtain ⟨bound, cases⟩ := (scanHeader_eq_ok_iff p scanned.noBits).mp ran
  rw [scanned.infos_of_not_visited new, scanned.base] at cases
  by_cases taken : (b.infos no).dev ≠ none
  · rw [if_pos taken] at cases
    cases cases
    exact scanned.skip (fun member => taken (mem_ours.mp member).2.1) dev.tmpMacroblock
  · rw [if_neg taken] at cases
    cases isOurs : seemsOurs p (header p b.base no) with
    | false =>
      rw [if_pos isOurs] at cases
      cases cases
      refine scanned.skip (fun member => ?_) _
      rw [(mem_ours.mp member).2.2] at isOurs
      cases isOurs
    | true =>
      rw [isOurs, if_neg (by decide)] at cases
      obtain ⟨bi, replay, parsed, -, inserted, -, rfl⟩ := cases
      obtain ⟨parses, rfl⟩ := parseInfo_record.mp parsed
      rw [scanned.insert_eq new] at inserted
      exact scanned.adopt new (mem_ours.mpr ⟨bound, not_not.mp taken, isOurs⟩) parses inserted

/-- The scan of a macroblock only fails when its header is malformed or repeats a sequence number. -/
theorem progress (scanned : Scanned p b addr visited dev highest) (new : no ∉ visited)
    (bound : no < p.b.totalMacroblocks) (coherent : Coherent p b)
    (parses : ∀ c ∈ ours p b, Parses p (header p b.base c))
    (distinct : ∀ c ∈ ours p b, ∀ d ∈ ours p b, (record p b.base c).seqno = (record p b.base d).seqno → c = d) :
    ∃ r, scanHeader p dev no highest = .ok r := by
  by_cases inOurs : no ∈ ours p b
  · obtain ⟨-, untaken, isOurs⟩ := mem_ours.mp inOurs
    have different : ∀ c ∈ dev.replay, (record p b.base c).seqno ≠ (record p b.base no).seqno := by
      intro c member same
      obtain ⟨old, isOurs⟩ := (scanned.mem_iff c).mp member
      exact new (distinct c isOurs no inOurs same ▸ old)
    obtain ⟨replay, inserted⟩ := List.insertByKey_isSome different
    refine ⟨found p dev no (record p b.base no) replay highest,
      (scanHeader_eq_ok_iff p scanned.noBits).mpr ⟨bound, ?_⟩⟩
    rw [scanned.infos_of_not_visited new, scanned.base, if_neg (not_not.mpr untaken), isOurs, if_neg (by decide)]
    refine ⟨_, replay, parseInfo_record.mpr ⟨parses no inOurs, rfl⟩, ?_, ?_, ?_, rfl⟩
    · refine ((scanned.coherent coherent).mem_iff no).mpr ⟨bound, ?_⟩
      rw [scanned.infos_of_not_visited new, untaken]
    · rw [scanned.insert_eq new]
      exact inserted
    · rcases scanned.summary with ⟨-, zero, -⟩ | ⟨top, member, same, -⟩
      · rw [zero]
        exact (parses no inOurs).seqno_pos.ne'
      · rw [← same]
        exact (different top member).symm
  · by_cases taken : (dev.b.infos no).dev ≠ none
    · exact ⟨(dev, highest), (scanHeader_eq_ok_iff p scanned.noBits).mpr ⟨bound, by rw [if_pos taken]⟩⟩
    · have notOurs : seemsOurs p (header p dev.b.base no) = false := by
        rw [scanned.base]
        by_contra isOurs
        rw [scanned.infos_of_not_visited new] at taken
        exact inOurs (mem_ours.mpr ⟨bound, not_not.mp taken, by simpa using isOurs⟩)
      exact ⟨({ dev with tmpMacroblock := readHeader p dev no }, highest),
        (scanHeader_eq_ok_iff p scanned.noBits).mpr ⟨bound, by rw [if_neg taken, if_pos notOurs]⟩⟩

end Scanned

end Scubed3.Blockio
