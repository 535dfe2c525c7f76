import Scubed3.Device.Open
import Scubed3.Opening.Newest
import Mathlib

/-! # The hash of the data

`blockio_check_data_hash` compares the hash of the data on the device with the one that was read when the partition was
opened. The hash in the index block is replaced at every write, the one in memory is not. So the check is right about a
macroblock as long as it is not written.
-/

namespace Scubed3.Blockio

open Memory

variable (p : Params)

/-- The data of a macroblock, as it is on the device. -/
def dataArea (base : Bytes) (c : ℕ) : List UInt8 :=
  readList base (c * p.macroblockSize + p.mesoblkSize) (p.macroblockSize - p.mesoblkSize)

/-- The hash of the data in the index block of a macroblock. -/
def headerHash (base : Bytes) (c : ℕ) : Hash := slice (header p base c) datablocksSha256 32

/-- The macroblock was written between the two states. -/
def Rewritten (dev dev' : BlockioDev) (c : ℕ) : Prop :=
  ∃ w ∈ dev'.b.written.take (dev'.b.written.length - dev.b.written.length), w.id = c

/-- What happened between two states of an open partition: the hashes in memory stayed, and a macroblock was written
with the hash of its data or it is as it was. -/
structure Since (dev dev' : BlockioDev) : Prop where
  noBits : dev'.status.noBits = p.b.maxMacroblocks
  dataHash : ∀ c, (dev'.b.infos c).dataHash = (dev.b.infos c).dataHash
  self : dev'.self = dev.self
  owners : ∀ c, (dev'.b.infos c).dev = (dev.b.infos c).dev
  written : ∃ new, dev'.b.written = new ++ dev.b.written ∧
    (∀ w ∈ new, p.hash (dataArea p dev'.b.base w.id) = headerHash p dev'.b.base w.id) ∧
    ∀ c, (∀ w ∈ new, w.id ≠ c) → slice dev'.b.base (c * p.macroblockSize) p.macroblockSize =
      slice dev.b.base (c * p.macroblockSize) p.macroblockSize

/-- The requests and cycles that happen while the partition is open. -/
inductive Session : Partition → Partition → Prop
  | start {l : Partition} : Session l l
  | write {l l' l'' : Partition} {fuel rOffset size : ℕ} {buf : Bytes} {tape rest : List ℕ} (before : Session l l')
      (inside : rOffset + size ≤ l'.noBlockIndices * p.mesoblkSize)
      (ran : (Partition.reqWrite p fuel l' rOffset size buf).run tape = .done l'' rest) : Session l l''
  | cycle {l l' l'' : Partition} {fuel : ℕ} {tape rest : List ℕ} (before : Session l l')
      (ran : (Partition.cycle p fuel l').run tape = .done l'' rest) : Session l l''

variable {p} {b : Blockio} {dev dev' dev'' : BlockioDev} {l l' : Partition} {c : ℕ}

/-! ## Between two states -/

theorem dataArea_congr {base base' : Bytes}
    (same : slice base' (c * p.macroblockSize) p.macroblockSize = slice base (c * p.macroblockSize) p.macroblockSize) :
    dataArea p base' c = dataArea p base c := by
  have size : p.mesoblkSize ≤ p.macroblockSize := by
    rw [p.macroblockSize_eq]
    exact Nat.le_mul_of_pos_left _ (Nat.succ_pos _)
  refine readList_congr fun i lower upper => ?_
  have inside : i - c * p.macroblockSize < p.macroblockSize := by omega
  have byte := congrFun same ⟨i - c * p.macroblockSize, inside⟩
  simp only [slice_apply, show c * p.macroblockSize + (i - c * p.macroblockSize) = i by omega] at byte
  exact byte

/-- The header that was just written has the hash of the data that was just written. -/
theorem headerHash_afterWrite (id : ℕ) (capacity : (dev.b.infos id).noIndices ≤ p.b.mmpm)
    (noBits : dev.status.noBits = p.b.maxMacroblocks) :
    p.hash (dataArea p (afterWrite p dev id).b.base id) = headerHash p (afterWrite p dev id).b.base id := by
  have large := mesoblkSize_ge p
  have member : (datablocksSha256, List.ofFn (dataHashOf p (encryptData p dev.tmpMacroblock (dev.b.infos id) id))) ∈
      staticFields p dev (dev.b.infos id) (dataHashOf p (encryptData p dev.tmpMacroblock (dev.b.infos id) id)) := by
    simp only [staticFields, List.mem_cons, true_or]
  have stored : headerHash p (afterWrite p dev id).b.base id =
      dataHashOf p (encryptData p dev.tmpMacroblock (dev.b.infos id) id) := by
    rw [← slice_writeHeader capacity noBits member]
    exact slice_congr fun i _ upper => header_encode id dev.b.base (by simp only [datablocksSha256] at upper; omega)
  exact (dataHash_encode id dev.b.base capacity noBits).trans stored.symm

namespace Since

theorem refl (noBits : dev.status.noBits = p.b.maxMacroblocks) : Since p dev dev :=
  ⟨noBits, fun _ => rfl, rfl, fun _ => rfl, [], rfl, nofun, fun _ _ => rfl⟩

/-- A step that does not touch the device. -/
theorem memory (since : Since p dev dev') (status : dev''.status = dev'.status)
    (dataHash : ∀ c, (dev''.b.infos c).dataHash = (dev'.b.infos c).dataHash) (self : dev''.self = dev'.self)
    (owners : ∀ c, (dev''.b.infos c).dev = (dev'.b.infos c).dev) (base : dev''.b.base = dev'.b.base)
    (written : dev''.b.written = dev'.b.written) : Since p dev dev'' :=
  ⟨status ▸ since.noBits, fun c => (dataHash c).trans (since.dataHash c), self.trans since.self,
    fun c => (owners c).trans (since.owners c), by rw [base, written]; exact since.written⟩

theorem moved (since : Since p dev dev') (same : Partition.SameDevice dev' dev'') : Since p dev dev'' := by
  have rest := same.rest
  refine since.memory ?_ same.dataHash ?_ (fun c => (same.infos c).2.2) ?_ ?_ <;> rw [rest] <;> rfl

theorem select {fuel : ℕ} {tape rest : List ℕ} (since : Since p dev dev')
    (ran : (selectNextMacroblock fuel dev').run tape = .done dev'' rest) : Since p dev dev'' := by
  obtain ⟨-, id, j, infos, handout, -, -, rfl⟩ := selectNext_done ran
  obtain ⟨t, -, rfl⟩ := handout.infos_eq
  refine since.memory rfl (fun c => ?_) rfl (fun c => ?_) rfl rfl
  · dsimp only [BlockioInfos.set]
    split
    · next same => rw [same]
    · rfl
  · dsimp only [BlockioInfos.set]
    split
    · next same => rw [same]
    · rfl

/-- A macroblock is written, with the hash of its data. -/
theorem output (since : Since p dev dev') (ran : writeCurrentMacroblock p dev' = .ok dev'') : Since p dev dev'' := by
  obtain ⟨id, -, -, -, capacity, rfl⟩ := (writeCurrentMacroblock_eq_ok_iff p).mp ran
  obtain ⟨new, log, hashes, untouched⟩ := since.written
  have other (c : ℕ) (apart : c ≠ id) : slice (afterWrite p dev' id).b.base (c * p.macroblockSize) p.macroblockSize =
      slice dev'.b.base (c * p.macroblockSize) p.macroblockSize :=
    slice_blit_other (n := p.macroblockSize) id dev'.b.base _ 0 apart (Nat.zero_add _).le
  refine ⟨since.noBits, fun c => ?_, since.self, fun c => ((afterWrite_infos dev' id c).2.2).trans (since.owners c),
    _ :: new, congrArg _ log, fun w member => ?_, fun c apart => ?_⟩
  · refine Eq.trans ?_ (since.dataHash c)
    dsimp only [afterWrite, BlockioInfos.set]
    split
    · next same => rw [same]
    · rfl
  · by_cases here : w.id = id
    · rw [here]
      exact headerHash_afterWrite id capacity since.noBits
    · obtain rfl | old := List.mem_cons.mp member
      · exact absurd rfl here
      · rw [dataArea_congr (other w.id here), headerHash, header_congr (other w.id here)]
        exact hashes w old
  · obtain ⟨apart, before⟩ := List.forall_mem_cons.mp apart
    exact (other c (Ne.symm apart)).trans (untouched c before)

theorem path {fuel : ℕ} (since : Since p dev l.dev) (path : Partition.Path p fuel l l') : Since p dev l'.dev := by
  induction path with
  | refl => exact since
  | tail _ step ih =>
    cases step with
    | moved moved => exact ih.moved moved.toSameDevice
    | output ran => exact ih.output ran
    | select ran => exact ih.select ran

end Since

/-- A whole session. -/
theorem Session.since (session : Session p l l') (noBits : l.dev.status.noBits = p.b.maxMacroblocks) :
    Since p l.dev l'.dev := by
  induction session with
  | start => exact .refl noBits
  | write _ _ ran ih => exact ih.path ((Partition.reqWrite_path ..).of_done ran)
  | cycle _ ran ih => exact ih.path ((Partition.cycle_path ..).of_done ran)

/-! ## Opening -/

/-- What is in memory when the partition was opened: the hash of a macroblock with a header is the one in its header. -/
structure Remembered (p : Params) (dev : BlockioDev) : Prop where
  noBits : dev.status.noBits = p.b.maxMacroblocks
  dataHash : ∀ c ∈ owned p dev, seemsOurs p (header p dev.b.base c) = true →
    (dev.b.infos c).dataHash = headerHash p dev.b.base c

theorem Remembered.congr (remembered : Remembered p dev) (status : dev'.status = dev.status)
    (dataHash : ∀ c, (dev'.b.infos c).dataHash = (dev.b.infos c).dataHash) (self : dev'.self = dev.self)
    (owners : ∀ c, (dev'.b.infos c).dev = (dev.b.infos c).dev) (base : dev'.b.base = dev.b.base) : Remembered p dev' := by
  refine ⟨status ▸ remembered.noBits, fun c member valid => ?_⟩
  rw [owned_congr self owners] at member
  rw [base] at valid ⊢
  rw [dataHash]
  exact remembered.dataHash c member valid

theorem Inventory.remembered {addr : ℕ} (inventory : Inventory p b addr dev) (fresh : ∀ c, (b.infos c).dev ≠ some addr) :
    Remembered p dev := by
  refine ⟨inventory.noBits, fun c member valid => ?_⟩
  obtain ⟨bound, own⟩ := mem_owned.mp member
  rw [inventory.base] at valid ⊢
  rw [inventory.dev_eq, inventory.owner] at own
  split at own
  · next taken =>
    have isOurs : c ∈ ours p b := mem_ours.mpr ⟨bound, (inventory.free taken).2, valid⟩
    rw [inventory.info_ours c isOurs]
    rfl
  · exact absurd own (fresh c)

theorem remembered_of_opened {fuel addr : ℕ} {add missing : Bool} {entry : Entry} {tape rest : List ℕ}
    (fresh : ∀ c, (b.infos c).dev ≠ some addr)
    (ran : (Control.openCreateCommon p fuel b addr add).run tape = .done (.opened entry missing) rest) :
    Remembered p entry.l.dev := by
  obtain ⟨dev, l, found, -, started, -, -, -, -, selected⟩ := Control.openCreateCommon_opened ran
  have inventory := (devInit_yields b addr).value dev found
  have same := Partition.init_sameDevice started
  have status := congrArg BlockioDev.status same.rest
  have self := congrArg BlockioDev.self same.rest
  have base := congrArg (fun dev => dev.b.base) same.rest
  have remembered : Remembered p l.dev :=
    (inventory.remembered fresh).congr status same.dataHash self (fun c => (same.infos c).2.2) base
  split at selected
  · obtain ⟨-, id, j, infos, handout, -, -, chosen⟩ := selectNext_done selected
    obtain ⟨t, -, rfl⟩ := handout.infos_eq
    rw [chosen]
    refine remembered.congr rfl (fun c => ?_) rfl (fun c => ?_) rfl
    · dsimp only [BlockioInfos.set]
      split
      · next same => rw [same]
      · rfl
    · dsimp only [BlockioInfos.set]
      split
      · next same => rw [same]
      · rfl
  · rw [selected]
    exact remembered

/-! ## The check -/

/-- In every session, and for every macroblock of the partition that has a header on the device, the check tells whether
the data on the device has the hash in that header if and only if the macroblock was not written since the partition was
opened, or it was written with the hash that was remembered then. What was written is as it was written. -/
theorem checkDataHash_exact_iff {fuel addr : ℕ} {add missing : Bool} {entry : Entry} {tape rest : List ℕ}
    (fresh : ∀ c, (b.infos c).dev ≠ some addr)
    (opened : (Control.openCreateCommon p fuel b addr add).run tape = .done (.opened entry missing) rest)
    (session : Session p entry.l l) (member : c ∈ owned p l.dev) (valid : seemsOurs p (header p l.dev.b.base c) = true) :
    ((checkDataHash p l.dev c = true ↔ p.hash (dataArea p l.dev.b.base c) = headerHash p l.dev.b.base c) ↔
      (Rewritten entry.l.dev l.dev c → headerHash p l.dev.b.base c = (entry.l.dev.b.infos c).dataHash)) ∧
      (Rewritten entry.l.dev l.dev c → p.hash (dataArea p l.dev.b.base c) = headerHash p l.dev.b.base c) := by
  have remembered := remembered_of_opened fresh opened
  have since := session.since remembered.noBits
  obtain ⟨new, log, hashes, untouched⟩ := since.written
  have rewritten : Rewritten entry.l.dev l.dev c ↔ ∃ w ∈ new, w.id = c := by
    rw [Rewritten, log, List.length_append, Nat.add_sub_cancel, List.take_left]
  have check : checkDataHash p l.dev c = true ↔ (entry.l.dev.b.infos c).dataHash = p.hash (dataArea p l.dev.b.base c) := by
    rw [checkDataHash, decide_eq_true_iff, since.dataHash]
    rfl
  rw [check]
  by_cases isNew : ∃ w ∈ new, w.id = c
  · have intact : p.hash (dataArea p l.dev.b.base c) = headerHash p l.dev.b.base c := by
      obtain ⟨w, inNew, rfl⟩ := isNew
      exact hashes w inNew
    refine ⟨?_, fun _ => intact⟩
    rw [intact]
    simp only [rewritten, isNew, true_imp_iff, iff_true]
    exact eq_comm
  · have same := untouched c fun w inNew here => isNew ⟨w, inNew, here⟩
    have before : (entry.l.dev.b.infos c).dataHash = headerHash p l.dev.b.base c := by
      rw [headerHash, header_congr same]
      refine remembered.dataHash c ?_ ?_
      · rwa [owned_congr since.self since.owners] at member
      · rwa [header_congr same] at valid
    refine ⟨iff_of_true ?_ fun again => absurd (rewritten.mp again) isNew, fun again => absurd (rewritten.mp again) isNew⟩
    rw [before]
    exact eq_comm

/-! ## A partition of two macroblocks -/

/-- Two macroblocks and a hash that is not zero. -/
def twoMacroblocks : Params := { Params.smallest 2 (by decide) with hash := fun _ _ => 1 }

/-- The first macroblock is written for the first time, the other one was never written. -/
def firstOfTwo : BlockioDev where
  b :=
    { infos := fun c => if c = 0 then { seqno := 1, nextSeqno := 3, dev := some 0 } else { dev := some 0 }
      unallocated := []
      base := fun _ => 0 }
  self := 0
  status := { Bitmap.init 1984 with bits := fun i => if i = 0 then 3 else 0 }
  noMacroblocks := 2
  bi := some 0

/-- The device afterwards, when the program is started again. -/
def twoDevice : Blockio := { unallocated := [0, 1], base := (afterWrite twoMacroblocks firstOfTwo 0).b.base }

theorem storable_firstOfTwo : Storable twoMacroblocks (firstOfTwo.b.infos 0) := ⟨by decide, by decide, by decide, by decide⟩

theorem used_firstOfTwo (i : ℕ) : firstOfTwo.status.used i = true ↔ i < 2 := by
  rw [Bitmap.used]
  by_cases word : i / 32 = 0
  · have small : i < 32 := by omega
    have bits : ∀ i < 32, ((3#32).getLsbD (i % 32) = true ↔ i < 2) := by decide
    rw [word]
    exact bits i small
  · have zero : firstOfTwo.status.bits (i / 32) = 0#32 := if_neg word
    rw [zero, BitVec.getLsbD_zero]
    exact iff_of_false Bool.false_ne_true (by omega)

theorem carries_twoDevice : seemsOurs twoMacroblocks (header twoMacroblocks twoDevice.base 0) = true ∧
    Parses twoMacroblocks (header twoMacroblocks twoDevice.base 0) ∧
    record twoMacroblocks twoDevice.base 0 = recordOf (firstOfTwo.b.infos 0) fun _ => 1 := by
  have status : firstOfTwo.status.noBits = twoMacroblocks.b.maxMacroblocks := rfl
  obtain ⟨isOurs, parses⟩ := carries_encode 0 firstOfTwo.b.base storable_firstOfTwo status
  obtain ⟨valid, found⟩ := parseInfo_record.mp parses
  exact ⟨isOurs, valid, found.symm⟩

theorem ours_twoDevice : ours twoMacroblocks twoDevice = {0} := by
  ext c
  rw [Finset.mem_singleton]
  constructor
  · intro member
    obtain ⟨bound, -, valid⟩ := mem_ours.mp member
    by_contra other
    obtain rfl : c = 1 := by
      change c < 2 at bound
      omega
    have blank : header twoMacroblocks twoDevice.base 1 = header twoMacroblocks (fun _ => 0) 1 :=
      header_blit_other 0 firstOfTwo.b.base _ (by decide)
    rw [blank] at valid
    revert valid
    decide +kernel
  · rintro rfl
    exact mem_ours.mpr ⟨by decide, rfl, carries_twoDevice.1⟩

/-- What the header says. -/
theorem described_twoDevice :
    Binio.readUint32Be (header twoMacroblocks twoDevice.base 0) noMacroblocksUint32 = 2 ∧
    Binio.readUint32Be (header twoMacroblocks twoDevice.base 0) reservedBlocksUint32 = 0 ∧
    ∀ i < twoMacroblocks.b.maxMacroblocks, ((Bitmap.init twoMacroblocks.b.maxMacroblocks).read
      (header twoMacroblocks twoDevice.base 0) twoMacroblocks.b.bitmapOffset).used i = true ↔ i < 2 := by
  have status : firstOfTwo.status.noBits = twoMacroblocks.b.maxMacroblocks := rfl
  have field {off s : ℕ} (member : (off, Binio.uint32Be s) ∈ staticFields twoMacroblocks firstOfTwo (firstOfTwo.b.infos 0)
      (dataHashOf twoMacroblocks (encryptData twoMacroblocks firstOfTwo.tmpMacroblock (firstOfTwo.b.infos 0) 0))) :
      Binio.readUint32Be (header twoMacroblocks twoDevice.base 0) off = s % 2 ^ 32 :=
    readUint32Be_header 0 firstOfTwo.b.base storable_firstOfTwo.noIndices status (mem_headerFields member)
  refine ⟨@field _ 2 ?_, @field _ 0 ?_, fun i bound => ?_⟩
  · simp only [staticFields, firstOfTwo, List.mem_cons, true_or, or_true]
  · simp only [staticFields, firstOfTwo, List.mem_cons, true_or, or_true]
  · rw [← used_firstOfTwo i]
    exact iff_of_eq (congrArg (· = true)
      (used_header 0 firstOfTwo.b.base storable_firstOfTwo.noIndices status rfl bound))

/-- The scan of the two macroblocks. -/
theorem scan_twoDevice : ∃ dev, devInit twoMacroblocks twoDevice 1 = .ok dev ∧
    Inventory twoMacroblocks twoDevice 1 dev ∧ dev.replay = [0] ∧
      dev.j = { unscheduled := [1], noUnscheduled := 1 } ∧ dev.noMacroblocks = 2 ∧ dev.reservedMacroblocks = 0 := by
  obtain ⟨two, none, used⟩ := described_twoDevice
  obtain ⟨-, valid, found⟩ := carries_twoDevice
  have only (c : ℕ) : c ∈ ours twoMacroblocks twoDevice ↔ c = 0 := by rw [ours_twoDevice, Finset.mem_singleton]
  have sensible : Sensible twoMacroblocks twoDevice := by
    refine ⟨fun c member => ?_, fun c member d member' _ => ?_, fun c member i bound => ?_, fun top _ c member i bound => ?_⟩
    · rw [(only c).mp member]
      exact valid
    · rw [(only c).mp member, (only d).mp member']
    · rw [(only c).mp member, found] at bound
      exact absurd bound (Nat.not_lt_zero i)
    · rw [(only c).mp member, found] at bound
      exact absurd bound (Nat.not_lt_zero i)
  have coherent : Coherent twoMacroblocks twoDevice := by
    refine ⟨by decide, fun c => ?_⟩
    change c ∈ [0, 1] ↔ c < 2 ∧ Option.none = Option.none
    simp
    omega
  have highest : Highest twoMacroblocks twoDevice.base (ours twoMacroblocks twoDevice) 0 :=
    ⟨(only 0).mpr rfl, fun c member => by rw [(only c).mp member]⟩
  have complete (top : ℕ) (isTop : Highest twoMacroblocks twoDevice.base (ours twoMacroblocks twoDevice) top) :
      Complete twoMacroblocks twoDevice top := by
    rw [(only top).mp isTop.1]
    refine ⟨fun i bound marked => ⟨(used i bound).mp marked, rfl⟩, ?_⟩
    have claimed : ((Finset.range twoMacroblocks.b.maxMacroblocks).filter fun i => i ∉ ours twoMacroblocks twoDevice ∧
        ((Bitmap.init twoMacroblocks.b.maxMacroblocks).read (header twoMacroblocks twoDevice.base 0)
          twoMacroblocks.b.bitmapOffset).used i = true) = {1} := by
      ext i
      rw [Finset.mem_filter, Finset.mem_range, only, Finset.mem_singleton]
      constructor
      · rintro ⟨bound, other, marked⟩
        have := (used i bound).mp marked
        omega
      · rintro rfl
        exact ⟨by decide, by decide, (used 1 (by decide)).mpr (by decide)⟩
    rw [two, claimed, ours_twoDevice, Finset.card_singleton, Finset.card_singleton]
  obtain ⟨dev, scanned, inventory⟩ := (devInit_returns coherent sensible complete 1).exists_ok
  have summarized := inventory.summary 0 highest.1 highest.2
  have singleton {list : List ℕ} {a : ℕ} (nodup : list.Nodup) (members : ∀ c, c ∈ list ↔ c = a) : list = [a] := by
    refine List.Perm.eq_singleton ((List.perm_ext_iff_of_nodup nodup (List.nodup_singleton a)).mpr fun c => ?_)
    rw [members, List.mem_singleton]
  have replay : dev.replay = [0] := by
    refine singleton (inventory.sorted.imp fun below equal => ?_) fun c => (inventory.mem_replay c).trans (only c)
    rw [equal] at below
    exact lt_irrefl _ below
  have unscheduled : dev.j.unscheduled = [1] := by
    refine singleton (List.nodup_append.mp inventory.lists.nodup).2.1 fun c => ?_
    constructor
    · intro member
      obtain ⟨bound, -, other⟩ := inventory.claimed c member
      have different : c ≠ 0 := fun same => other ((only c).mpr same)
      change c < 2 at bound
      omega
    · rintro rfl
      refine (inventory.marked ⟨0, (only 0).mpr rfl⟩ 1 (fun member => absurd ((only 1).mp member) (by decide)) rfl).mpr ?_
      rw [summarized.status]
      exact ⟨by decide, (used 1 (by decide)).mpr (by decide)⟩
  have noScheduled := inventory.lists.noScheduled
  have noUnscheduled := inventory.lists.noUnscheduled
  obtain ⟨scheduled, seqno⟩ := inventory.unscheduled_only
  rw [scheduled] at noScheduled
  rw [unscheduled] at noUnscheduled
  refine ⟨dev, scanned, inventory, replay, ?_, summarized.noMacroblocks.trans two, summarized.reservedMacroblocks.trans none⟩
  calc dev.j = ⟨dev.j.scheduled, dev.j.unscheduled, dev.j.noScheduled, dev.j.noUnscheduled, dev.j.seqno⟩ := rfl
    _ = { unscheduled := [1], noUnscheduled := 1 } := by rw [scheduled, unscheduled, noScheduled, noUnscheduled, seqno]; rfl

section Select

open Juggler

variable {infos : BlockioInfos} (first : (infos 0).nextSeqno = 3) (later : List ℕ)
include first

/-- The macroblock that was never written is handed out. -/
theorem getDevblock_unscheduled :
    (getDevblock 4 { scheduled := [0], unscheduled := [1], noScheduled := 1, noUnscheduled := 1, seqno := 1 } infos
      false).run (0 :: 0 :: later) = .done (some 1,
        { scheduled := [0, 1], unscheduled := [], noScheduled := 2, noUnscheduled := 0, seqno := 2 },
        infos.set 1 { infos 1 with seqno := 2, nextSeqno := 4 }) later := by
  simp [getDevblock, getObsoleted, first, reschedule, place, randomCustom, unlinkNth, check]

/-- The other one follows. -/
theorem getDevblock_scheduled (second : (infos 1).nextSeqno = 4) :
    (getDevblock 4 { scheduled := [0, 1], unscheduled := [], noScheduled := 2, noUnscheduled := 0, seqno := 2 } infos
      false).run (0 :: later) = .done (some 0,
        { scheduled := [1, 0], unscheduled := [], noScheduled := 2, noUnscheduled := 0, seqno := 3 },
        infos.set 0 { infos 0 with seqno := 3, nextSeqno := 5 }) later := by
  simp [getDevblock, getObsoleted, first, second, reschedule, place, randomCustom]

end Select

/-- The partition after it was opened: the macroblock that was never written is current. -/
structure SelectedSecond (dev : BlockioDev) : Prop where
  bi : dev.bi = some 1
  tail : dev.tailMacroblock = some 0
  j : dev.j = { scheduled := [0, 1], unscheduled := [], noScheduled := 2, noUnscheduled := 0, seqno := 2 }
  first : (dev.b.infos 0).nextSeqno = 3 ∧ (dev.b.infos 0).noIndices = 0 ∧ (dev.b.infos 0).dev = some 1
  second : dev.b.infos 1 = { seqno := 2, nextSeqno := 4, dev := some 1 }
  self : dev.self = 1
  noBits : dev.status.noBits = 1984

theorem opened_twoDevice (later : List ℕ) : ∃ entry missing,
    (Control.openCreateCommon twoMacroblocks 4 twoDevice 1 false).run (0 :: 0 :: later) =
      .done (.opened entry missing) later ∧ entry.l.outputInitialized = false ∧ SelectedSecond entry.l.dev := by
  obtain ⟨dev, scanned, inventory, replay, j, two, zero⟩ := scan_twoDevice
  obtain ⟨-, -, found⟩ := carries_twoDevice
  have isOurs : 0 ∈ ours twoMacroblocks twoDevice := by rw [ours_twoDevice, Finset.mem_singleton]
  have claimed : 1 ∈ dev.j.unscheduled := by rw [j]; exact List.mem_singleton_self 1
  have first : dev.b.infos 0 = { seqno := 1, nextSeqno := 3, dataHash := fun _ => 1, dev := some 1 } := by
    rw [inventory.info_ours 0 isOurs, found]
    rfl
  have second : dev.b.infos 1 = { dev := some 1 } := inventory.info_claimed 1 claimed
  have due : (dev.b.infos 0).nextSeqno = 3 := by rw [first]
  have replayed : dev.replay.foldlM (Partition.replay twoMacroblocks) (Partition.blank twoMacroblocks dev) =
      .ok (Partition.blank twoMacroblocks dev) := by
    rw [replay]
    simp only [List.foldlM, Partition.replay, Partition.blank, first]
    rfl
  have added : dev.replay.reverse.foldlM (fun j bi => j.addMacroblock dev.b.infos bi) dev.j =
      .ok { scheduled := [0], unscheduled := [1], noScheduled := 1, noUnscheduled := 1, seqno := 1 } := by
    rw [replay, j]
    simp [Juggler.addMacroblock, first, linkedNext, check, List.insertByKey, Juggler.notifySeqno]
  set l := Partition.restarted (Partition.blank twoMacroblocks dev)
    { scheduled := [0], unscheduled := [1], noScheduled := 1, noUnscheduled := 1, seqno := 1 } with lEq
  have started : Partition.init twoMacroblocks dev = .ok (l, decide (l.dev.j.hashScheduledSeqnos twoMacroblocks.hash
      dev.b.infos ≠ dev.seqnosHash)) := by
    refine Partition.init_eq_ok_iff.mpr ?_
    rw [if_neg (by rw [two]; decide)]
    exact ⟨_, replayed, _, added, rfl⟩
  have idle : l.dev.bi = none := inventory.idle.1
  obtain ⟨dev', selected, handed⟩ : ∃ dev', (selectNextMacroblock 4 l.dev).run (0 :: 0 :: later) = .done dev' later ∧
      SelectedSecond dev' := by
    refine ⟨_, selectNext_run idle (getDevblock_unscheduled due later)
      (by rw [BlockioInfos.set_same]; exact (by decide : 4 < 2 ^ 64)), ?_⟩
    have other : (dev.b.infos.set 1 { dev.b.infos 1 with seqno := 2, nextSeqno := 4 }) 0 = dev.b.infos 0 :=
      BlockioInfos.set_of_ne _ _ (by decide)
    refine ⟨rfl, ?_, rfl, ?_, ?_, inventory.owner, inventory.noBits⟩
    · exact if_pos ((congrArg BlockioInfo.nextSeqno other).trans due)
    · dsimp only
      rw [other, first]
      exact ⟨rfl, rfl, rfl⟩
    · dsimp only
      rw [BlockioInfos.set_same, second]
  have room : dev.reservedMacroblocks < dev.noMacroblocks := by
    rw [two, zero]
    decide
  have size : 0 < Control.entrySize twoMacroblocks dev.noMacroblocks dev.reservedMacroblocks := by
    rw [two, zero]
    decide
  exact ⟨_, _, Control.openCreateCommon_run scanned room started idle size selected, rfl, handed⟩

/-- A cycle writes the second macroblock; the first one is current then. -/
theorem cycled_twoDevice {l : Partition} (later : List ℕ) (initialized : l.outputInitialized = false)
    (handed : SelectedSecond l.dev) : ∃ l', (Partition.cycle twoMacroblocks 4 l).run (0 :: later) = .done l' later ∧
      l'.dev.bi = some 0 ∧ l'.dev.b.base = (afterWrite twoMacroblocks l.dev 1).b.base ∧
      l'.dev.b.infos 1 = l.dev.b.infos 1 ∧ l'.dev.self = 1 := by
  obtain ⟨due, none, own⟩ := handed.first
  -- there is nothing to collect
  have collected : Partition.copyOldBlockToCurrent twoMacroblocks l = .ok l := by
    have status : getMacroblockStatus twoMacroblocks l.dev 0 = .ok (if l.dev.status.used 0 then .used else .free) := by
      rw [getMacroblockStatus, check_of _ _ (by rw [own]; exact nofun), Except.ok_bind, check_of _ _ (by decide),
        Except.ok_bind]
      exact getMacroblockStatusBynum_eq (by rw [handed.noBits]; decide)
    have nothing : Partition.copyMesoblks twoMacroblocks 0 1 0 l = .ok l := by
      rw [Partition.copyMesoblks, none]
      rfl
    rw [Partition.copyOldBlockToCurrent, handed.tail]
    dsimp only
    rw [status, Except.ok_bind]
    split
    · exact nothing
    · rfl
  have written : writeCurrentMacroblock twoMacroblocks l.dev = .ok (afterWrite twoMacroblocks l.dev 1) :=
    (writeCurrentMacroblock_eq_ok_iff twoMacroblocks).mpr ⟨1, handed.bi, by rw [handed.second]; exact nofun, by decide,
      by rw [handed.second]; exact Nat.zero_le _, rfl⟩
  have first : ((afterWrite twoMacroblocks l.dev 1).b.infos 0).nextSeqno = 3 := by
    rw [(afterWrite_infos l.dev 1 0).2.1, due]
  have second : ((afterWrite twoMacroblocks l.dev 1).b.infos 1).nextSeqno = 4 := by
    rw [(afterWrite_infos l.dev 1 1).2.1, handed.second]
  have j : (afterWrite twoMacroblocks l.dev 1).j =
      { scheduled := [0, 1], unscheduled := [], noScheduled := 2, noUnscheduled := 0, seqno := 2 } := handed.j
  have idle : (afterWrite twoMacroblocks l.dev 1).bi = Option.none := rfl
  have selects := getDevblock_scheduled first later second
  rw [← j] at selects
  have selected := selectNext_run idle selects (by rw [BlockioInfos.set_same]; exact (by decide : 5 < 2 ^ 64))
  obtain ⟨dev', selected, bi, base, info, self⟩ : ∃ dev',
      (selectNextMacroblock 4 (afterWrite twoMacroblocks l.dev 1)).run (0 :: later) = .done dev' later ∧
        dev'.bi = some 0 ∧ dev'.b.base = (afterWrite twoMacroblocks l.dev 1).b.base ∧
        dev'.b.infos 1 = l.dev.b.infos 1 ∧ dev'.self = 1 := by
    refine ⟨_, selected, rfl, rfl, ?_, handed.self⟩
    dsimp only
    rw [BlockioInfos.set_of_ne _ _ (by decide), afterWrite]
    dsimp only
    rw [BlockioInfos.set_same, handed.second]
  refine ⟨{ l with dev := dev', outputInitialized := false }, ?_, bi, base, info, self⟩
  unfold Partition.cycle
  rw [initialized]
  refine Draw.bind_done_iff.mpr ⟨{ l with outputInitialized := true }, 0 :: later, ?_, ?_⟩
  · exact Draw.bind_done_iff.mpr ⟨l, _, Draw.lift_done_iff.mpr ⟨collected, rfl⟩, rfl⟩
  · refine Draw.bind_done_iff.mpr ⟨_, _, Draw.lift_done_iff.mpr ⟨written, rfl⟩, ?_⟩
    exact Draw.bind_done_iff.mpr ⟨_, _, selected, rfl⟩

/-- A run in which a macroblock is written that was never written before. -/
theorem session_twoDevice : ∃ entry missing rest l,
    (Control.openCreateCommon twoMacroblocks 4 twoDevice 1 false).run [0, 0, 0] = .done (.opened entry missing) rest ∧
      Session twoMacroblocks entry.l l ∧ 1 ∈ owned twoMacroblocks l.dev ∧ l.dev.bi = some 0 ∧
      seemsOurs twoMacroblocks (header twoMacroblocks l.dev.b.base 1) = true ∧
      headerHash twoMacroblocks l.dev.b.base 1 = (fun _ => 1) ∧ (l.dev.b.infos 1).dataHash = fun _ => 0 := by
  obtain ⟨entry, missing, opened, initialized, handed⟩ := opened_twoDevice [0]
  obtain ⟨l, cycled, bi, base, info, self⟩ := cycled_twoDevice [] initialized handed
  have storable : Storable twoMacroblocks (entry.l.dev.b.infos 1) := by
    rw [handed.second]
    exact ⟨by decide, by decide, by decide, by decide⟩
  have noBits : entry.l.dev.status.noBits = twoMacroblocks.b.maxMacroblocks := handed.noBits
  refine ⟨entry, missing, _, l, opened, .cycle .start cycled, ?_, bi, ?_, ?_, ?_⟩
  · rw [mem_owned, info, handed.second, self]
    exact ⟨by decide, rfl⟩
  · rw [base]
    exact (carries_encode 1 entry.l.dev.b.base storable noBits).1
  · rw [base]
    exact (headerHash_afterWrite 1 storable.noIndices noBits).symm
  · rw [info, handed.second]

theorem checkDataHash_exact_iff_twoDevice : ∃ entry missing rest, ∃ l : Partition,
    (Control.openCreateCommon twoMacroblocks 4 twoDevice 1 false).run [0, 0, 0] = .done (.opened entry missing) rest ∧
      ((checkDataHash twoMacroblocks l.dev 1 = true ↔
          twoMacroblocks.hash (dataArea twoMacroblocks l.dev.b.base 1) = headerHash twoMacroblocks l.dev.b.base 1) ↔
        (Rewritten entry.l.dev l.dev 1 →
          headerHash twoMacroblocks l.dev.b.base 1 = (entry.l.dev.b.infos 1).dataHash)) := by
  obtain ⟨entry, missing, rest, l, opened, session, member, -, valid, -⟩ := session_twoDevice
  have fresh (c : ℕ) : (twoDevice.infos c).dev ≠ some 1 := nofun
  exact ⟨entry, missing, rest, l, opened, (checkDataHash_exact_iff fresh opened session member valid).1⟩

/-- The check fails for a macroblock whose data is as it was written. -/
theorem not_checkDataHash_exact : ∃ entry missing rest, ∃ l : Partition,
    (Control.openCreateCommon twoMacroblocks 4 twoDevice 1 false).run [0, 0, 0] = .done (.opened entry missing) rest ∧
      Session twoMacroblocks entry.l l ∧ 1 ∈ owned twoMacroblocks l.dev ∧ l.dev.bi ≠ some 1 ∧
      seemsOurs twoMacroblocks (header twoMacroblocks l.dev.b.base 1) = true ∧
      twoMacroblocks.hash (dataArea twoMacroblocks l.dev.b.base 1) = headerHash twoMacroblocks l.dev.b.base 1 ∧
      checkDataHash twoMacroblocks l.dev 1 = false := by
  obtain ⟨entry, missing, rest, l, opened, session, member, current, valid, stored, remembered⟩ := session_twoDevice
  refine ⟨entry, missing, rest, l, opened, session, member, ?_, valid, stored.symm, ?_⟩
  · rw [current]
    decide
  · rw [checkDataHash, remembered]
    exact decide_eq_false fun same => absurd (congrFun same 0) (by decide : (0 : UInt8) ≠ 1)

end Scubed3.Blockio
