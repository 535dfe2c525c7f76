import Scubed3.Format.RoundTrip
import Scubed3.Opening.Inventory
import Scubed3.Partition.Steps

/-! # What is on the device and what is in memory

`OnDisk` is the picture that the last macroblock write left: every scheduled block carries its sequence
numbers, no other macroblock carries a header of ours, and the newest header describes the whole
partition. A block that is handed out afterwards is only ahead of that picture in memory. `Alive` ties
an open partition to it, and every step keeps it.
-/

namespace Scubed3.Blockio

open Memory

variable (p : Params)

/-- The macroblocks of an open partition. -/
def owned (dev : BlockioDev) : Finset ℕ :=
  (Finset.range p.b.totalMacroblocks).filter fun c => (dev.b.infos c).dev = some dev.self

/-- The index block of `top` describes a partition of the macroblocks `blocks`. -/
structure Describes (base : Bytes) (top : ℕ) (blocks : Finset ℕ) (reserved : ℕ) (seqnosHash : Hash) : Prop where
  used : ∀ i < p.b.maxMacroblocks,
    (((Bitmap.init p.b.maxMacroblocks).read (header p base top) p.b.bitmapOffset).used i = true ↔ i ∈ blocks)
  noMacroblocks : Binio.readUint32Be (header p base top) noMacroblocksUint32 = blocks.card
  reservedMacroblocks : Binio.readUint32Be (header p base top) reservedBlocksUint32 = reserved
  seqnosHash : slice (header p base top) seqnosSha256 32 = seqnosHash

/-- The device right after a macroblock was written with the juggler `j`. -/
structure OnDisk (base : Bytes) (j : Juggler) (infos : BlockioInfos) (blocks : Finset ℕ) (reserved : ℕ) : Prop
    extends Juggler.Settled j infos blocks where
  bounded : ∀ b ∈ blocks, b < p.b.totalMacroblocks
  carried : ∀ b ∈ j.scheduled, seemsOurs p (header p base b) = true ∧ Parses p (header p base b) ∧
    (record p base b).seqno = (infos b).seqno ∧ (record p base b).nextSeqno = (infos b).nextSeqno
  foreign : ∀ b < p.b.totalMacroblocks, b ∉ j.scheduled → seemsOurs p (header p base b) = false
  described : ∀ top ∈ j.scheduled, (infos top).seqno = j.seqno →
    Describes p base top blocks reserved (j.hashScheduledSeqnos p.hash infos)
  start : j.scheduled = [] → blocks = ∅

/-- The writes so far have increasing sequence numbers up to `latest`. -/
structure Logged (written : List MacroblockWrite) (latest : ℕ) : Prop where
  increasing : written.Pairwise fun newer older => older.seqno < newer.seqno
  bounds : ∀ w ∈ written, 0 < w.seqno ∧ w.seqno ≤ latest
  vectors : ∀ w ∈ written, w.indexIv = indexIv w.id ∧
    w.dataIvs = (List.range' 1 p.b.mmpm).map fun i => dataIv w.seqno i w.id

/-- An open partition is at most one handed out block ahead of the picture on the device. -/
structure Behind (j : Juggler) (infos : BlockioInfos) (blocks : Finset ℕ) (dev : BlockioDev) : Prop where
  subset : blocks ⊆ owned p dev
  counter : dev.j.seqno = if dev.bi = none then j.seqno else j.seqno + 1
  same : ∀ b, dev.bi ≠ some b → (b ∈ dev.j.scheduled ↔ b ∈ j.scheduled) ∧ (b ∈ j.scheduled →
    (dev.b.infos b).seqno = (infos b).seqno ∧ (dev.b.infos b).nextSeqno = (infos b).nextSeqno)

/-- An open partition whose records agree with each other. -/
structure Known (dev : BlockioDev) : Prop where
  settled : Juggler.Settled dev.j dev.b.infos (owned p dev)
  coherent : Coherent p dev.b
  noBits : dev.status.noBits = p.b.maxMacroblocks
  used : ∀ i < p.b.maxMacroblocks, (dev.status.used i = true ↔ i ∈ owned p dev)
  noMacroblocks : dev.noMacroblocks = (owned p dev).card
  reserved_lt : dev.reservedMacroblocks < 2 ^ 32
  replay : dev.replay = []
  current : ∀ b, dev.bi = some b → b ∈ dev.j.scheduled ∧ (dev.b.infos b).seqno = dev.j.seqno ∧
    (dev.b.infos b).nextSeqno < 2 ^ 64

/-- An open partition and its device. -/
structure Alive (dev : BlockioDev) : Prop extends Known p dev where
  disk : ∃ j infos blocks reserved, OnDisk p dev.b.base j infos blocks reserved ∧
    Behind p j infos blocks dev ∧ Logged p dev.b.written j.seqno

variable {p}

theorem mem_owned {dev : BlockioDev} {c : ℕ} :
    c ∈ owned p dev ↔ c < p.b.totalMacroblocks ∧ (dev.b.infos c).dev = some dev.self := by
  rw [owned, Finset.mem_filter, Finset.mem_range]

theorem owned_congr {dev dev' : BlockioDev} (self : dev'.self = dev.self)
    (infos : ∀ c, (dev'.b.infos c).dev = (dev.b.infos c).dev) : owned p dev' = owned p dev := by
  ext c
  rw [mem_owned, mem_owned, infos, self]

theorem Logged.write {written : List MacroblockWrite} {latest seqno : ℕ} (logged : Logged p written latest)
    (later : latest < seqno) (id : ℕ) :
    Logged p ({ id, seqno, indexIv := indexIv id,
                dataIvs := (List.range' 1 p.b.mmpm).map fun i => dataIv seqno i id } :: written) seqno := by
  refine ⟨List.pairwise_cons.mpr ⟨fun w member => ?_, logged.increasing⟩, fun w member => ?_, fun w member => ?_⟩
  · exact (logged.bounds w member).2.trans_lt later
  · rcases List.mem_cons.mp member with rfl | old
    · exact ⟨Nat.zero_lt_of_lt later, le_rfl⟩
    · exact ⟨(logged.bounds w old).1, ((logged.bounds w old).2.trans_lt later).le⟩
  · rcases List.mem_cons.mp member with rfl | old
    · exact ⟨rfl, rfl⟩
    · exact logged.vectors w old

/-! ## Steps in memory -/

theorem Known.sameDevice {dev dev' : BlockioDev} (known : Known p dev) (same : Partition.SameDevice dev dev') :
    Known p dev' ∧ owned p dev' = owned p dev := by
  have blocks : owned p dev' = owned p dev :=
    owned_congr (by rw [same.rest]; rfl) fun c => (same.infos c).2.2
  have j : dev'.j = dev.j := by rw [same.rest]; rfl
  have status : dev'.status = dev.status := by rw [same.rest]; rfl
  have bi : dev'.bi = dev.bi := by rw [same.rest]; rfl
  refine ⟨⟨?_, ⟨?_, fun c => ?_⟩, ?_, ?_, ?_, ?_, ?_, fun b found => ?_⟩, blocks⟩
  · rw [blocks, j]
    exact known.settled.congr _ fun c _ => ⟨(same.infos c).1, (same.infos c).2.1⟩
  · rw [same.rest]
    exact known.coherent.nodup
  · rw [(same.infos c).2.2, same.rest]
    exact known.coherent.mem_iff c
  · rw [status]; exact known.noBits
  · rw [status, blocks]; exact known.used
  · rw [blocks, same.rest]; exact known.noMacroblocks
  · rw [same.rest]; exact known.reserved_lt
  · rw [same.rest]; exact known.replay
  · rw [bi] at found
    rw [(same.infos b).1, (same.infos b).2.1, j]
    exact known.current b found

theorem Alive.sameDevice {dev dev' : BlockioDev} (alive : Alive p dev) (same : Partition.SameDevice dev dev') :
    Alive p dev' := by
  obtain ⟨known, blocks⟩ := alive.toKnown.sameDevice same
  obtain ⟨j, infos, written, reserved, onDisk, behind, logged⟩ := alive.disk
  refine ⟨known, j, infos, written, reserved, ?_, ⟨?_, ?_, fun b other => ?_⟩, ?_⟩
  · rw [same.rest]; exact onDisk
  · rw [blocks]; exact behind.subset
  · rw [same.rest]; exact behind.counter
  · have bi : dev'.bi = dev.bi := by rw [same.rest]; rfl
    have juggler : dev'.j = dev.j := by rw [same.rest]; rfl
    rw [bi] at other
    rw [(same.infos b).1, (same.infos b).2.1, juggler]
    exact behind.same b other
  · rw [same.rest]; exact logged

/-! ## Writing the current macroblock -/

theorem owned_afterWrite (dev : BlockioDev) (id : ℕ) : owned p (afterWrite p dev id) = owned p dev := by
  refine owned_congr rfl fun c => ?_
  change ((dev.b.infos.set id { dev.b.infos id with noNonobsolete := (dev.b.infos id).noIndices }) c).dev = _
  by_cases same : c = id
  · rw [same, BlockioInfos.set_same]
  · rw [BlockioInfos.set_of_ne _ _ same]

/-- The records only differ in a counter. -/
theorem afterWrite_infos (dev : BlockioDev) (id c : ℕ) :
    ((afterWrite p dev id).b.infos c).seqno = (dev.b.infos c).seqno ∧
      ((afterWrite p dev id).b.infos c).nextSeqno = (dev.b.infos c).nextSeqno ∧
      ((afterWrite p dev id).b.infos c).dev = (dev.b.infos c).dev := by
  change ((dev.b.infos.set id { dev.b.infos id with noNonobsolete := (dev.b.infos id).noIndices }) c).seqno = _ ∧
    ((dev.b.infos.set id { dev.b.infos id with noNonobsolete := (dev.b.infos id).noIndices }) c).nextSeqno = _ ∧
    ((dev.b.infos.set id { dev.b.infos id with noNonobsolete := (dev.b.infos id).noIndices }) c).dev = _
  by_cases same : c = id
  · rw [same, BlockioInfos.set_same]
    exact ⟨rfl, rfl, rfl⟩
  · rw [BlockioInfos.set_of_ne _ _ same]
    exact ⟨rfl, rfl, rfl⟩

theorem Known.afterWrite {dev : BlockioDev} {id : ℕ} (known : Known p dev) : Known p (afterWrite p dev id) := by
  refine ⟨?_, ⟨known.coherent.nodup, fun c => ?_⟩, known.noBits, ?_, ?_, known.reserved_lt,
    known.replay, fun b found => ?_⟩
  · rw [owned_afterWrite]
    exact known.settled.congr _ fun c _ => ⟨(afterWrite_infos dev id c).1, (afterWrite_infos dev id c).2.1⟩
  · rw [(afterWrite_infos dev id c).2.2]
    exact known.coherent.mem_iff c
  · rw [owned_afterWrite]; exact known.used
  · rw [owned_afterWrite]; exact known.noMacroblocks
  · cases found

/-- The current block can be written. -/
theorem Known.storable {dev : BlockioDev} {id : ℕ} (known : Known p dev) (current : dev.bi = some id)
    (capacity : (dev.b.infos id).noIndices ≤ p.b.mmpm) : Storable p (dev.b.infos id) := by
  obtain ⟨listed, -, small⟩ := known.current id current
  exact ⟨(known.settled.used id listed).1, (known.settled.used id listed).2, small, capacity⟩

/-- The header of another macroblock is not touched. -/
theorem record_afterWrite (dev : BlockioDev) {id b : ℕ} (other : b ≠ id) :
    header p (afterWrite p dev id).b.base b = header p dev.b.base b ∧
      record p (afterWrite p dev id).b.base b = record p dev.b.base b := by
  have same : header p (Blockio.afterWrite p dev id).b.base b = header p dev.b.base b :=
    header_blit_other id dev.b.base _ other
  exact ⟨same, by rw [record, same, record]⟩

/-- The written macroblock carries the record of the block. -/
theorem carries_afterWrite {dev : BlockioDev} {id : ℕ} (known : Known p dev) (current : dev.bi = some id)
    (capacity : (dev.b.infos id).noIndices ≤ p.b.mmpm) :
    seemsOurs p (header p (afterWrite p dev id).b.base id) = true ∧
      Parses p (header p (afterWrite p dev id).b.base id) ∧
      record p (afterWrite p dev id).b.base id = recordOf (dev.b.infos id)
        (dataHashOf p (encryptData p dev.tmpMacroblock (dev.b.infos id) id)) := by
  have carries : Carries p (afterWrite p dev id).b.base id (recordOf (dev.b.infos id)
      (dataHashOf p (encryptData p dev.tmpMacroblock (dev.b.infos id) id))) :=
    carries_encode id dev.b.base (known.storable current capacity) known.noBits
  obtain ⟨isOurs, parses⟩ := carries
  obtain ⟨valid, same⟩ := parseInfo_record.mp parses
  exact ⟨isOurs, valid, same.symm⟩

/-- The written macroblock describes the partition as it is in memory. -/
theorem describes_afterWrite {dev : BlockioDev} {id : ℕ} (known : Known p dev)
    (capacity : (dev.b.infos id).noIndices ≤ p.b.mmpm) :
    Describes p (afterWrite p dev id).b.base id (owned p dev) dev.reservedMacroblocks
      (dev.j.hashScheduledSeqnos p.hash dev.b.infos) := by
  have few : (owned p dev).card < 2 ^ 32 := by
    have count : (owned p dev).card ≤ p.b.totalMacroblocks :=
      (Finset.card_filter_le _ _).trans (Finset.card_range _).le
    exact count.trans_lt (p.sound.total_le.trans_lt p.sound.maxMacroblocks_lt)
  have field {off s : ℕ} (small : s < 2 ^ 32) (member : (off, Binio.uint32Be s) ∈ staticFields p dev
      (dev.b.infos id) (dataHashOf p (encryptData p dev.tmpMacroblock (dev.b.infos id) id))) :
      Binio.readUint32Be (header p (Blockio.afterWrite p dev id).b.base id) off = s :=
    (readUint32Be_header id dev.b.base capacity known.noBits (mem_headerFields member)).trans
      (Nat.mod_eq_of_lt small)
  refine ⟨fun i bound => ?_, ?_, ?_, seqnosHash_header id dev.b.base capacity known.noBits⟩
  · have stored := used_header id dev.b.base capacity known.noBits
      (b := Bitmap.init p.b.maxMacroblocks) rfl bound
    rw [← known.used i bound, ← stored]
    rfl
  · rw [← known.noMacroblocks] at few ⊢
    exact field few (by simp only [staticFields, List.mem_cons, true_or, or_true])
  · exact field known.reserved_lt (by simp only [staticFields, List.mem_cons, true_or, or_true])

/-- After the write the picture on the device is that of the memory. -/
theorem OnDisk.afterWrite {dev : BlockioDev} {id reserved : ℕ} {j : Juggler} {infos : BlockioInfos}
    {blocks : Finset ℕ} (onDisk : OnDisk p dev.b.base j infos blocks reserved) (known : Known p dev)
    (behind : Behind p j infos blocks dev) (current : dev.bi = some id)
    (capacity : (dev.b.infos id).noIndices ≤ p.b.mmpm) :
    OnDisk p (afterWrite p dev id).b.base dev.j dev.b.infos (owned p dev) dev.reservedMacroblocks := by
  have listed := (known.current id current).1
  have other {b : ℕ} (different : b ≠ id) : dev.bi ≠ some b := by
    rw [current]
    exact fun same => different (Option.some.inj same).symm
  refine { known.settled with
    bounded := fun b member => (mem_owned.mp member).1, carried := fun b member => ?_
    foreign := fun b bound unlisted => ?_, described := fun top member last => ?_
    start := fun empty => absurd listed (by simp [empty]) }
  · by_cases same : b = id
    · obtain ⟨isOurs, parses, carried⟩ := carries_afterWrite known current capacity
      rw [same, carried]
      exact ⟨isOurs, parses, rfl, rfl⟩
    · obtain ⟨header, record⟩ := record_afterWrite (p := p) dev same
      obtain ⟨scheduled, numbers⟩ := behind.same b (other same)
      have onOld := scheduled.mp member
      rw [header, record, (numbers onOld).1, (numbers onOld).2]
      exact onDisk.carried b onOld
  · have different : b ≠ id := fun same => unlisted (same ▸ listed)
    rw [(record_afterWrite dev different).1]
    exact onDisk.foreign b bound fun old => unlisted ((behind.same b (other different)).1.mpr old)
  · have same : top = id :=
      known.settled.distinct top member id listed (last.trans (known.current id current).2.1.symm)
    rw [same]
    exact describes_afterWrite known capacity

theorem Alive.output {dev dev' : BlockioDev} (alive : Alive p dev)
    (ran : writeCurrentMacroblock p dev = .ok dev') : Alive p dev' := by
  obtain ⟨id, current, -, -, capacity, rfl⟩ := (writeCurrentMacroblock_eq_ok_iff p).mp ran
  obtain ⟨j, infos, blocks, reserved, onDisk, behind, logged⟩ := alive.disk
  obtain ⟨listed, seqno, -⟩ := alive.current id current
  refine ⟨alive.toKnown.afterWrite, dev.j, dev.b.infos, owned p dev, dev.reservedMacroblocks,
    onDisk.afterWrite alive.toKnown behind current capacity, ⟨?_, rfl, fun b _ => ⟨Iff.rfl, fun _ => ?_⟩⟩, ?_⟩
  · rw [owned_afterWrite]
  · exact ⟨(afterWrite_infos dev id b).1, (afterWrite_infos dev id b).2.1⟩
  · have counter := behind.counter
    rw [current, if_neg (by simp)] at counter
    rw [← seqno]
    exact logged.write (by rw [seqno, counter]; exact Nat.lt_succ_self _) id

/-! ## Selecting the next macroblock -/

/-- All that selecting the next macroblock does. -/
theorem selectNext_done {dev dev' : BlockioDev} {fuel : ℕ} {tape rest : List ℕ}
    (ran : (selectNextMacroblock fuel dev).run tape = .done dev' rest) :
    dev.bi = none ∧ ∃ id j infos, Juggler.Handout dev.j dev.b.infos id j infos ∧
      (Juggler.getDevblock fuel dev.j dev.b.infos false).run tape = .done (some id, j, infos) rest ∧
      (infos id).nextSeqno < 2 ^ 64 ∧
      dev' = { dev with
        updated := false, bi := some id, j, tailMacroblock := j.getObsoleted infos
        b := { dev.b with infos } } := by
  unfold selectNextMacroblock at ran
  obtain ⟨_, mid, idle, body⟩ := Draw.bind_done_iff.mp ran
  obtain ⟨checked, rfl⟩ := Draw.lift_done_iff.mp idle
  obtain ⟨⟨next, j, infos⟩, mid, called, stored⟩ := Draw.bind_done_iff.mp body
  obtain ⟨id, handed, handout⟩ := (Juggler.getDevblock_yields fuel dev.j dev.b.infos).of_done called
  cases handed
  dsimp only at stored
  split at stored
  · next small =>
    cases stored
    exact ⟨check_eq_ok_iff.mp checked, id, j, infos, handout, called, small, rfl⟩
  · cases stored

/-- A block that comes back at a number of 64 bits is selected. -/
theorem selectNext_run {dev : BlockioDev} {fuel id : ℕ} {j : Juggler} {infos : BlockioInfos} {tape rest : List ℕ}
    (idle : dev.bi = none)
    (ran : (Juggler.getDevblock fuel dev.j dev.b.infos false).run tape = .done (some id, j, infos) rest)
    (fits : (infos id).nextSeqno < 2 ^ 64) : (selectNextMacroblock fuel dev).run tape = .done { dev with
      updated := false, bi := some id, j, tailMacroblock := j.getObsoleted infos
      b := { dev.b with infos } } rest := by
  unfold selectNextMacroblock
  refine Draw.bind_done_iff.mpr ⟨(), tape, Draw.lift_done_iff.mpr ⟨check_of _ _ idle, rfl⟩, ?_⟩
  refine Draw.bind_done_iff.mpr ⟨_, rest, ran, ?_⟩
  dsimp only
  rw [if_pos fits]
  rfl

theorem Known.select {dev dev' : BlockioDev} {fuel : ℕ} {tape rest : List ℕ} (known : Known p dev)
    (ran : (selectNextMacroblock fuel dev).run tape = .done dev' rest) :
    Known p dev' ∧ owned p dev' = owned p dev := by
  obtain ⟨idle, id, j', infos', handout, called, small, rfl⟩ := selectNext_done ran
  have settled := known.settled
  obtain ⟨_, -, -, inv⟩ := (Juggler.getDevblock_safe settled.toInvariant
    (Juggler.getDevblock_nonempty settled.toInvariant called)).of_done called
  have settled' := settled.handout handout inv
  obtain ⟨t, later, infosEq⟩ := handout.infos_eq
  have own : infos' id = { dev.b.infos id with seqno := dev.j.seqno + 1, nextSeqno := t } := by
    rw [infosEq, BlockioInfos.set_same]
  have dev_same (c : ℕ) : (infos' c).dev = (dev.b.infos c).dev := by
    by_cases same : c = id
    · rw [same, own]
    · rw [infosEq, BlockioInfos.set_of_ne _ _ same]
  have blocksSame : owned p { dev with
      updated := false, bi := some id, j := j', tailMacroblock := j'.getObsoleted infos'
      b := { dev.b with infos := infos' } } = owned p dev := owned_congr rfl dev_same
  refine ⟨⟨?_, ⟨known.coherent.nodup, fun c => ?_⟩, known.noBits, ?_, ?_, known.reserved_lt,
    known.replay, fun b found => ?_⟩, blocksSame⟩
  · rw [blocksSame]; exact settled'
  · dsimp only
    rw [dev_same]
    exact known.coherent.mem_iff c
  · rw [blocksSame]; exact known.used
  · rw [blocksSame]; exact known.noMacroblocks
  · cases found
    refine ⟨handout.listed, ?_, small⟩
    dsimp only
    rw [own, handout.seqno]

/-- A partition with macroblocks can always select one. -/
theorem Known.select_safe {dev : BlockioDev} (known : Known p dev) (fuel : ℕ) (idle : dev.bi = none)
    (nonempty : (owned p dev).Nonempty) : Draw.Safe (selectNextMacroblock fuel dev)
      fun dev' => Known p dev' ∧ owned p dev' = owned p dev := by
  suffices safe : Draw.Safe (selectNextMacroblock fuel dev) fun _ => True from
    safe.reached.imp fun dev' ⟨_, tape, rest, ran⟩ => known.select ran
  unfold selectNextMacroblock
  refine .bind (.lift_ok (check_of _ _ idle) (q := fun _ => True) trivial) fun _ _ => ?_
  refine .bind (Juggler.getDevblock_safe known.settled.toInvariant nonempty) ?_
  rintro ⟨bi, j, infos⟩ ⟨id, -, handed, -⟩
  cases handed
  dsimp only
  split
  · exact .pure trivial
  · exact .starve

theorem Alive.select {dev dev' : BlockioDev} {fuel : ℕ} {tape rest : List ℕ} (alive : Alive p dev)
    (ran : (selectNextMacroblock fuel dev).run tape = .done dev' rest) : Alive p dev' := by
  obtain ⟨known, blocksSame⟩ := alive.toKnown.select ran
  obtain ⟨idle, id, j', infos', handout, called, small, rfl⟩ := selectNext_done ran
  obtain ⟨j, infos, blocks, reserved, onDisk, behind, logged⟩ := alive.disk
  obtain ⟨t, later, infosEq⟩ := handout.infos_eq
  refine ⟨known, j, infos, blocks, reserved, onDisk, ⟨?_, ?_, fun b different => ?_⟩, logged⟩
  · rw [blocksSame]; exact behind.subset
  · have counter := behind.counter
    rw [idle, if_pos rfl] at counter
    rw [if_neg (by simp)]
    exact handout.seqno.trans (by rw [counter])
  · have different : b ≠ id := fun same => different (by rw [same])
    obtain ⟨scheduled, numbers⟩ := behind.same b (by rw [idle]; simp)
    have other : infos' b = dev.b.infos b := by rw [infosEq, BlockioInfos.set_of_ne _ _ different]
    dsimp only
    rw [other, ← scheduled]
    exact ⟨handout.scheduled_iff different, fun old => numbers (scheduled.mp old)⟩

/-! ## Any number of steps -/

theorem Alive.path {fuel : ℕ} {l l' : Partition} (path : Partition.Path p fuel l l') (alive : Alive p l.dev) :
    Alive p l'.dev := by
  induction path with
  | refl => exact alive
  | tail _ step ih =>
    cases step with
    | moved moved => exact ih.sameDevice moved.toSameDevice
    | output ran => exact ih.output ran
    | select ran => exact ih.select ran

end Scubed3.Blockio
