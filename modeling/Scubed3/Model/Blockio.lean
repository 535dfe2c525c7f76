import Scubed3.Model.Geometry
import Scubed3.Model.Juggler
import Mathlib.Data.Fintype.Basic

/-! # Macroblock input and output

`blockio.c` owns the on-disk format. A macroblock is built in `tmp_macroblock`: its data blocks are
encrypted under its sequence number, its index block holds the header fields at fixed offsets and is
encrypted under a fixed vector. Opening a partition decrypts the first mesoblock of every macroblock
of the base device and keeps those whose magic and hash are right.

`BlockioDev` contains the base device it works on, as `dev->b` does. `Blockio.written` lists the
macroblock writes that reached the device, newest first; no function looks at it.
-/

namespace Scubed3

/-- The initialisation vectors of one macroblock write. -/
structure MacroblockWrite where
  id : ℕ
  seqno : ℕ
  dataIvs : List Iv
  indexIv : Iv

/-- The part of `blockio_t` that changes, with the contents of the base device. -/
structure Blockio where
  infos : BlockioInfos := fun _ => {}
  unallocated : List ℕ
  base : Bytes
  written : List MacroblockWrite := []

/-- `blockio_dev_t`; `self` stands for its address. -/
structure BlockioDev where
  b : Blockio
  self : ℕ
  seqnosHash : Hash := fun _ => 0
  replay : List ℕ := []
  updated : Bool := false
  status : Bitmap
  noMacroblocks : ℕ := 0
  reservedMacroblocks : ℕ := 0
  bi : Option ℕ := none
  tailMacroblock : Option ℕ := none
  j : Juggler := Juggler.init
  tmpMacroblock : Bytes := fun _ => 0
  writes : ℕ := 0

/-- `blockio_dev_macroblock_status_t`. -/
inductive MacroblockStatus where
  | free
  | used
deriving DecidableEq

namespace Blockio

/-! ## Offsets in the index block -/

def indexblockSha256 : ℕ := 0x000
def datablocksSha256 : ℕ := 0x020
def seqnosSha256 : ℕ := 0x040
def seqnoUint64 : ℕ := 0x060
def nextSeqnoUint64 : ℕ := 0x068
def magic64 : ℕ := 0x070
def noMacroblocksUint32 : ℕ := 0x078
def reservedBlocksUint32 : ℕ := 0x07C
def reservedSpace1024 : ℕ := 0x080
def noIndicesUint32 : ℕ := 0x100

/-- `"SSS3v0.1"`. -/
def magic : List UInt8 := [0x53, 0x53, 0x53, 0x33, 0x76, 0x30, 0x2e, 0x31]

variable (p : Params)

/-! ## Writing a macroblock -/

/-- The vector of data block `i` of macroblock `id`. -/
def dataIv (seqno i id : ℕ) : Iv := (seqno, i, id)

/-- The vector of the index block of macroblock `id`. -/
def indexIv (id : ℕ) : Iv := (0, 0, id)

/-- Zero the unused data blocks, then encrypt all of them. -/
def encryptData (tmp : Bytes) (bi : BlockioInfo) (id : ℕ) : Bytes :=
  let zeroed := Memory.mapBlocks tmp p.mesoblkSize (bi.noIndices + 1) (p.b.mmpm - bi.noIndices)
    fun _ _ _ => 0
  Memory.mapBlocks zeroed p.mesoblkSize 1 p.b.mmpm fun i block => p.c.enc (dataIv bi.seqno i id) block

/-- The fields of the index block that have the same offset in every geometry, but the first. -/
def staticFields (dev : BlockioDev) (bi : BlockioInfo) (dataHash : Hash) : List (ℕ × List UInt8) :=
  [(datablocksSha256, List.ofFn dataHash),
    (seqnosSha256, List.ofFn (dev.j.hashScheduledSeqnos p.hash dev.b.infos)),
    (seqnoUint64, Binio.uint64Be bi.seqno),
    (nextSeqnoUint64, Binio.uint64Be bi.nextSeqno),
    (magic64, magic),
    (reservedBlocksUint32, Binio.uint32Be dev.reservedMacroblocks),
    (noMacroblocksUint32, Binio.uint32Be dev.noMacroblocks),
    (reservedSpace1024, List.replicate 128 0),
    (noIndicesUint32, Binio.uint32Be bi.noIndices)]

/-- The fields of the index block but the first, in the order in which they are stored. -/
def headerFields (dev : BlockioDev) (bi : BlockioInfo) (dataHash : Hash) : List (ℕ × List UInt8) :=
  staticFields p dev bi dataHash ++
  Binio.words (noIndicesUint32 + 4) bi.noIndices bi.indices ++
  -- unused indices are zero
  Binio.words (noIndicesUint32 + 4 * (bi.noIndices + 1)) (p.b.mmpm - bi.noIndices) (fun _ => 0) ++
  Bitmap.write p.b.bitmapOffset dev.status

/-- Fill in the index block, around the data that is already encrypted. -/
def writeHeader (tmp : Bytes) (dev : BlockioDev) (bi : BlockioInfo) : Bytes :=
  let dataHash := p.hash (Memory.readList tmp p.mesoblkSize (p.b.mmpm * p.mesoblkSize))
  let tmp := Memory.writeFields tmp (headerFields p dev bi dataHash)
  Memory.store tmp indexblockSha256 (p.hash (Memory.readList tmp 32 (p.mesoblkSize - 32)))

/-- The macroblock as it goes to the device. -/
def encodeMacroblock (dev : BlockioDev) (bi : BlockioInfo) (id : ℕ) : Bytes :=
  let tmp := writeHeader p (encryptData p dev.tmpMacroblock bi id) dev bi
  Memory.store tmp 0 (p.c.enc (indexIv id) (Memory.slice tmp 0 p.mesoblkSize))

/-- `blockio_dev_write_current_macroblock`. -/
def writeCurrentMacroblock (dev : BlockioDev) : Except Failure BlockioDev :=
  match dev.bi with
  | none => throw (.null "dev->bi")
  | some id => do
    let bi := dev.b.infos id
    check (bi.dev ≠ none) "bi->dev"
    check (id < p.b.totalMacroblocks) "dev->bi && id < dev->b->total_macroblocks"
    if bi.noIndices > p.b.mmpm then throw (.outOfBounds "dev->bi->indices[i-1]")
    let tmp := encodeMacroblock p dev bi id
    return { dev with
      writes := dev.writes + 1
      tmpMacroblock := tmp
      bi := none
      b := { dev.b with
        infos := dev.b.infos.set id { bi with noNonobsolete := bi.noIndices }
        base := Memory.blit dev.b.base (id * p.macroblockSize) p.macroblockSize tmp
        written := { id, seqno := bi.seqno, indexIv := indexIv id,
                     dataIvs := (List.range' 1 p.b.mmpm).map fun i => dataIv bi.seqno i id } ::
          dev.b.written } }

/-! ## Reading -/

/-- `blockio_dev_read_mesoblk`. -/
def readMesoblk (dev : BlockioDev) (id no : ℕ) : p.Mesoblk :=
  p.c.dec ((dev.b.infos id).seqno, no + 1, id)
    (Memory.slice dev.b.base (id * p.macroblockSize + (no + 1) * p.mesoblkSize) p.mesoblkSize)

/-- `blockio_dev_read_mesoblk_part`, before the part is copied out. -/
def readMesoblkPart (dev : BlockioDev) (id no : ℕ) : Except Failure p.Mesoblk := do
  check (id < p.b.totalMacroblocks ∧ no < p.b.mmpm)
    "dev->b && dev->b->read && id < dev->b->total_macroblocks && no < dev->b->mmpm"
  return readMesoblk p dev id no

/-- `blockio_check_data_hash`. -/
def checkDataHash (dev : BlockioDev) (id : ℕ) : Bool :=
  decide ((dev.b.infos id).dataHash =
    p.hash (Memory.readList dev.b.base (id * p.macroblockSize + p.mesoblkSize)
      (p.macroblockSize - p.mesoblkSize)))

/-! ## Scanning -/

/-- Read the index block of macroblock `no` and decrypt it. -/
def readHeader (dev : BlockioDev) (no : ℕ) : Bytes :=
  Memory.store dev.tmpMacroblock 0
    (p.c.dec (indexIv no) (Memory.slice dev.b.base (no * p.macroblockSize) p.mesoblkSize))

/-- The two tests that tell our index blocks from other data. -/
def seemsOurs (tmp : Bytes) : Bool :=
  decide (Memory.readList tmp magic64 8 = magic ∧
    Memory.slice tmp indexblockSha256 32 = p.hash (Memory.readList tmp 32 (p.mesoblkSize - 32)))

/-- The record of a macroblock from its index block. -/
def parseInfo (tmp : Bytes) (bi : BlockioInfo) : Except Failure BlockioInfo := do
  let seqno := Binio.readUint64Be tmp seqnoUint64
  let nextSeqno := Binio.readUint64Be tmp nextSeqnoUint64
  if Memory.readList tmp reservedSpace1024 128 ≠ List.replicate 128 0 then
    throw (.fatal "reserved space is not zeroed out")
  if seqno = 0 then throw (.fatal "block found with seqno 0, not possibile")
  if nextSeqno ≤ seqno then throw (.fatal "block found with seqno >= next_seqno, not possible")
  let noIndices := Binio.readUint32Be tmp noIndicesUint32
  if noIndices > p.b.mmpm then throw (.outOfBounds "bi->indices[i-1]")
  let word i := Binio.readUint32Be tmp (noIndicesUint32 + 4 * (i + 1))
  if ¬ ∀ i < p.b.mmpm, noIndices ≤ i → word i = 0 then
    throw (.fatal "unused indices must be zero, they are not")
  return { bi with
    dataHash := Memory.slice tmp datablocksSha256 32
    seqno
    nextSeqno
    noNonobsolete := noIndices
    noIndices
    indices := fun i => if i < noIndices then word i else 0 }

/-- `sort_to_replay`. -/
def sortToReplay (infos : BlockioInfos) (replay : List ℕ) (no : ℕ) : Except Failure (List ℕ) :=
  match replay.insertByKey (fun b => (infos b).seqno) no with
  | some replay => .ok replay
  | none => .error (.assertion "*seqno != bi->seqno")

/-- `blockio_dev_scan_header`; the second component is the highest sequence number found so far. -/
def scanHeader (dev : BlockioDev) (no seqno : ℕ) : Except Failure (BlockioDev × ℕ) := do
  check (no < p.b.totalMacroblocks) "no < dev->b->total_macroblocks"
  if (dev.b.infos no).dev ≠ none then return (dev, seqno)
  let tmp := readHeader p dev no
  let dev := { dev with tmpMacroblock := tmp }
  if !seemsOurs p tmp then return (dev, seqno)
  let bi ← parseInfo p tmp (dev.b.infos no)
  let infos := dev.b.infos.set no { bi with dev := some dev.self }
  check (no ∈ dev.b.unallocated) "at_elt->prev"
  let replay ← sortToReplay infos dev.replay no
  let dev := { dev with
    replay
    b := { dev.b with infos, unallocated := dev.b.unallocated.erase no } }
  check (bi.seqno ≠ seqno) "bi->seqno != *seqno"
  if bi.seqno > seqno then -- candidate found for highest seqno
    return ({ dev with
      status := dev.status.read tmp p.b.bitmapOffset
      seqnosHash := Memory.slice tmp seqnosSha256 32
      noMacroblocks := Binio.readUint32Be tmp noMacroblocksUint32
      reservedMacroblocks := Binio.readUint32Be tmp reservedBlocksUint32 }, bi.seqno)
  else return (dev, seqno)

/-! ## Macroblock status -/

/-- `blockio_dev_get_macroblock_status_bynum`. -/
def getMacroblockStatusBynum (dev : BlockioDev) (num : ℕ) : Except Failure MacroblockStatus := do
  let bits ← dev.status.getbits num 1
  return if bits = 0 then .free else .used

/-- `blockio_dev_get_macroblock_status`. -/
def getMacroblockStatus (dev : BlockioDev) (bi : ℕ) : Except Failure MacroblockStatus := do
  check ((dev.b.infos bi).dev ≠ none) "bi->dev"
  check (bi < p.b.totalMacroblocks) "index < bi->dev->b->total_macroblocks"
  getMacroblockStatusBynum dev bi

/-- `blockio_dev_change_macroblock_status`. -/
def changeMacroblockStatus (dev : BlockioDev) (index : ℕ) (new : MacroblockStatus) :
    Except Failure BlockioDev := do
  let old ← getMacroblockStatusBynum dev index
  check (old ≠ new) "bitmap_getbits(&bi->dev->status, index, 1) != new"
  let status ← (match new with
    | .used => dev.status.setbitSafe index
    | .free => dev.status.clearbitSafe index)
  return { dev with status }

/-- `blockio_prepare_block`, for a block of partition `self`. -/
def prepareBlock (bi : BlockioInfo) (self : ℕ) : BlockioInfo :=
  { bi with dev := some self, seqno := 0, nextSeqno := 0, noIndices := 0, noNonobsolete := 0,
            indices := fun _ => 0 }

/-! ## Opening and closing -/

/-- The end of `blockio_init_file`, for a backing file with the contents `base`. -/
def initInfos (base : Bytes) (written : List MacroblockWrite) : Blockio where
  unallocated := List.range p.b.totalMacroblocks
  base
  written

/-- The body of the second loop of `blockio_dev_init`: take macroblock `i` if it is marked as ours
although it carries no header of ours. -/
def claimUsed (dev : BlockioDev) (i : ℕ) : Except Failure BlockioDev := do
  if (← getMacroblockStatusBynum dev i) = .used then
    if i ≥ p.b.totalMacroblocks then throw (.fatal "macroblock marked as USED that does not exist")
    if (dev.b.infos i).dev = some dev.self then return dev
    if (dev.b.infos i).dev ≠ none then
      throw (.fatal "block %u USED by us but claimed by another device")
    check (i ∈ dev.b.unallocated) "at_elt->prev"
    let infos := dev.b.infos.set i (prepareBlock (dev.b.infos i) dev.self)
    let j ← dev.j.addMacroblock infos i
    return { dev with j, b := { dev.b with infos, unallocated := dev.b.unallocated.erase i } }
  else return dev

/-- `blockio_dev_init`. -/
def devInit (b : Blockio) (self : ℕ) : Except Failure BlockioDev := do
  p.b.devCheck
  let dev : BlockioDev := { b, self, status := Bitmap.init p.b.maxMacroblocks }
  let (dev, seqno) ← (List.range p.b.totalMacroblocks).foldlM
    (fun (dev, seqno) i => scanHeader p dev i seqno) (dev, 0)
  if dev.replay = [] then
    check (seqno = 0) "!seqno"
    return dev
  let dev ← (List.range p.b.maxMacroblocks).foldlM (claimUsed p) dev
  if dev.noMacroblocks ≠ dev.replay.length + dev.j.count then
    throw (.fatal "count of macroblocks does not match the amount of blocks we have")
  return dev

/-- `blockio_dev_free`. -/
def devFree (dev : BlockioDev) : Except Failure Blockio := do
  let dev ← (if dev.updated then writeCurrentMacroblock p dev else pure dev)
  return { dev.b with
    infos := fun i =>
      if i < p.b.totalMacroblocks ∧ (dev.b.infos i).dev = some dev.self then
        { dev.b.infos i with dev := none }
      else dev.b.infos i
    unallocated := dev.b.unallocated ++ dev.j.scheduled ++ dev.j.unscheduled ++ dev.replay.reverse }

/-- `blockio_dev_select_next_macroblock`. A block that comes back at a number that does not fit in 64
bits was placed by a loop that took that many turns; such a call has not returned. -/
def selectNextMacroblock (fuel : ℕ) (dev : BlockioDev) : Draw Failure BlockioDev := do
  check (dev.bi = none) "!dev->bi"
  let (bi, j, infos) ← Juggler.getDevblock fuel dev.j dev.b.infos false
  match bi with
  | none => .raise (.assertion "dev->bi")
  | some id =>
    if (infos id).nextSeqno < 2 ^ 64 then
      return { dev with
        updated := false
        bi
        j
        tailMacroblock := j.getObsoleted infos
        b := { dev.b with infos } }
    else .starve

/-- `blockio_dev_write_current_and_select_next_macroblock`. -/
def writeCurrentAndSelectNextMacroblock (fuel : ℕ) (dev : BlockioDev) : Draw Failure BlockioDev := do
  let dev ← writeCurrentMacroblock p dev
  selectNextMacroblock fuel dev

/-- One turn of the loop of `blockio_dev_allocate_macroblocks`. -/
def allocateMacroblock (dev : BlockioDev) : Draw Failure BlockioDev := do
  let no ← randomCustom dev.b.unallocated.length
  match dev.b.unallocated[no]? with
  | none => .raise (.assertion "n >= 0 && n < a->tail.index")
  | some i =>
    let infos := dev.b.infos.set i (prepareBlock (dev.b.infos i) dev.self)
    let j ← dev.j.addMacroblock infos i
    changeMacroblockStatus { dev with
      j
      noMacroblocks := dev.noMacroblocks + 1
      b := { dev.b with infos, unallocated := dev.b.unallocated.eraseIdx no } } i .used

def allocateTurns : (size : ℕ) → BlockioDev → Draw Failure BlockioDev
  | 0, dev => return dev
  | size + 1, dev => do
    let dev ← allocateMacroblock dev
    allocateTurns size dev

/-- `blockio_dev_allocate_macroblocks`; `none` is the return value -1. -/
def allocateMacroblocks (dev : BlockioDev) (size : ℕ) : Draw Failure (Option BlockioDev) := do
  if dev.b.unallocated.length < size then return none
  let dev ← allocateTurns size dev
  return some dev

end Blockio

end Scubed3
