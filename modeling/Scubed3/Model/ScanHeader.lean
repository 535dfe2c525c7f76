import Scubed3.Model.Blockio

/-! # Scanning a header, access by access

`blockio_dev_scan_header` once more, with every access to the index block and to the array `bi->indices` made on
its own. An access outside the index block or outside the `mmpm` slots of the array raises `outOfBounds`. The
geometry is any one that `blockio_init_file` computes.
-/

namespace Scubed3.Blockio.Checked

variable (b : Geometry)

/-- An access to `len` bytes of `BASE` from `off` on. -/
def access (off len : ℕ) : Except Failure Unit :=
  if off + len ≤ 1 <<< b.mesoblkLog then .ok () else .error (.outOfBounds "BASE")

/-- The bytes that `memcmp` or the hash function looks at. -/
def readList (tmp : Bytes) (off len : ℕ) : Except Failure (List UInt8) := do
  access b off len
  return Memory.readList tmp off len

/-- The digest that `memcpy` or `memcmp` looks at. -/
def readHash (tmp : Bytes) (off : ℕ) : Except Failure Hash := do
  access b off 32
  return Memory.slice tmp off 32

/-- `binio_read_uint32_be`. -/
def readUint32Be (tmp : Bytes) (off : ℕ) : Except Failure ℕ := do
  access b off 4
  return Binio.readUint32Be tmp off

/-- `binio_read_uint64_be`. -/
def readUint64Be (tmp : Bytes) (off : ℕ) : Except Failure ℕ := do
  access b off 8
  return Binio.readUint64Be tmp off

/-- `bi->indices[i-1] = value`. -/
def storeIndex (indices : ℕ → ℕ) (i value : ℕ) : Except Failure (ℕ → ℕ) :=
  if i - 1 < b.mmpm then .ok (Function.update indices (i - 1) value)
  else .error (.outOfBounds "bi->indices[i-1]")

/-- The loop that takes the indices over, from `i` on. -/
def copyIndices (tmp : Bytes) : (turns i : ℕ) → (indices : ℕ → ℕ) → Except Failure (ℕ → ℕ)
  | 0, _, indices => return indices
  | turns + 1, i, indices => do
    let value ← readUint32Be b tmp (noIndicesUint32 + 4 * i)
    let indices ← storeIndex b indices i value
    copyIndices tmp turns (i + 1) indices

/-- The loop over the unused indices, from `i` on. -/
def checkUnused (tmp : Bytes) : (turns i : ℕ) → Except Failure Unit
  | 0, _ => return ()
  | turns + 1, i => do
    if (← readUint32Be b tmp (noIndicesUint32 + 4 * i)) ≠ 0 then
      throw (.fatal "unused indices must be zero, they are not")
    checkUnused tmp turns (i + 1)

/-- The two tests that tell our index blocks from other data. -/
def seemsOurs (hash : List UInt8 → Hash) (tmp : Bytes) : Except Failure Bool := do
  if (← readList b tmp magic64 8) ≠ magic then return false
  let sha256 := hash (← readList b tmp 32 (1 <<< b.mesoblkLog - 32))
  return decide ((← readHash b tmp indexblockSha256) = sha256)

/-- Take the record of the macroblock from its index block. -/
def parseInfo (tmp : Bytes) (bi : BlockioInfo) : Except Failure BlockioInfo := do
  let dataHash ← readHash b tmp datablocksSha256
  let seqno ← readUint64Be b tmp seqnoUint64
  let nextSeqno ← readUint64Be b tmp nextSeqnoUint64
  if (← readList b tmp reservedSpace1024 128) ≠ List.replicate 128 0 then
    throw (.fatal "reserved space is not zeroed out")
  if seqno = 0 then throw (.fatal "block found with seqno 0, not possibile")
  if nextSeqno ≤ seqno then throw (.fatal "block found with seqno >= next_seqno, not possible")
  let noIndices ← readUint32Be b tmp noIndicesUint32
  let indices ← copyIndices b tmp noIndices 1 fun _ => 0
  -- continue with the same value of i
  checkUnused b tmp (b.mmpm - noIndices) (noIndices + 1)
  return { bi with dataHash, seqno, nextSeqno, noNonobsolete := noIndices, noIndices, indices }

/-- `bitmap_read`, for the bitmap behind the indices. -/
def readBitmap (status : Bitmap) (tmp : Bytes) : Except Failure Bitmap := do
  access b b.bitmapOffset status.size
  return status.read tmp b.bitmapOffset

/-- Read the index block of macroblock `no` and decrypt it. -/
def readHeader (c : Cipher (2 ^ b.mesoblkLog)) (dev : BlockioDev) (no : ℕ) : Bytes :=
  Memory.store dev.tmpMacroblock 0
    (c.dec (indexIv no) (Memory.slice dev.b.base (no * 2 ^ b.macroblockLog) (2 ^ b.mesoblkLog)))

/-- `blockio_dev_scan_header`; the second component is the highest sequence number found so far. -/
def scanHeader (c : Cipher (2 ^ b.mesoblkLog)) (hash : List UInt8 → Hash) (dev : BlockioDev) (no seqno : ℕ) :
    Except Failure (BlockioDev × ℕ) := do
  check (no < b.totalMacroblocks) "no < dev->b->total_macroblocks"
  if (dev.b.infos no).dev ≠ none then return (dev, seqno)
  let tmp := readHeader b c dev no
  let dev := { dev with tmpMacroblock := tmp }
  if !(← seemsOurs b hash tmp) then return (dev, seqno)
  let bi ← parseInfo b tmp (dev.b.infos no)
  let infos := dev.b.infos.set no { bi with dev := some dev.self }
  check (no ∈ dev.b.unallocated) "at_elt->prev"
  let replay ← sortToReplay infos dev.replay no
  let dev := { dev with
    replay
    b := { dev.b with infos, unallocated := dev.b.unallocated.erase no } }
  check (bi.seqno ≠ seqno) "bi->seqno != *seqno"
  if bi.seqno > seqno then -- candidate found for highest seqno
    let status ← readBitmap b dev.status tmp
    let seqnosHash ← readHash b tmp seqnosSha256
    let noMacroblocks ← readUint32Be b tmp noMacroblocksUint32
    let reservedMacroblocks ← readUint32Be b tmp reservedBlocksUint32
    return ({ dev with status, seqnosHash, noMacroblocks, reservedMacroblocks }, bi.seqno)
  else return (dev, seqno)

end Scubed3.Blockio.Checked
