import Scubed3.Model.Blockio

/-! # A partition: mesoblocks, garbage collection, requests

`scubed3.c` presents a partition as an array of mesoblocks. `block_indices` says where each of them
is: in which macroblock and at which position. A mesoblock that is written goes into the macroblock
that is being built in memory; before the next macroblock is handed out its mesoblocks that are
still in use are copied as well. Reads look in memory, on the device, or return zeroes.
-/

namespace Scubed3

/-- `scubed3_t`, with the `blockio_dev_t` it points to. -/
structure Partition where
  dev : BlockioDev
  outputInitialized : Bool := false
  noBlockIndices : ℕ := 0
  blockIndices : ℕ → ℕ := fun _ => 0

/-- The entry of a mesoblock that was never written. -/
def noIndex : ℕ := 0xFFFFFFFF

namespace Partition

open Blockio

variable (p : Params)

/-- The macro `ID`. -/
def indexId (index : ℕ) : ℕ := index >>> p.b.mesobits

/-- The macro `NO`. -/
def indexNo (index : ℕ) : ℕ := index &&& 0xFFFFFFFF >>> (32 - p.b.mesobits)

/-- The entry for position `no` of macroblock `id`. -/
def blockIndex (id no : ℕ) : ℕ := (id <<< p.b.mesobits + no % 2 ^ 16) % 2 ^ 32

/-- Replace one record of `blockio_infos`. -/
def setInfo (l : Partition) (id : ℕ) (info : BlockioInfo) : Partition :=
  { l with dev := { l.dev with b := { l.dev.b with infos := l.dev.b.infos.set id info } } }

/-- Replace the buffer in which the current macroblock is built. -/
def setTmp (l : Partition) (tmp : Bytes) : Partition := { l with dev := { l.dev with tmpMacroblock := tmp } }

/-- `obsolete_mesoblk`. -/
def obsoleteMesoblk (l : Partition) (bi : ℕ) : Except Failure Partition := do
  let info := l.dev.b.infos bi
  check (info.noNonobsolete ≠ 0) "bi->no_nonobsolete"
  let noNonobsolete := info.noNonobsolete - 1
  -- if the whole block is obsolete, remove it from the active list
  return l.setInfo bi { info with
    noNonobsolete, noIndices := if noNonobsolete = 0 then 0 else info.noIndices }

/-- `obsolete_mesoblk_byidx`. -/
def obsoleteMesoblkByidx (l : Partition) (index : ℕ) : Except Failure Partition :=
  if index ≠ noIndex then obsoleteMesoblk l (indexId p index) else return l

/-- `update_block_indices`. -/
def updateBlockIndices (l : Partition) (offset id no : ℕ) : Partition :=
  { l with blockIndices := Function.update l.blockIndices offset (blockIndex p id no) }

/-- `add_blockref`, for the current macroblock `bi`. -/
def addBlockref (l : Partition) (bi offset : ℕ) : Except Failure Partition := do
  let info := l.dev.b.infos bi
  if info.noIndices ≥ p.b.mmpm then throw (.outOfBounds "l->dev->bi->indices[l->dev->bi->no_indices]")
  return updateBlockIndices p (l.setInfo bi { info with
      indices := Function.update info.indices info.noIndices offset
      noIndices := info.noIndices + 1 }) offset bi info.noIndices

/-- `mesoblk`: the offset of a data block in `tmp_macroblock`. -/
def mesoblk (no : ℕ) : Except Failure ℕ := do
  check (no % 2 ^ 16 < p.b.mmpm) "no < l->dev->b->mmpm"
  return (no % 2 ^ 16 + 1) * p.mesoblkSize

/-- The body of the loop of `copy_old_block_to_current`, for position `k` of `bi`. -/
def copyMesoblk (l : Partition) (bi k : ℕ) : Except Failure Partition := do
  let offset := (l.dev.b.infos bi).indices k
  if offset ≥ l.noBlockIndices then return l
  let index := l.blockIndices offset
  if index ≠ noIndex ∧ indexId p index = bi then
    match l.dev.bi with
    | none => throw (.null "l->dev->bi")
    | some current =>
      let addr ← mesoblk p (l.dev.b.infos current).noIndices
      let l := l.setTmp (Memory.store l.dev.tmpMacroblock addr (readMesoblk p l.dev bi k))
      let l ← addBlockref p l current offset
      obsoleteMesoblk l bi
  else return l

/-- The loop of `copy_old_block_to_current` from position `k` on; the arrays have `k + turns` entries. -/
def copyMesoblks (bi : ℕ) : (turns k : ℕ) → Partition → Except Failure Partition
  | 0, k, l => if k < (l.dev.b.infos bi).noIndices then throw (.outOfBounds "bi->indices[k]") else return l
  | turns + 1, k, l =>
    if k < (l.dev.b.infos bi).noIndices then do
      let l ← copyMesoblk p l bi k
      copyMesoblks bi turns (k + 1) l
    else return l

/-- `copy_old_block_to_current`. -/
def copyOldBlockToCurrent (l : Partition) : Except Failure Partition :=
  match l.dev.tailMacroblock with
  | none => return l
  | some bi => do
    if (← getMacroblockStatus p l.dev bi) = .used then copyMesoblks p bi p.b.mmpm 0 l
    else return l

/-- `select_new_macroblock` without its assertion: the loop, for at most `turns` turns. -/
def selectNewMacroblocks (fuel : ℕ) : (turns : ℕ) → Partition → Draw Failure Partition
  | 0, _ => .starve
  | turns + 1, l => do
    let dev ← writeCurrentAndSelectNextMacroblock p fuel l.dev
    let l ← copyOldBlockToCurrent p { l with dev }
    match l.dev.bi with
    | none => .raise (.null "l->dev->bi")
    | some bi =>
      if (l.dev.b.infos bi).noIndices = p.b.mmpm then selectNewMacroblocks fuel turns l
      else return l

/-- `select_new_macroblock`. -/
def selectNewMacroblock (fuel : ℕ) (l : Partition) : Draw Failure Partition := do
  check (l.outputInitialized = true) "l->output_initialized"
  selectNewMacroblocks p fuel fuel l

/-- `initialize_output`. -/
def initializeOutput (l : Partition) : Except Failure Partition := do
  if l.outputInitialized then return l
  let l ← copyOldBlockToCurrent p l
  return { l with outputInitialized := true }

/-- `scubed3_cycle`. -/
def cycle (fuel : ℕ) (l : Partition) : Draw Failure Partition := do
  let l ← (if l.outputInitialized then pure l else do
    let l ← copyOldBlockToCurrent p l
    return { l with outputInitialized := true })
  let dev ← writeCurrentMacroblock p l.dev
  let dev ← selectNextMacroblock fuel dev
  return { l with dev, outputInitialized := false }

/-! ## Opening -/

/-- The body of the loop of `replay`, for position `k` of `bi`. -/
def replayMesoblk (bi : ℕ) (l : Partition) (k : ℕ) : Except Failure Partition := do
  let offset := (l.dev.b.infos bi).indices k
  if offset ≥ l.noBlockIndices then return l
  let index := l.blockIndices offset
  check (bi ≠ indexId p index) "id(bi) != ID"
  let l ← obsoleteMesoblkByidx p l index
  return updateBlockIndices p l offset bi k

/-- `replay`. -/
def replay (l : Partition) (bi : ℕ) : Except Failure Partition :=
  (List.range (l.dev.b.infos bi).noIndices).foldlM (replayMesoblk p bi) l

/-- The number of mesoblocks that `no` macroblocks offer when `reserved` of them are kept back. -/
def usableMesoblks (no reserved : ℕ) : ℕ := ((no + 2 ^ 32 - reserved) % 2 ^ 32 * p.b.mmpm) % 2 ^ 32

/-- `scubed3_init`; the second component says that the warning about a missing block is given. -/
def init (dev : BlockioDev) : Except Failure (Partition × Bool) := do
  let noBlockIndices :=
    if dev.noMacroblocks ≤ dev.reservedMacroblocks then 0
    else usableMesoblks p dev.noMacroblocks dev.reservedMacroblocks
  let l : Partition := { dev, noBlockIndices, blockIndices := fun _ => noIndex }
  if dev.noMacroblocks = 0 then return (l, false)
  let l ← dev.replay.foldlM (replay p) l
  let j ← l.dev.replay.reverse.foldlM (fun j bi => j.addMacroblock l.dev.b.infos bi) l.dev.j
  let l := { l with dev := { l.dev with j, replay := [] } }
  return (l, decide (j.hashScheduledSeqnos p.hash l.dev.b.infos ≠ l.dev.seqnosHash))

/-- `scubed3_reinit`. -/
def reinit (l : Partition) : Except Failure Partition := do
  let noBlockIndices := usableMesoblks p l.dev.noMacroblocks l.dev.reservedMacroblocks
  if l.noBlockIndices = noBlockIndices then return l
  if l.noBlockIndices > noBlockIndices then throw (.fatal "scubed3_reinit shrinking not supported")
  -- all mesoblocks beyond the old end are free
  return { l with
    noBlockIndices
    blockIndices := fun m => if l.noBlockIndices ≤ m ∧ m < noBlockIndices then noIndex else l.blockIndices m }

/-! ## Requests -/

/-- One of the two `readorfake` calls of `do_cow`: fill `len` bytes of the buffer from `offset` of the
mesoblock on. -/
def cowPart (l : Partition) (index addr offset len : ℕ) : Except Failure Partition := do
  let block ← (if index ≠ noIndex then readMesoblkPart p l.dev (indexId p index) (indexNo p index)
    else pure fun _ => 0)
  return l.setTmp (Memory.blit l.dev.tmpMacroblock (addr + offset) len
    fun i => Memory.ofBlock block (offset + i))

/-- `do_cow`. -/
def doCow (l : Partition) (index muoff size addr : ℕ) : Except Failure Partition := do
  let l ← (if muoff ≠ 0 then cowPart p l index addr 0 muoff else pure l)
  if p.mesoblkSize > size + muoff then
    cowPart p l index addr (muoff + size) (p.mesoblkSize - size - muoff)
  else return l

/-- The part of `do_write` after room has been made, for the current macroblock `bi`. -/
def storeMesoblk (l : Partition) (bi index mesoff muoff size : ℕ) (data : Bytes) :
    Except Failure Partition := do
  let inRam := indexId p index = bi
  let addr ← mesoblk p (if inRam then indexNo p index else (l.dev.b.infos bi).noIndices)
  let l := l.setTmp (Memory.blit l.dev.tmpMacroblock (addr + muoff) size data)
  if inRam then return l
  -- the rest of the mesoblock comes from disk, or is zero
  let l ← doCow p l index muoff size addr
  let l ← obsoleteMesoblkByidx p l index
  addBlockref p l bi mesoff

/-- `do_write`. -/
def doWrite (fuel : ℕ) (l : Partition) (mesoff muoff size : ℕ) (data : Bytes) : Draw Failure Partition := do
  let index := l.blockIndices mesoff
  check (muoff + size ≤ p.mesoblkSize) "muoff + size <= 1<<l->dev->b->mesoblk_log"
  let l ← initializeOutput p { l with dev := { l.dev with updated := true } }
  match l.dev.bi with
  | none => .raise (.null "l->dev->bi")
  | some bi =>
    if indexId p index = bi then storeMesoblk p l bi index mesoff muoff size data
    else
      -- the current block can be full after garbage collecting
      let l ← (if (l.dev.b.infos bi).noIndices = p.b.mmpm then selectNewMacroblock p fuel l else pure l)
      match l.dev.bi with
      | none => .raise (.null "l->dev->bi")
      | some bi => storeMesoblk p l bi (l.blockIndices mesoff) mesoff muoff size data

/-- `do_read`: `size` bytes of a mesoblock, put into `out` from `ooff` on. -/
def doRead (l : Partition) (mesoff muoff size : ℕ) (out : Bytes) (ooff : ℕ) : Except Failure Bytes :=
  let index := l.blockIndices mesoff
  if l.dev.bi = some (indexId p index) then do -- in RAM
    let addr ← mesoblk p (indexNo p index)
    return Memory.blit out ooff size fun i => l.dev.tmpMacroblock (addr + muoff + i)
  else if index = noIndex then return Memory.fill out ooff size 0 -- never written
  else do -- on disk
    let block ← readMesoblkPart p l.dev (indexId p index) (indexNo p index)
    return Memory.blit out ooff size fun i => Memory.ofBlock block (muoff + i)

section Request

variable {σ : Type} (action : σ → (mesoff muoff size ooff : ℕ) → Draw Failure σ)

/-- The `while` loop of `do_req`, which makes `size >> mesoblk_log` turns, and the remainder. -/
def doReqLoop : (turns : ℕ) → σ → (meso size ooff : ℕ) → Draw Failure σ
  | 0, s, meso, size, ooff => if size > 0 then action s meso 0 size ooff else return s
  | turns + 1, s, meso, size, ooff => do
    let s ← action s meso 0 p.mesoblkSize ooff
    doReqLoop turns s ((meso + 1) % 2 ^ 32) (size - p.mesoblkSize) ((ooff + p.mesoblkSize) % 2 ^ 32)

/-- The test of `do_req` for an access past the end of the device. -/
def pastEnd (noBlockIndices rOffset size : ℕ) : Prop :=
  noBlockIndices ≤ (rOffset + size + 2 ^ 64 - 1) % 2 ^ 64 / p.mesoblkSize

instance (noBlockIndices rOffset size : ℕ) : Decidable (pastEnd p noBlockIndices rOffset size) :=
  inferInstanceAs (Decidable (_ ≤ _))

/-- `do_req`, for `action` one of `do_write` and `do_read` and `s` what it works on. -/
def doReq (noBlockIndices : ℕ) (s : σ) (rOffset size : ℕ) : Draw Failure σ :=
  let meso := rOffset / p.mesoblkSize % 2 ^ 32
  let inmeso := rOffset % p.mesoblkSize
  if pastEnd p noBlockIndices rOffset size then return s
  else if inmeso ≠ 0 then do
    let reqsz := if inmeso + size ≤ p.mesoblkSize then size else p.mesoblkSize - inmeso
    let s ← action s meso inmeso reqsz 0
    doReqLoop p action ((size - reqsz) / p.mesoblkSize) s ((meso + 1) % 2 ^ 32) (size - reqsz) reqsz
  else doReqLoop p action (size / p.mesoblkSize) s meso size 0

end Request

/-- `do_req(l, SCUBED3_WRITE, …)`. -/
def reqWrite (fuel : ℕ) (l : Partition) (rOffset size : ℕ) (buf : Bytes) : Draw Failure Partition :=
  doReq p (fun l mesoff muoff size ooff => doWrite p fuel l mesoff muoff size fun i => buf (ooff + i))
    l.noBlockIndices l rOffset size

/-- `do_req(l, SCUBED3_READ, …)`: the buffer afterwards. -/
def reqRead (l : Partition) (rOffset size : ℕ) (buf : Bytes) : Draw Failure Bytes :=
  doReq p (fun out mesoff muoff size ooff => liftM (doRead p l mesoff muoff size out ooff))
    l.noBlockIndices buf rOffset size

end Partition

end Scubed3
