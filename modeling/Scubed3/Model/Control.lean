import Scubed3.Model.Partition

/-! # The control commands that open, resize and close a partition

`control.c` and `fuse_io.c` own the partitions. A command is answered OK or with a message; the base
device survives all of them. Names and keys are not modelled: the cipher is a parameter.
-/

namespace Scubed3

/-- `fuse_io_entry_t`, as far as it concerns the partition. -/
structure Entry where
  size : ℕ
  inuse : Bool := false
  l : Partition

/-- How `control_open` and `control_create` end. -/
inductive Opened where
  | refused (message : String) (b : Blockio)
  /-- `missing` says that the warning about a missing block was given. -/
  | opened (entry : Entry) (missing : Bool)

/-- How a command on an open partition is answered. -/
inductive Reply where
  | ok
  | refused (message : String)
deriving DecidableEq

namespace Control

open Blockio

variable (p : Params)

/-- `((no_macroblocks - reserved_macroblocks)<<mesoblk_log)*mmpm`. -/
def entrySize (no reserved : ℕ) : ℕ :=
  (no + 2 ^ 32 - reserved) % 2 ^ 32 * p.mesoblkSize % 2 ^ 32 * p.b.mmpm % 2 ^ 32

/-- `control_open_create_common`. -/
def openCreateCommon (fuel : ℕ) (b : Blockio) (self : ℕ) (add : Bool) : Draw Failure Opened := do
  -- scan base file/device for our blocks
  let dev ← devInit p b self
  if add && dev.noMacroblocks != 0 then
    let b ← devFree p dev
    return .refused "unable to create device: it already exists, use `open' instead" b
  else if !add && dev.noMacroblocks == 0 then
    let b ← devFree p dev
    return .refused "no blocks found: passphrase wrong?" b
  else
    let size := if dev.noMacroblocks > dev.reservedMacroblocks then
        entrySize p dev.noMacroblocks dev.reservedMacroblocks
      else 0
    let (l, missing) ← Partition.init p dev
    check (l.dev.bi = none) "!entry->d.bi"
    let dev ← (if size > 0 then selectNextMacroblock fuel l.dev else pure l.dev)
    return .opened { size, l := { l with dev } } missing

/-- `control_open`. -/
def openPartition (fuel : ℕ) (b : Blockio) (self : ℕ) : Draw Failure Opened :=
  openCreateCommon p fuel b self false

/-- `control_create`. -/
def create (fuel : ℕ) (b : Blockio) (self : ℕ) : Draw Failure Opened := openCreateCommon p fuel b self true

/-- `control_resize`. -/
def resize (fuel : ℕ) (entry : Entry) (size reserved : ℤ) : Draw Failure (Reply × Entry) :=
  let dev := entry.l.dev
  if entry.inuse then return (.refused "partition \"%s\" is busy", entry)
  else if ¬ reserved ≤ size ∨ ¬ 0 ≤ size then
    return (.refused "values for new_size=%d and reserved=%d make no sense", entry)
  else if size.toNat < dev.noMacroblocks then
    return (.refused "shrinking device is not yet supported", entry)
  else if size.toNat > p.b.totalMacroblocks then
    return (.refused "not enough blocks available, base device has only %d blocks", entry)
  else if size.toNat - dev.noMacroblocks = 0 then return (.refused "nothing to do", entry)
  else do
    match ← allocateMacroblocks dev (size.toNat - dev.noMacroblocks) with
    | none => return (.refused "not enough unclaimed blocks available for resize", entry)
    | some dev =>
      let dev := { dev with reservedMacroblocks := (reserved % 2 ^ 32).toNat }
      let size := if dev.noMacroblocks > dev.reservedMacroblocks then
          entrySize p dev.noMacroblocks dev.reservedMacroblocks
        else entry.size
      let l ← Partition.reinit p { entry.l with dev }
      let dev ← (if l.dev.bi = none then selectNextMacroblock fuel l.dev else pure l.dev)
      return (.ok, { entry with size, l := { l with dev := { dev with updated := true } } })

/-- `control_close`; the partition is then freed by `freer`. -/
def close (entry : Entry) : Except Failure (Reply × Blockio) := do
  if entry.inuse then return (.refused "partition \"%s\" is busy", entry.l.dev.b)
  let b ← devFree p entry.l.dev
  return (.ok, b)

end Control

end Scubed3
