import Scubed3.Model.Daemon

/-! # The partitions as files

`fuse_io.c` presents every open partition as a file under the mount point. A path is a slash and the name of the
partition.
-/

namespace Scubed3

/-- The fields of `struct stat` that are not zero. -/
structure Stat where
  mode : ℕ := 0
  nlink : ℕ := 0
  size : ℕ := 0
deriving DecidableEq

def sIfdir : ℕ := 0o040000
def sIfreg : ℕ := 0o100000
def enoent : ℤ := 2

/-- What `fuse_io_getattr` reports about a partition. -/
def Entry.stat (entry : Entry) (readonly : Bool) : Stat where
  mode := sIfreg ||| if readonly then 0o400 else 0o600
  nlink := 1
  size := entry.size

namespace FuseIo

variable {u : Setup}

/-- `fuse_io_getattr`: the return value and `*stbuf`. -/
def getattr (d : Daemon u) (path : List UInt8) : Except Failure (ℤ × Stat) := do
  check (path.head? = some 47) "path && *path == '/'"
  if path = ascii "/" then return (0, { mode := sIfdir ||| 0o755, nlink := 2 })
  match d.find path.tail with
  | none => return (-Scubed3.enoent, {})
  | some entry => return (0, entry.io.stat entry.readonly)

end FuseIo

end Scubed3
