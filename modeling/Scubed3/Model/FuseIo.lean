import Scubed3.ToMathlib.Interleaving
import Scubed3.Model.BlockioInfo
import Mathlib.Logic.Function.Basic
import Mathlib.Data.Int.Notation
import Mathlib.Data.Nat.Notation

/-! # The threads that share the entry of a partition

`fuse_io.c` serves the file system with any number of threads, `control.c` executes commands in one thread. Both
look up the entry of a partition by name, work on it while they hold its data mutex, and let go of it. Such a
section is one step here. Who deletes an entry marks it first and lets go of it; only then it looks it up again
by its address, unlinks it and frees it. That is another step, and everything can happen in between.

There is one name. An address is the number of an allocation; an address that was freed is not used again. What
requests and commands do to the partition itself does not matter, it is any function on `content`.
-/

namespace Scubed3

variable {σ : Type}

/-- `fuse_io_entry_t`. -/
structure SharedEntry (σ : Type) where
  inuse : ℕ := 0
  readonly : Bool := false
  toBeDeleted : Bool := false
  closeOnRelease : Bool := false
  mountpoint : Option (List UInt8) := none
  /-- `size`, `d` and `l`. -/
  content : σ

/-- The memory of the entries, and the entry that is linked in the table under the name. -/
structure SharedTable (σ : Type) where
  memory : ℕ → Option (SharedEntry σ) := fun _ => none
  next : ℕ := 0
  linked : Option ℕ := none
  /-- The addresses that were freed, the last one first. -/
  freed : List ℕ := []

namespace SharedTable

/-- Read the entry at an address. -/
def deref (t : SharedTable σ) (addr : ℕ) : Except Failure (SharedEntry σ) :=
  match t.memory addr with
  | some entry => .ok entry
  | none => .error (.undefined "use of a freed entry")

/-- Store an entry. -/
def store (t : SharedTable σ) (addr : ℕ) (entry : SharedEntry σ) : SharedTable σ :=
  { t with memory := Function.update t.memory addr (some entry) }

/-- `hashtbl_find_element_bykey`. -/
def findElementBykey (t : SharedTable σ) : Except Failure (Option (ℕ × SharedEntry σ)) :=
  match t.linked with
  | none => return none
  | some addr => do
    let entry ← t.deref addr
    return some (addr, entry)

/-- `hashtbl_allocate_and_add_element`; `none` if the name is taken. -/
def allocateAndAddElement (t : SharedTable σ) (entry : SharedEntry σ) : Option (ℕ × SharedTable σ) :=
  match t.linked with
  | some _ => none
  | none => some (t.next, { t.store t.next entry with next := t.next + 1, linked := some t.next })

/-- `hashtbl_delete_element_byptr` with `freer`. It begins with the key of the element. -/
def deleteElementByptr (t : SharedTable σ) (addr : ℕ) : Except Failure (SharedTable σ) := do
  let _ ← t.deref addr
  if t.linked = some addr then
    return { t with memory := Function.update t.memory addr none, linked := none, freed := addr :: t.freed }
  else return t -- element has already been deleted

end SharedTable

namespace FuseIo

open SharedTable

/-! ## Calls of the file system -/

def enoent : ℤ := -2
def ebusy : ℤ := -16
def eacces : ℤ := -13

/-- `fuse_io_open`; `write` says that the access mode is not `O_RDONLY`. -/
def fuseIoOpen (t : SharedTable σ) (write : Bool) : Except Failure (ℤ × SharedTable σ) := do
  match ← t.findElementBykey with
  | none => return (enoent, t)
  | some (addr, entry) =>
    if entry.inuse ≠ 0 ∨ entry.toBeDeleted then return (ebusy, t)
    -- enforce readonly
    else if entry.readonly ∧ write then return (eacces, t)
    else return (0, t.store addr { entry with inuse := entry.inuse + 1 })

/-- `fuse_io_release` up to the end of its section; the second component is the entry that it still deletes. -/
def fuseIoRelease (t : SharedTable σ) : Except Failure (ℤ × Option ℕ × SharedTable σ) := do
  match ← t.findElementBykey with
  | none => return (enoent, none, t)
  | some (addr, entry) =>
    check (entry.inuse ≠ 0) "entry->inuse"
    let entry := { entry with inuse := entry.inuse - 1, mountpoint := none }
    if entry.closeOnRelease then return (0, some addr, t.store addr { entry with toBeDeleted := true })
    else return (0, none, t.store addr entry)

/-- `fuse_io_read`; `request` is what the call of `do_req` does. -/
def fuseIoRead (t : SharedTable σ) (request : σ → σ) (size : ℕ) : Except Failure (ℤ × SharedTable σ) := do
  match ← t.findElementBykey with
  | none => return (enoent, t)
  | some (addr, entry) => return (size, t.store addr { entry with content := request entry.content })

/-- `fuse_io_write`. -/
def fuseIoWrite (t : SharedTable σ) (request : σ → σ) (size : ℕ) : Except Failure (ℤ × SharedTable σ) := do
  match ← t.findElementBykey with
  | none => return (enoent, t)
  | some (addr, entry) =>
    check (entry.readonly = false) "!entry->readonly"
    return (size, t.store addr { entry with content := request entry.content })

/-! ## Commands -/

/-- `control_open_create_common` up to the end of its section, for a legal name. When an exception is thrown
the entry is marked. The result is the entry that is looked at again. -/
def controlOpenCreateCommon (t : SharedTable σ) (content : σ) (thrown : Bool) : Option ℕ × SharedTable σ :=
  match t.allocateAndAddElement { content, toBeDeleted := thrown } with
  | none => (none, t)
  | some (addr, t) => (some addr, t)

/-- The end of `control_open_create_common`. -/
def controlOpened (t : SharedTable σ) (addr : ℕ) : Except Failure (SharedTable σ) := do
  let entry ← t.deref addr
  if entry.toBeDeleted then t.deleteElementByptr addr else return t

/-- `control_close` up to the end of its section; the first component is the entry that it still deletes. -/
def controlClose (t : SharedTable σ) : Except Failure (Option ℕ × SharedTable σ) := do
  match ← t.findElementBykey with
  | none => return (none, t)
  | some (addr, entry) =>
    if entry.inuse ≠ 0 then return (none, t)
    -- we assume that entry still exists, is that a good assumption !?!?!
    else return (some addr, t.store addr { entry with toBeDeleted := true })

/-- `control_set_readonly`; `value` is `none` if it is not a boolean. -/
def controlSetReadonly (t : SharedTable σ) (value : Option Bool) : Except Failure (SharedTable σ) := do
  match ← t.findElementBykey with
  | none => return t
  | some (addr, entry) =>
    if entry.inuse ≠ 0 then return t
    else match value with
      | some readonly => return t.store addr { entry with readonly }
      | none => return t

/-- `control_set_close_on_release`. -/
def controlSetCloseOnRelease (t : SharedTable σ) (value : Option Bool) : Except Failure (SharedTable σ) := do
  match ← t.findElementBykey with
  | none => return t
  | some (addr, entry) =>
    match value with
    | some closeOnRelease => return t.store addr { entry with closeOnRelease }
    | none => return t

/-- `control_set_aux`. -/
def controlSetAux (t : SharedTable σ) (mountpoint : List UInt8) : Except Failure (SharedTable σ) := do
  match ← t.findElementBykey with
  | none => return t
  | some (addr, entry) => return t.store addr { entry with mountpoint := some mountpoint }

/-- `control_resize`, for `resize` what it does to the partition. -/
def controlResize (t : SharedTable σ) (resize : σ → σ) : Except Failure (SharedTable σ) := do
  match ← t.findElementBykey with
  | none => return t
  | some (addr, entry) =>
    if entry.inuse ≠ 0 then return t
    else return t.store addr { entry with content := resize entry.content }

/-! ## All threads -/

/-- What the control thread does next. -/
inductive ControlState where
  | idle
  /-- `control_open_create_common` looks at the entry again. -/
  | opened (addr : ℕ)
  /-- `control_close` deletes the entry. -/
  | closing (addr : ℕ)
deriving DecidableEq

/-- The table and the threads. -/
structure System (σ : Type) where
  table : SharedTable σ := {}
  control : ControlState := .idle
  /-- The files that are open, and whether they were opened for writing. -/
  files : List Bool := []
  /-- The entries that calls of `fuse_io_release` still delete. -/
  releasing : List ℕ := []

/-- A step of a thread. -/
inductive Action (σ : Type) where
  | fuseOpen (write : Bool)
  | fuseRead (request : σ → σ) (size : ℕ)
  | fuseWrite (request : σ → σ) (size : ℕ)
  | fuseRelease (file : Bool)
  | fuseReleaseDelete (addr : ℕ)
  | controlOpen (content : σ) (thrown : Bool)
  | controlOpened (addr : ℕ)
  | controlClose
  | controlCloseDelete (addr : ℕ)
  | controlSetReadonly (value : Option Bool)
  | controlSetCloseOnRelease (value : Option Bool)
  | controlSetAux (mountpoint : List UInt8)
  | controlResize (resize : σ → σ)

/-- The kernel writes to files that are open for writing and releases open files; the control thread does one thing
after the other. -/
def Enabled (s : System σ) : Action σ → Prop
  | .fuseOpen _ => True
  | .fuseRead _ _ => True
  | .fuseWrite _ _ => true ∈ s.files
  | .fuseRelease file => file ∈ s.files
  | .fuseReleaseDelete addr => addr ∈ s.releasing
  | .controlOpened addr => s.control = .opened addr
  | .controlCloseDelete addr => s.control = .closing addr
  | _ => s.control = .idle

/-- The state after a step. -/
def step (s : System σ) : Action σ → Except Failure (System σ)
  | .fuseOpen write => do
    let (ret, table) ← fuseIoOpen s.table write
    return { s with table, files := if ret = 0 then write :: s.files else s.files }
  | .fuseRead request size => do
    let (_, table) ← fuseIoRead s.table request size
    return { s with table }
  | .fuseWrite request size => do
    let (_, table) ← fuseIoWrite s.table request size
    return { s with table }
  | .fuseRelease file => do
    let (_, delete, table) ← fuseIoRelease s.table
    return { s with table, files := s.files.erase file, releasing := delete.toList ++ s.releasing }
  | .fuseReleaseDelete addr => do
    let table ← s.table.deleteElementByptr addr
    return { s with table, releasing := s.releasing.erase addr }
  | .controlOpen content thrown =>
    let (addr, table) := controlOpenCreateCommon s.table content thrown
    return { s with table, control := (addr.map .opened).getD .idle }
  | .controlOpened addr => do
    let table ← FuseIo.controlOpened s.table addr
    return { s with table, control := .idle }
  | .controlClose => do
    let (addr, table) ← FuseIo.controlClose s.table
    return { s with table, control := (addr.map .closing).getD .idle }
  | .controlCloseDelete addr => do
    let table ← s.table.deleteElementByptr addr
    return { s with table, control := .idle }
  | .controlSetReadonly value => do
    let table ← FuseIo.controlSetReadonly s.table value
    return { s with table }
  | .controlSetCloseOnRelease value => do
    let table ← FuseIo.controlSetCloseOnRelease s.table value
    return { s with table }
  | .controlSetAux mountpoint => do
    let table ← FuseIo.controlSetAux s.table mountpoint
    return { s with table }
  | .controlResize resize => do
    let table ← FuseIo.controlResize s.table resize
    return { s with table }

/-- The threads of the daemon. -/
def threads (σ : Type) : StepSystem (System σ) (Action σ) Failure where
  start := {}
  enabled := Enabled
  step

end FuseIo

end Scubed3
