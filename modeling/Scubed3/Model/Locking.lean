import Scubed3.Model.FileSystem
import Scubed3.ToMathlib.Holding
import Mathlib

/-! # The handlers and the mutexes of the entries

A command and a call of the file system find their partition in the table, which hands it over with its data mutex
locked; they unlock it themselves. Here the handlers of the daemon are written down with every lock and unlock of
the data mutex of an element. There is one thread, what it does to the daemon is as before. The mutexes that the hash
table uses for itself are not part of this model.
-/

namespace Scubed3

/-- The elements of the tables: the partitions, their unique ids, and the commands. -/
inductive Element where
  | entry (name : List UInt8)
  | id (id : Hash)
  | command (key : List UInt8)
deriving DecidableEq

/-- The daemon, the names of the entries that are marked as to be deleted, and the data mutexes of the thread. -/
structure Locked (u : Setup) where
  daemon : Daemon u
  toBeDeleted : List (List UInt8) := []
  mutexes : Holding Element := {}

namespace Locking

open Control Scubed3.Partition

variable {u : Setup}

/-! ## Tables -/

/-- `pthd_mutex_lock`, for the data mutex of an element. -/
def pthdMutexLock (w : Locked u) (elt : Element) : Except Failure (Locked u) :=
  match w.mutexes.lock elt with
  | some mutexes => return { w with mutexes }
  | none => throw (.fatal "trying to doubly lock an own mutex")

/-- `hashtbl_unlock_element_byptr`. Only an error-checking mutex notices that another thread holds it. -/
def hashtblUnlockElementByptr (w : Locked u) (elt : Element) : Locked u := { w with mutexes := w.mutexes.unlock elt }

/-- `hashtbl_find_element_bykey`, for a partition. -/
def hashtblFindElementBykey (w : Locked u) (name : List UInt8) :
    Except Failure (Option (FuseIoEntry u) × Locked u) :=
  match w.daemon.find name with
  | none => return (none, w)
  | some entry => do
    let w ← pthdMutexLock w (.entry name)
    return (some entry, w)

/-- `hashtbl_allocate_and_add_element`, for a partition. It gets its place in the table when it is complete, nobody
can use it until then. -/
def hashtblAllocateAndAddElement (w : Locked u) (name : List UInt8) : Except Failure (Bool × Locked u) := do
  let w' ← pthdMutexLock w (.entry name)
  -- `unique_key` unlocks the element that has this key
  if (w.daemon.find name).isSome then return (false, hashtblUnlockElementByptr w' (.entry name))
  else return (true, w')

/-- `hashtbl_add_element`, for a unique id. -/
def hashtblAddElement (w : Locked u) (id : Hash) : Except Failure (Bool × Locked u) := do
  let w' ← pthdMutexLock w (.id id)
  if id ∈ w.daemon.ids then return (false, hashtblUnlockElementByptr w' (.id id))
  else return (true, { w' with daemon := { w'.daemon with ids := id :: w'.daemon.ids } })

/-- `freer`. The unique id is deleted at the end. -/
def freer (w : Locked u) (opening : Opening u) : Except Failure (Locked u) := do
  let daemon ← Control.freer w.daemon opening
  let w := { w with daemon }
  match opening.id with
  | some id => do
    let w ← pthdMutexLock w (.id id)
    return hashtblUnlockElementByptr w (.id id)
  | none => return w

/-- `hashtbl_delete_element_byptr`, for a partition that holds `opening`. -/
def hashtblDeleteElementByptr (w : Locked u) (name : List UInt8) (opening : Opening u) :
    Except Failure (Locked u) := do
  let w ← pthdMutexLock w (.entry name)
  let w := hashtblUnlockElementByptr w (.entry name)
  freer { w with
    daemon := { w.daemon with entries := w.daemon.entries.filter (·.key ≠ name) }
    toBeDeleted := w.toBeDeleted.filter (· ≠ name) } opening

section Traverse

variable {α σ : Type} (ts : Bool) (element : α → Element) (rep : σ → α → ℤ × σ)

/-- The element that `hashtbl_first_element` and `hashtbl_next_element_byptr` find: `elts` are still to come. -/
def lockNext (elts : List α) (w : Locked u) : Except Failure (Locked u) :=
  match elts with
  | [] => return w
  | elt :: _ => if ts then pthdMutexLock w (element elt) else return w

/-- The loop of `hashtbl_ts_traverse`. -/
def traverseLoop : (elts : List α) → (arg : σ) → Locked u → Except Failure (ℤ × σ × Locked u)
  | [], arg, w => return (0, arg, w)
  | elt :: elts, arg, w =>
    let (ret, arg) := rep arg elt
    if ret = -1 then return (-1, arg, hashtblUnlockElementByptr w (element elt))
    else do
      let w := if ts then hashtblUnlockElementByptr w (element elt) else w
      let w ← lockNext ts element elts w
      traverseLoop elts arg w

/-- `hashtbl_ts_traverse`, for a table that is thread-safe or not. -/
def hashtblTsTraverse (elts : List α) (arg : σ) (w : Locked u) : Except Failure (ℤ × σ × Locked u) := do
  let w ← lockNext ts element elts w
  traverseLoop ts element rep elts arg w

end Traverse

/-! ## Commands -/

/-- The result of a handler. -/
def reply (answer : ℤ × Socket) (w : Locked u) : Draw Failure (ℤ × Socket × Locked u) :=
  return (answer.1, answer.2, w)

/-- `control_cycle`. -/
def controlCycle (env : Env) (s : Socket) (w : Locked u) (name count : List UInt8) :
    Draw Failure (ℤ × Socket × Locked u) := do
  match ← hashtblFindElementBykey w name with
  | (none, w) => reply (notFound s name) w
  | (some entry, w) =>
    let ((ret, s), times) := parseInt s env.times count
    if ret ≠ 0 then reply (-1, s) (hashtblUnlockElementByptr w (.entry name))
    else if times < 0 then
      reply (controlWriteComplete s true (ascii "integer must be positive")) (hashtblUnlockElementByptr w (.entry name))
    else do
      let l ← cycleTurns (u.params entry.c) env.fuel times.toNat (entry.io.attach w.daemon.b).l
      let w := { w with daemon := w.daemon.putIo entry { entry.io with l } }
      reply (controlWriteComplete s false (ascii "see debug output")) (hashtblUnlockElementByptr w (.entry name))

/-- `control_verbose_juggler`. -/
def controlVerboseJuggler (s : Socket) (w : Locked u) (name : List UInt8) : Draw Failure (ℤ × Socket × Locked u) := do
  match ← hashtblFindElementBykey w name with
  | (none, w) => reply (notFound s name) w
  | (some _, w) =>
    let w := hashtblUnlockElementByptr w (.entry name)
    reply (controlWriteComplete s false (ascii "see debug output")) w

/-- `control_check_data_integrity`. -/
def controlCheckDataIntegrity (s : Socket) (w : Locked u) : Draw Failure (ℤ × Socket × Locked u) :=
  reply (controlWriteComplete s true (ascii "not implemented")) w

/-- `control_static_info`. -/
def controlStaticInfo (s : Socket) (w : Locked u) : Draw Failure (ℤ × Socket × Locked u) :=
  reply (controlWriteComplete s false (staticInfo u)) w

/-- `control_exit`. -/
def controlExit (s : Socket) (w : Locked u) : Draw Failure (ℤ × Socket × Locked u) :=
  reply (-1, (controlWriteSilentSuccess s).2) w

/-- `control_help`. The table of commands is not thread-safe. -/
def controlHelp (s : Socket) (w : Locked u) : Draw Failure (ℤ × Socket × Locked u) :=
  let (ret, s) := controlWriteStatus s false
  if ret ≠ 0 then reply (-1, s) w
  else do
    let rep (s : Socket) (c : ControlCommand) := controlWriteLine s (c.key ++ c.usage ++ [newline])
    let (ret, s, w) ← hashtblTsTraverse false (fun c : ControlCommand => .command c.key) rep commandTable s w
    if ret ≠ 0 then reply (-1, s) w else reply (controlWriteTerminate s) w

/-- `control_status`. -/
def controlStatus (s : Socket) (w : Locked u) : Draw Failure (ℤ × Socket × Locked u) :=
  let (ret, s) := controlWriteStatus s false
  if ret ≠ 0 then reply (-1, s) w
  else do
    let rep (s : Socket) (entry : FuseIoEntry u) := controlWriteLine s (statusOf entry ++ [newline])
    let (ret, s, w) ← hashtblTsTraverse true (fun entry : FuseIoEntry u => .entry entry.key) rep w.daemon.entries s w
    if ret ≠ 0 then reply (-1, s) w
    else
      let answer :=
        orFail (controlWriteLine s (printPadded (macroblocksLeft w.daemon) ++ ascii " blocks unclaimed" ++ [newline])) fun s =>
        orFail (controlWriteLine s (printPadded u.b.totalMacroblocks ++ ascii " blocks total" ++ [newline])) fun s =>
        controlWriteTerminate s
      reply answer w

/-! ### Opening and creating -/

/-- The steps of `control_open_create_common` that set up the cipher and hash the key. -/
def openKey (u : Setup) (spec key : List UInt8) : Except (List UInt8) (u.WideCipher × Hash) :=
  if key.length % 2 ≠ 0 then ecchThrow (ascii "cipher key not valid base16 (uneven number of chars)")
  else match unbase16 key with
    | none => ecchThrow (ascii "cipher key not valid base16 (invalid chars)")
    | some key => do
      let c ← u.cipherInit spec key
      return (c, u.gcrypt.sha256 (List.ofFn (c.enc (0, 0, 0) fun _ => 0)))

/-- The `ecch_try` block of `control_open_create_common`. -/
def openTry (env : Env) (w : Locked u) (name spec key : List UInt8) (add : Bool) :
    Draw Failure (Except (List UInt8 × Opening u) (FuseIoEntry u) × Locked u) :=
  match openKey u spec key with
  | .error message => return (.error (message, {}), w)
  | .ok (c, id) => do
    let (added, w) ← hashtblAddElement w id
    if !added then return (.error (ascii "cipher(mode)/key combination already in use", {}), w)
    else
      let w := hashtblUnlockElementByptr w (.id id)
      match ← openScan (u.params c) env.fuel w.daemon.b env.addr add with
      | .error (message, dev) => return (.error (message, { d := some (c, dev), id := some id }), w)
      | .ok io => return (.ok { key := name, c, uniqueId := id, io }, w)

/-- `control_open_create_common`. -/
def controlOpenCreateCommon (env : Env) (s : Socket) (w : Locked u) (name spec key : List UInt8) (add : Bool) :
    Draw Failure (ℤ × Socket × Locked u) :=
  if checkName name then
    reply (controlWriteComplete s true (ascii
      "illegal name specified for partition, it may only contain letters, digits and the underscore")) w
  else do
    let (added, w) ← hashtblAllocateAndAddElement w name
    if !added then
      reply (controlWriteComplete s true (printf (ascii "unable to %s partition \"%s\", duplicate name?")
        [ascii (if add then "create" else "open"), name])) w
    else
      match ← openTry env w name spec key add with
      | (.ok entry, w) =>
        let w := { w with
          daemon := { w.daemon with b := entry.io.l.dev.b, entries := addElement (·.key) entry w.daemon.entries } }
        reply (controlWriteSilentSuccess s) (hashtblUnlockElementByptr w (.entry name))
      | (.error (message, opening), w) => do
        let w := { w with toBeDeleted := name :: w.toBeDeleted }
        let w ← hashtblDeleteElementByptr (hashtblUnlockElementByptr w (.entry name)) name opening
        reply (controlWriteComplete s true message) w

/-- `control_open`. -/
def controlOpen (env : Env) (s : Socket) (w : Locked u) (name spec key : List UInt8) :
    Draw Failure (ℤ × Socket × Locked u) := controlOpenCreateCommon env s w name spec key false

/-- `control_create`. -/
def controlCreate (env : Env) (s : Socket) (w : Locked u) (name spec key : List UInt8) :
    Draw Failure (ℤ × Socket × Locked u) := controlOpenCreateCommon env s w name spec key true

/-- `control_check_available`. -/
def controlCheckAvailable (s : Socket) (w : Locked u) (name : List UInt8) : Draw Failure (ℤ × Socket × Locked u) :=
  if checkName name then
    reply (controlWriteComplete s true (ascii
      "illegal name specified for partition, it may only contain letters, digits and the underscore")) w
  else do
    match ← hashtblFindElementBykey w name with
    | (none, w) => reply (controlWriteSilentSuccess s) w
    | (some _, w) =>
      let w := hashtblUnlockElementByptr w (.entry name)
      reply (controlWriteComplete s true (printf (ascii "partition \"%s\" is in use") [name])) w

/-! ### Properties of a partition -/

/-- `control_set_aux`. -/
def controlSetAux (s : Socket) (w : Locked u) (name key value : List UInt8) : Draw Failure (ℤ × Socket × Locked u) := do
  match ← hashtblFindElementBykey w name with
  | (none, w) => reply (notFound s name) w
  | (some entry, w) =>
    if key = ascii "mountpoint" then
      let w := { w with daemon := w.daemon.put { entry with mountpoint := some value } }
      reply (controlWriteSilentSuccess s) (hashtblUnlockElementByptr w (.entry name))
    else
      reply (controlWriteComplete s true (printf (ascii "key \"%s\" is impossible") [key]))
        (hashtblUnlockElementByptr w (.entry name))

/-- `control_get_aux`. -/
def controlGetAux (s : Socket) (w : Locked u) (name key : List UInt8) : Draw Failure (ℤ × Socket × Locked u) := do
  match ← hashtblFindElementBykey w name with
  | (none, w) => reply (notFound s name) w
  | (some entry, w) =>
    let answer := match if key = ascii "mountpoint" then entry.mountpoint else none with
      | some mountpoint => controlWriteComplete s false (printf (ascii "%s") [mountpoint])
      | none => controlWriteComplete s true (printf (ascii "key \"%s\" not found") [key])
    reply answer (hashtblUnlockElementByptr w (.entry name))

/-- `control_set_readonly`. -/
def controlSetReadonly (s : Socket) (w : Locked u) (name value : List UInt8) : Draw Failure (ℤ × Socket × Locked u) := do
  match ← hashtblFindElementBykey w name with
  | (none, w) => reply (notFound s name) w
  | (some entry, w) =>
    if entry.io.inuse then reply (busy s name) (hashtblUnlockElementByptr w (.entry name))
    else match parseBool value with
      | some readonly =>
        let w := { w with daemon := w.daemon.put { entry with readonly } }
        reply (controlWriteSilentSuccess s) (hashtblUnlockElementByptr w (.entry name))
      | none =>
        reply (controlWriteComplete s true (ascii "illegal_argument; expected boolean"))
          (hashtblUnlockElementByptr w (.entry name))

/-- `control_set_close_on_release`. -/
def controlSetCloseOnRelease (s : Socket) (w : Locked u) (name value : List UInt8) :
    Draw Failure (ℤ × Socket × Locked u) := do
  match ← hashtblFindElementBykey w name with
  | (none, w) => reply (notFound s name) w
  | (some entry, w) =>
    match parseBool value with
    | some closeOnRelease =>
      let w := { w with daemon := w.daemon.put { entry with closeOnRelease } }
      reply (controlWriteSilentSuccess s) (hashtblUnlockElementByptr w (.entry name))
    | none =>
      let w := hashtblUnlockElementByptr w (.entry name)
      reply (controlWriteComplete s true (ascii "illegal argument; expected boolean")) w

/-- What `control_info` says about a partition. -/
def infoOf (d : Daemon u) (entry : FuseIoEntry u) : List (List UInt8) :=
  let dev := entry.io.l.dev
  [ascii "no_macroblocks=" ++ printInt32 dev.noMacroblocks,
    ascii "reserved_macroblocks=" ++ printInt32 dev.reservedMacroblocks,
    ascii "writes=" ++ printInt32 dev.writes] ++
    dev.bi.toList.map (fun bi => ascii "no_indices=" ++ printInt32 (d.b.infos bi).noIndices) ++
    [ascii "updated=" ++ printInt (if dev.updated then 1 else 0)]

/-- `control_info`. -/
def controlInfo (s : Socket) (w : Locked u) (name : List UInt8) : Draw Failure (ℤ × Socket × Locked u) := do
  match ← hashtblFindElementBykey w name with
  | (none, w) => reply (notFound s name) w
  | (some entry, w) =>
    reply (controlWriteParts s false (infoOf w.daemon entry)) (hashtblUnlockElementByptr w (.entry name))

/-! ### Closing and resizing -/

/-- What an entry holds that is in the table. -/
def openingOf (d : Daemon u) (entry : FuseIoEntry u) : Opening u :=
  { d := some (entry.c, (entry.io.attach d.b).l.dev), id := some entry.uniqueId }

/-- `control_close`. -/
def controlClose (s : Socket) (w : Locked u) (name : List UInt8) : Draw Failure (ℤ × Socket × Locked u) := do
  match ← hashtblFindElementBykey w name with
  | (none, w) => reply (notFound s name) w
  | (some entry, w) =>
    if entry.io.inuse then
      let w := hashtblUnlockElementByptr w (.entry name)
      reply (busy s name) w
    else
      let w := hashtblUnlockElementByptr { w with toBeDeleted := name :: w.toBeDeleted } (.entry name)
      -- we assume that entry still exists, is that a good assumption !?!?!
      let w ← hashtblDeleteElementByptr w name (openingOf w.daemon entry)
      reply (controlWriteSilentSuccess s) w

/-- `control_resize`. -/
def controlResize (env : Env) (s : Socket) (w : Locked u) (name size reserved : List UInt8) :
    Draw Failure (ℤ × Socket × Locked u) := do
  match ← hashtblFindElementBykey w name with
  | (none, w) => reply (notFound s name) w
  | (some entry, w) =>
    if entry.io.inuse then
      let w := hashtblUnlockElementByptr w (.entry name)
      reply (busy s name) w
    else
      let ((ret, s), size) := parseInt s 0 size
      -- the entry stays locked
      if ret ≠ 0 then reply (-1, s) w
      else
        let ((ret, s), reserved) := parseInt s 0 reserved
        if ret ≠ 0 then reply (-1, s) w
        else
          match ← resize (u.params entry.c) env.fuel (entry.io.attach w.daemon.b) size reserved with
          | (.ok, io) =>
            let w := { w with daemon := w.daemon.putIo entry io }
            reply (controlWriteSilentSuccess s) (hashtblUnlockElementByptr w (.entry name))
          | (.refused format, _) =>
            let args := resizeArgs name size reserved u.b.totalMacroblocks format
            let w := hashtblUnlockElementByptr w (.entry name)
            reply (controlWriteComplete s true (printf (ascii format) args)) w

/-! ### Executing a command -/

/-- Call a handler with its arguments. -/
def runCommand (env : Env) (s : Socket) (w : Locked u) :
    (command : Command) → (argv : List (List UInt8)) → Draw Failure (ℤ × Socket × Locked u)
  | .staticInfo, _ => controlStaticInfo s w
  | .exit, _ => controlExit s w
  | .status, _ => controlStatus s w
  | .setReadonly, [name, value] => controlSetReadonly s w name value
  | .setCloseOnRelease, [name, value] => controlSetCloseOnRelease s w name value
  | .checkAvailable, [name] => controlCheckAvailable s w name
  | .cycle, [name, count] => controlCycle env s w name count
  | .verboseJuggler, [name] => controlVerboseJuggler s w name
  | .checkDataIntegrity, _ => controlCheckDataIntegrity s w
  | .openInternal, [name, spec, key] => controlOpen env s w name spec key
  | .info, [name] => controlInfo s w name
  | .getAux, [name, key] => controlGetAux s w name key
  | .setAux, [name, key, value] => controlSetAux s w name key value
  | .createInternal, [name, spec, key] => controlCreate env s w name spec key
  | .help, _ => controlHelp s w
  | .close, [name] => controlClose s w name
  | .resize, [name, size, reserved] => controlResize env s w name size reserved
  | _, _ => .raise (.outOfBounds "argv")

/-- `control_call`. The table of commands is not thread-safe, the command it finds is not locked. -/
def controlCall (env : Env) (s : Socket) (w : Locked u) (command : List UInt8) :
    Draw Failure (ℤ × Socket × Locked u) :=
  match splitArgs maxArgc (command.takeWhile (· ≠ 0)) with
  | none => reply (controlWriteComplete s true (ascii "too many arguments")) w
  | some argv =>
    let name := argv.headD []
    if argv.length = 1 ∧ name = [] then reply (controlWriteSilentSuccess s) w
    else match commandTable.find? (·.key = name) with
      | none => reply (controlWriteComplete s true (printf (ascii "unknown command \"%s\"") [name])) w
      | some cmnd =>
        if argv.length - 1 ≠ cmnd.argc then
          reply (controlWriteComplete s true (printf (ascii "usage: %s%s") [name, cmnd.usage])) w
        else runCommand env s w cmnd.command argv.tail

/-! ## Calls of the file system -/

def ebusy : ℤ := 16
def eacces : ℤ := 13

/-- `fuse_io_getattr`. -/
def fuseIoGetattr (w : Locked u) (path : List UInt8) : Except Failure (ℤ × Stat × Locked u) := do
  check (path.head? = some 47) "path && *path == '/'"
  if path = ascii "/" then return (0, { mode := sIfdir ||| 0o755, nlink := 2 }, w)
  match ← hashtblFindElementBykey w path.tail with
  | (none, w) => return (-enoent, {}, w)
  | (some entry, w) => return (0, entry.io.stat entry.readonly, hashtblUnlockElementByptr w (.entry path.tail))

/-- `fuse_io_readdir`: the return value and the names that were passed to `filler`. -/
def fuseIoReaddir (w : Locked u) (path : List UInt8) : Except Failure (ℤ × List (List UInt8) × Locked u) := do
  if path ≠ ascii "/" then return (-enoent, [], w)
  let rep (names : List (List UInt8)) (entry : FuseIoEntry u) : ℤ × List (List UInt8) := (0, names ++ [entry.key])
  let (_, names, w) ← hashtblTsTraverse true (fun entry : FuseIoEntry u => .entry entry.key) rep w.daemon.entries
    [ascii ".", ascii ".."] w
  return (0, names, w)

/-- `fuse_io_open`; `write` says that the access mode is not `O_RDONLY`. -/
def fuseIoOpen (w : Locked u) (path : List UInt8) (write : Bool) : Except Failure (ℤ × Locked u) := do
  match ← hashtblFindElementBykey w path.tail with
  | (none, w) => return (-enoent, w)
  | (some entry, w) =>
    if entry.io.inuse ∨ path.tail ∈ w.toBeDeleted then return (-ebusy, hashtblUnlockElementByptr w (.entry path.tail))
    -- enforce readonly
    else if entry.readonly ∧ write then return (-eacces, hashtblUnlockElementByptr w (.entry path.tail))
    else
      let w := { w with daemon := w.daemon.put { entry with io := { entry.io with inuse := true } } }
      return (0, hashtblUnlockElementByptr w (.entry path.tail))

/-- `fuse_io_release`. The file was opened once. -/
def fuseIoRelease (w : Locked u) (path : List UInt8) : Except Failure (ℤ × Locked u) := do
  match ← hashtblFindElementBykey w path.tail with
  | (none, w) => return (-enoent, w)
  | (some entry, w) =>
    check entry.io.inuse "entry->inuse"
    let entry := { entry with mountpoint := none, io := { entry.io with inuse := false } }
    let w := { w with daemon := w.daemon.put entry }
    if entry.closeOnRelease then
      let w := hashtblUnlockElementByptr { w with toBeDeleted := path.tail :: w.toBeDeleted } (.entry path.tail)
      let w ← hashtblDeleteElementByptr w path.tail (openingOf w.daemon entry)
      return (0, w)
    else return (0, hashtblUnlockElementByptr w (.entry path.tail))

/-- `fuse_io_read`: the return value and the buffer afterwards. -/
def fuseIoRead (w : Locked u) (path : List UInt8) (buf : Bytes) (size offset : ℕ) :
    Draw Failure (ℤ × Bytes × Locked u) := do
  match ← hashtblFindElementBykey w path.tail with
  | (none, w) => return (-enoent, buf, w)
  | (some entry, w) =>
    let buf ← reqRead (u.params entry.c) (entry.io.attach w.daemon.b).l offset size buf
    return (toInt size, buf, hashtblUnlockElementByptr w (.entry path.tail))

/-- `fuse_io_write`. -/
def fuseIoWrite (fuel : ℕ) (w : Locked u) (path : List UInt8) (buf : Bytes) (size offset : ℕ) :
    Draw Failure (ℤ × Locked u) := do
  match ← hashtblFindElementBykey w path.tail with
  | (none, w) => return (-enoent, w)
  | (some entry, w) =>
    check (entry.readonly = false) "!entry->readonly"
    let l ← reqWrite (u.params entry.c) fuel (entry.io.attach w.daemon.b).l offset size buf
    let w := { w with daemon := w.daemon.putIo entry { entry.io with l } }
    return (toInt size, hashtblUnlockElementByptr w (.entry path.tail))

end Locking

end Scubed3
