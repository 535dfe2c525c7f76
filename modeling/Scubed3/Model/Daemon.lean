import Scubed3.Model.Cipher
import Scubed3.Model.Control
import Scubed3.Model.Socket

/-! # The daemon and its control commands

The daemon owns the base device and the table of open partitions; the control thread executes one command
after the other. A handler gets the socket, the daemon and the arguments of the command; it answers on the
socket and returns whether the connection is to be closed. Locking, the threads that serve the file system
and debug output are not part of this model.

The partitions share the base device: `dev->b` is stored once, in the daemon, and put into a partition
when a command works on it.
-/

namespace Scubed3

/-- What stays the same while the daemon runs. -/
structure Setup where
  b : Geometry
  accepted : b.Accepted
  gcrypt : Gcrypt
  /-- The mount point of the file system. -/
  mountpoint : List UInt8
  /-- `VERSION`. -/
  version : List UInt8

namespace Setup

abbrev WideCipher (u : Setup) : Type := Cipher (2 ^ u.b.mesoblkLog)

/-- The parameters of a partition with cipher `c`. -/
def params (u : Setup) (c : u.WideCipher) : Params where
  b := u.b
  accepted := u.accepted
  c
  hash := u.gcrypt.sha256

theorem noBlocks_eq (u : Setup) : (1 <<< (u.b.mesoblkLog - 4)) * 16 = 2 ^ u.b.mesoblkLog := by
  have large : 4 ≤ u.b.mesoblkLog := by
    by_contra small
    have : 2 ^ u.b.mesoblkLog ≤ 2 ^ 3 := Nat.pow_le_pow_right (by decide) (by omega)
    have := u.accepted.sound.bitmap
    have := u.accepted.sound.bitmapOffset
    omega
  rw [Nat.one_shiftLeft, show (16 : ℕ) = 2 ^ 4 from rfl, ← pow_add, Nat.sub_add_cancel large]

/-- `cipher_init`, for a mesoblock. -/
def cipherInit (u : Setup) (name key : List UInt8) : Except (List UInt8) u.WideCipher :=
  (Cipher.init u.gcrypt (1 <<< (u.b.mesoblkLog - 4)) name key).map (Cipher.cast u.noBlocks_eq)

end Setup

variable {u : Setup}

instance : LawfulBEq Hash := inferInstance

/-- `fuse_io_entry_t`. An entry that is marked as to be deleted is not in the table any more. -/
structure FuseIoEntry (u : Setup) where
  key : List UInt8
  readonly : Bool := false
  closeOnRelease : Bool := false
  mountpoint : Option (List UInt8) := none
  c : u.WideCipher
  uniqueId : Hash
  io : Entry

/-- The base device, the table of partitions in the order of its buckets, and the table of unique ids. -/
structure Daemon (u : Setup) where
  b : Blockio
  entries : List (FuseIoEntry u) := []
  ids : List Hash := []

/-- What a command finds outside the daemon: how often loops turn, the address that `calloc` returns, and
the value of a variable that is not initialised. -/
structure Env where
  fuel : ℕ
  addr : ℕ
  times : ℤ

/-! ## Tables -/

/-- `hash_sdbm`. -/
def hashSdbm (str : List UInt8) : ℕ :=
  str.foldl (fun hash c => (c.toNat + hash <<< 6 + hash <<< 16 - hash) % 2 ^ 32) 0

/-- `get_bucket`, for a table of 16 buckets with strings as keys. -/
def getBucket (key : List UInt8) : ℕ := hashSdbm key % 16

/-- `hashtbl_add_element`: the new element comes first in its bucket. -/
def addElement {α : Type} (key : α → List UInt8) (elt : α) (table : List α) : List α :=
  table.takeWhile (fun other => getBucket (key other) < getBucket (key elt)) ++
    elt :: table.dropWhile (fun other => getBucket (key other) < getBucket (key elt))

namespace Daemon

/-- `hashtbl_find_element_bykey`. -/
def find (d : Daemon u) (name : List UInt8) : Option (FuseIoEntry u) := d.entries.find? (·.key = name)

/-- Replace the entry with the same key. -/
def put (d : Daemon u) (entry : FuseIoEntry u) : Daemon u :=
  { d with entries := d.entries.map fun other => if other.key = entry.key then entry else other }

end Daemon

/-- The partition of an entry on the base device `b`. -/
def Entry.attach (io : Entry) (b : Blockio) : Entry := { io with l := { io.l with dev := { io.l.dev with b } } }

/-- Store what a command made of the partition of `entry`. -/
def Daemon.putIo (d : Daemon u) (entry : FuseIoEntry u) (io : Entry) : Daemon u :=
  { d with b := io.l.dev.b }.put { entry with io }

namespace Control

/-- `MAX_ARGC`. -/
def maxArgc : ℕ := 10

/-- The result of a handler that has answered and leaves the daemon as `d`. -/
def reply (answer : ℤ × Socket) (d : Daemon u) : Draw Failure (ℤ × Socket × Daemon u) :=
  return (answer.1, answer.2, d)

/-- `parse_int`: the return value and `*r`. It answers itself when it cannot parse `in`. -/
def parseInt (s : Socket) (r : ℤ) (in_ : List UInt8) : (ℤ × Socket) × ℤ :=
  let (value, end_, errno) := strtol in_
  let ret := toInt value
  if errno ∧ (ret = longMin ∨ ret = longMax) then
    (controlWriteComplete s true (ascii "integer out of range\n"), r)
  else if end_ ≠ [] then
    (controlWriteComplete s true (printf (ascii "unable to parse ->%s<-\n") [in_]), r)
  else ((0, s), ret)

def notFound (s : Socket) (name : List UInt8) : ℤ × Socket :=
  controlWriteComplete s true (printf (ascii "partition \"%s\" not found") [name])

def busy (s : Socket) (name : List UInt8) : ℤ × Socket :=
  controlWriteComplete s true (printf (ascii "partition \"%s\" is busy") [name])

/-- The loop of `control_cycle`. -/
def cycleTurns (p : Params) (fuel : ℕ) : (times : ℕ) → Partition → Draw Failure Partition
  | 0, l => return l
  | times + 1, l => do
    let l ← Partition.cycle p fuel l
    cycleTurns p fuel times l

/-- `control_cycle`. -/
def controlCycle (env : Env) (s : Socket) (d : Daemon u) (name count : List UInt8) :
    Draw Failure (ℤ × Socket × Daemon u) :=
  match d.find name with
  | none => reply (notFound s name) d
  | some entry =>
    let ((ret, s), times) := parseInt s env.times count
    if ret ≠ 0 then reply (-1, s) d
    else if times < 0 then reply (controlWriteComplete s true (ascii "integer must be positive")) d
    else do
      let l ← cycleTurns (u.params entry.c) env.fuel times.toNat (entry.io.attach d.b).l
      reply (controlWriteComplete s false (ascii "see debug output")) (d.putIo entry { entry.io with l })

/-- `control_verbose_juggler`. -/
def controlVerboseJuggler (s : Socket) (d : Daemon u) (name : List UInt8) :
    Draw Failure (ℤ × Socket × Daemon u) :=
  match d.find name with
  | none => reply (notFound s name) d
  | some _ => reply (controlWriteComplete s false (ascii "see debug output")) d

/-- `control_check_data_integrity`. -/
def controlCheckDataIntegrity (s : Socket) (d : Daemon u) : Draw Failure (ℤ × Socket × Daemon u) :=
  reply (controlWriteComplete s true (ascii "not implemented")) d

/-- The text of `control_static_info`. -/
def staticInfo (u : Setup) : List UInt8 :=
  printf (ascii "%s\n%d\n%s") [u.mountpoint, printInt32 u.b.totalMacroblocks, u.version]

/-- `control_static_info`. -/
def controlStaticInfo (s : Socket) (d : Daemon u) : Draw Failure (ℤ × Socket × Daemon u) :=
  reply (controlWriteComplete s false (staticInfo u)) d

/-- `control_exit`. -/
def controlExit (s : Socket) (d : Daemon u) : Draw Failure (ℤ × Socket × Daemon u) :=
  reply (-1, (controlWriteSilentSuccess s).2) d

/-- What `control_status` says about a partition. -/
def statusOf (entry : FuseIoEntry u) : List UInt8 :=
  let dev := entry.io.l.dev
  let size := Partition.usableMesoblks (u.params entry.c) dev.noMacroblocks dev.reservedMacroblocks
  let bytes := if dev.noMacroblocks ≥ dev.reservedMacroblocks then size <<< u.b.mesoblkLog else 0
  printf (ascii "%s blocks in %s (%sMiB)%s%s%s%s%s%s")
    [printPadded dev.noMacroblocks, entry.key, printMib bytes,
      ascii (if entry.io.inuse then " [U]" else ""),
      ascii (if entry.closeOnRelease then " [C]" else ""),
      ascii (if entry.readonly then " [R]" else ""),
      ascii (if entry.mountpoint.isSome then " [MNT " else ""),
      entry.mountpoint.getD [],
      ascii (if entry.mountpoint.isSome then "]" else "")]

/-- What `control_status` counts as unclaimed. -/
def macroblocksLeft (d : Daemon u) : ℕ :=
  d.entries.foldl (fun left entry => (left + 2 ^ 32 - entry.io.l.dev.noMacroblocks) % 2 ^ 32)
    u.b.totalMacroblocks

/-- `control_status`. -/
def controlStatus (s : Socket) (d : Daemon u) : Draw Failure (ℤ × Socket × Daemon u) :=
  let lines := d.entries.map statusOf ++
    [printPadded (macroblocksLeft d) ++ ascii " blocks unclaimed",
      printPadded u.b.totalMacroblocks ++ ascii " blocks total"]
  reply (controlWriteParts s false lines) d

/-! ### Opening and creating -/

/-- `check_name`: the name is illegal. -/
def checkName (name : List UInt8) : Bool :=
  name.any fun c => !(97 ≤ c ∧ c ≤ 122) && !(65 ≤ c ∧ c ≤ 90) && !(48 ≤ c ∧ c ≤ 57) && !(c = 95)

/-- What a new entry holds when an exception is thrown; a field is `none` while it is zero. -/
structure Opening (u : Setup) where
  /-- `entry->d`, with the cipher that `entry->d.c` points at. -/
  d : Option (u.WideCipher × BlockioDev) := none
  /-- The unique id that is in the table `entry->ids`. -/
  id : Option Hash := none

/-- `freer`. The functions it calls accept zeroed memory, except `blockio_dev_free`. -/
def freer (d : Daemon u) (opening : Opening u) : Except Failure (Daemon u) :=
  match opening.d with
  | none => throw (.null "dev->b")
  | some (c, dev) => do
    let b ← Blockio.devFree (u.params c) dev
    let ids := match opening.id with
      | some id => d.ids.erase id
      | none => d.ids
    return { d with b, ids }

/-- The steps of `control_open_create_common` that set up the cipher and its unique id. -/
def openCipher (u : Setup) (ids : List Hash) (spec key : List UInt8) :
    Except (List UInt8) (u.WideCipher × Hash) :=
  if key.length % 2 ≠ 0 then ecchThrow (ascii "cipher key not valid base16 (uneven number of chars)")
  else match unbase16 key with
    | none => ecchThrow (ascii "cipher key not valid base16 (invalid chars)")
    | some key => do
      let c ← u.cipherInit spec key
      -- the output of the hash is used to ID ciphermode + key
      let id := u.gcrypt.sha256 (List.ofFn (c.enc (0, 0, 0) fun _ => 0))
      if id ∈ ids then ecchThrow (ascii "cipher(mode)/key combination already in use")
      else return (c, id)

/-- The steps of `control_open_create_common` from the scan of the base device on. -/
def openScan (p : Params) (fuel : ℕ) (b : Blockio) (addr : ℕ) (add : Bool) :
    Draw Failure (Except (List UInt8 × BlockioDev) Entry) := do
  let dev ← Blockio.devInit p b addr
  if add && dev.noMacroblocks != 0 then
    return .error (ascii "unable to create device: it already exists, use `open' instead", dev)
  else if !add && dev.noMacroblocks == 0 then
    return .error (ascii "no blocks found: passphrase wrong?", dev)
  else
    let size := if dev.noMacroblocks > dev.reservedMacroblocks then
        entrySize p dev.noMacroblocks dev.reservedMacroblocks
      else 0
    let (l, _) ← Partition.init p dev
    check (l.dev.bi = none) "!entry->d.bi"
    let dev ← (if size > 0 then Blockio.selectNextMacroblock fuel l.dev else pure l.dev)
    return .ok { size, l := { l with dev } }

/-- The `ecch_try` block of `control_open_create_common`: the new entry, or the message of an exception and
what the entry holds then. -/
def openTry (env : Env) (d : Daemon u) (name spec key : List UInt8) (add : Bool) :
    Draw Failure (Except (List UInt8 × Opening u) (FuseIoEntry u)) :=
  match openCipher u d.ids spec key with
  | .error message => return .error (message, {})
  | .ok (c, id) => do
    match ← openScan (u.params c) env.fuel d.b env.addr add with
    | .error (message, dev) => return .error (message, { d := some (c, dev), id := some id })
    | .ok io => return .ok { key := name, c, uniqueId := id, io }

/-- The `ecch_catch_all` block, and the deletion of the entry. -/
def openCatch (s : Socket) (d : Daemon u) (message : List UInt8) (opening : Opening u) :
    Draw Failure (ℤ × Socket × Daemon u) := do
  let d ← freer { d with ids := opening.id.toList ++ d.ids } opening
  reply (controlWriteComplete s true message) d

/-- `control_open_create_common`. -/
def controlOpenCreateCommon (env : Env) (s : Socket) (d : Daemon u) (name spec key : List UInt8) (add : Bool) :
    Draw Failure (ℤ × Socket × Daemon u) :=
  if checkName name then
    reply (controlWriteComplete s true (ascii
      "illegal name specified for partition, it may only contain letters, digits and the underscore")) d
  else if (d.find name).isSome then
    reply (controlWriteComplete s true (printf (ascii "unable to %s partition \"%s\", duplicate name?")
      [ascii (if add then "create" else "open"), name])) d
  else do
    match ← openTry env d name spec key add with
    | .ok entry =>
      reply (controlWriteSilentSuccess s)
        { b := entry.io.l.dev.b, ids := entry.uniqueId :: d.ids,
          entries := addElement (·.key) entry d.entries }
    | .error (message, opening) => openCatch s d message opening

/-- `control_open`. -/
def controlOpen (env : Env) (s : Socket) (d : Daemon u) (name spec key : List UInt8) :
    Draw Failure (ℤ × Socket × Daemon u) := controlOpenCreateCommon env s d name spec key false

/-- `control_create`. -/
def controlCreate (env : Env) (s : Socket) (d : Daemon u) (name spec key : List UInt8) :
    Draw Failure (ℤ × Socket × Daemon u) := controlOpenCreateCommon env s d name spec key true

/-- `control_check_available`. -/
def controlCheckAvailable (s : Socket) (d : Daemon u) (name : List UInt8) :
    Draw Failure (ℤ × Socket × Daemon u) :=
  if checkName name then
    reply (controlWriteComplete s true (ascii
      "illegal name specified for partition, it may only contain letters, digits and the underscore")) d
  else match d.find name with
    | none => reply (controlWriteSilentSuccess s) d
    | some _ => reply (controlWriteComplete s true (printf (ascii "partition \"%s\" is in use") [name])) d

/-! ### Properties of a partition -/

/-- `control_set_aux`. -/
def controlSetAux (s : Socket) (d : Daemon u) (name key value : List UInt8) :
    Draw Failure (ℤ × Socket × Daemon u) :=
  match d.find name with
  | none => reply (notFound s name) d
  | some entry =>
    if key = ascii "mountpoint" then
      reply (controlWriteSilentSuccess s) (d.put { entry with mountpoint := some value })
    else reply (controlWriteComplete s true (printf (ascii "key \"%s\" is impossible") [key])) d

/-- `control_get_aux`. -/
def controlGetAux (s : Socket) (d : Daemon u) (name key : List UInt8) : Draw Failure (ℤ × Socket × Daemon u) :=
  match d.find name with
  | none => reply (notFound s name) d
  | some entry =>
    -- if key is not mountpoint or mountpoint is NULL, we say key not found
    match if key = ascii "mountpoint" then entry.mountpoint else none with
    | some mountpoint => reply (controlWriteComplete s false (printf (ascii "%s") [mountpoint])) d
    | none => reply (controlWriteComplete s true (printf (ascii "key \"%s\" not found") [key])) d

/-- The boolean that both setters accept. -/
def parseBool (value : List UInt8) : Option Bool :=
  if value = ascii "0" ∨ equalFold value (ascii "false") then some false
  else if value = ascii "1" ∨ equalFold value (ascii "true") then some true
  else none

/-- `control_set_readonly`. -/
def controlSetReadonly (s : Socket) (d : Daemon u) (name value : List UInt8) :
    Draw Failure (ℤ × Socket × Daemon u) :=
  match d.find name with
  | none => reply (notFound s name) d
  | some entry =>
    if entry.io.inuse then reply (busy s name) d
    else match parseBool value with
      | some readonly => reply (controlWriteSilentSuccess s) (d.put { entry with readonly })
      | none => reply (controlWriteComplete s true (ascii "illegal_argument; expected boolean")) d

/-- `control_set_close_on_release`. -/
def controlSetCloseOnRelease (s : Socket) (d : Daemon u) (name value : List UInt8) :
    Draw Failure (ℤ × Socket × Daemon u) :=
  match d.find name with
  | none => reply (notFound s name) d
  | some entry =>
    match parseBool value with
    | some closeOnRelease => reply (controlWriteSilentSuccess s) (d.put { entry with closeOnRelease })
    | none => reply (controlWriteComplete s true (ascii "illegal argument; expected boolean")) d

/-- `control_info`. -/
def controlInfo (s : Socket) (d : Daemon u) (name : List UInt8) : Draw Failure (ℤ × Socket × Daemon u) :=
  match d.find name with
  | none => reply (notFound s name) d
  | some entry =>
    let dev := entry.io.l.dev
    let lines := [ascii "no_macroblocks=" ++ printInt32 dev.noMacroblocks,
        ascii "reserved_macroblocks=" ++ printInt32 dev.reservedMacroblocks,
        ascii "writes=" ++ printInt32 dev.writes] ++
      dev.bi.toList.map (fun bi => ascii "no_indices=" ++ printInt32 (d.b.infos bi).noIndices) ++
      [ascii "updated=" ++ printInt (if dev.updated then 1 else 0)]
    reply (controlWriteParts s false lines) d

/-! ### Closing and resizing -/

/-- `control_close`. -/
def controlClose (s : Socket) (d : Daemon u) (name : List UInt8) : Draw Failure (ℤ × Socket × Daemon u) :=
  match d.find name with
  | none => reply (notFound s name) d
  | some entry =>
    if entry.io.inuse then reply (busy s name) d
    else do
      let d ← freer { d with entries := d.entries.filter (·.key ≠ name) }
        { d := some (entry.c, (entry.io.attach d.b).l.dev), id := some entry.uniqueId }
      reply (controlWriteSilentSuccess s) d

/-- The arguments of the formats that `control_resize` answers with. -/
def resizeArgs (name : List UInt8) (size reserved : ℤ) (total : ℕ) (format : String) : List (List UInt8) :=
  if format = "partition \"%s\" is busy" then [name]
  else if format = "values for new_size=%d and reserved=%d make no sense" then [printInt size, printInt reserved]
  else if format = "not enough blocks available, base device has only %d blocks" then [printInt32 total]
  else []

/-- `control_resize`. -/
def controlResize (env : Env) (s : Socket) (d : Daemon u) (name size reserved : List UInt8) :
    Draw Failure (ℤ × Socket × Daemon u) :=
  match d.find name with
  | none => reply (notFound s name) d
  | some entry =>
    if entry.io.inuse then reply (busy s name) d
    else
      let ((ret, s), size) := parseInt s 0 size
      if ret ≠ 0 then reply (-1, s) d
      else
        let ((ret, s), reserved) := parseInt s 0 reserved
        if ret ≠ 0 then reply (-1, s) d
        else do
          match ← resize (u.params entry.c) env.fuel (entry.io.attach d.b) size reserved with
          | (.ok, io) => reply (controlWriteSilentSuccess s) (d.putIo entry io)
          | (.refused format, _) =>
            let args := resizeArgs name size reserved u.b.totalMacroblocks format
            reply (controlWriteComplete s true (printf (ascii format) args)) d

/-! ## Executing a command -/

/-- The handlers. -/
inductive Command where
  | staticInfo | exit | status | setReadonly | setCloseOnRelease | checkAvailable | cycle | verboseJuggler
  | checkDataIntegrity | openInternal | info | getAux | setAux | createInternal | help | close | resize
deriving DecidableEq, Repr

/-- `control_command_t`. -/
structure ControlCommand where
  key : List UInt8
  command : Command
  argc : ℕ
  usage : List UInt8
deriving DecidableEq

/-- `control_commands`. -/
def controlCommands : List ControlCommand :=
  [⟨ascii "static-info", .staticInfo, 0, ascii ""⟩,
    ⟨ascii "exit", .exit, 0, ascii ""⟩,
    ⟨ascii "p", .status, 0, ascii ""⟩,
    ⟨ascii "set-readonly", .setReadonly, 2, ascii " NAME BOOL"⟩,
    ⟨ascii "set-close-on-release", .setCloseOnRelease, 2, ascii " NAME BOOL"⟩,
    ⟨ascii "check-available", .checkAvailable, 1, ascii " NAME"⟩,
    ⟨ascii "cycle", .cycle, 2, ascii " NAME COUNT"⟩,
    ⟨ascii "verbose-juggler", .verboseJuggler, 1, ascii " NAME"⟩,
    ⟨ascii "check-data-integrity", .checkDataIntegrity, 1, ascii " NAME"⟩,
    ⟨ascii "open-internal", .openInternal, 3, ascii " NAME CIPHER_SPEC KEY"⟩,
    ⟨ascii "info", .info, 1, ascii " NAME"⟩,
    ⟨ascii "get-aux", .getAux, 2, ascii " NAME KEY"⟩,
    ⟨ascii "set-aux", .setAux, 3, ascii " NAME KEY VALUE"⟩,
    ⟨ascii "create-internal", .createInternal, 3, ascii " NAME CIPHER_SPEC KEY"⟩,
    ⟨ascii "help-internal", .help, 0, ascii ""⟩,
    ⟨ascii "close", .close, 1, ascii " NAME"⟩,
    ⟨ascii "resize-internal", .resize, 3, ascii " NAME BLOCKS RESERVED"⟩]

/-- The table of commands. -/
def commandTable : List ControlCommand :=
  controlCommands.foldl (fun table command => addElement (·.key) command table) []

/-- `control_help`. -/
def controlHelp (s : Socket) (d : Daemon u) : Draw Failure (ℤ × Socket × Daemon u) :=
  reply (controlWriteParts s false (commandTable.map fun c => c.key ++ c.usage)) d

/-- Call a handler with its arguments. -/
def runCommand (env : Env) (s : Socket) (d : Daemon u) :
    (command : Command) → (argv : List (List UInt8)) → Draw Failure (ℤ × Socket × Daemon u)
  | .staticInfo, _ => controlStaticInfo s d
  | .exit, _ => controlExit s d
  | .status, _ => controlStatus s d
  | .setReadonly, [name, value] => controlSetReadonly s d name value
  | .setCloseOnRelease, [name, value] => controlSetCloseOnRelease s d name value
  | .checkAvailable, [name] => controlCheckAvailable s d name
  | .cycle, [name, count] => controlCycle env s d name count
  | .verboseJuggler, [name] => controlVerboseJuggler s d name
  | .checkDataIntegrity, _ => controlCheckDataIntegrity s d
  | .openInternal, [name, spec, key] => controlOpen env s d name spec key
  | .info, [name] => controlInfo s d name
  | .getAux, [name, key] => controlGetAux s d name key
  | .setAux, [name, key, value] => controlSetAux s d name key value
  | .createInternal, [name, spec, key] => controlCreate env s d name spec key
  | .help, _ => controlHelp s d
  | .close, [name] => controlClose s d name
  | .resize, [name, size, reserved] => controlResize env s d name size reserved
  | _, _ => .raise (.outOfBounds "argv")

/-- The loop of `control_call` that cuts a command into its arguments; `none` if there are more than `room`. -/
def splitArgs : (room : ℕ) → (command : List UInt8) → Option (List (List UInt8))
  | 0, _ => none
  | room + 1, command =>
    let command := command.dropWhile (· = 32)
    let arg := command.takeWhile (· ≠ 32)
    let rest := (command.dropWhile (· ≠ 32)).dropWhile (· = 32)
    if rest = [] then some [arg] else (splitArgs room rest).map (arg :: ·)

/-- `control_call`. -/
def controlCall (env : Env) (s : Socket) (d : Daemon u) (command : List UInt8) :
    Draw Failure (ℤ × Socket × Daemon u) :=
  match splitArgs maxArgc (command.takeWhile (· ≠ 0)) with
  | none => reply (controlWriteComplete s true (ascii "too many arguments")) d
  | some argv =>
    let name := argv.headD []
    if argv.length = 1 ∧ name = [] then reply (controlWriteSilentSuccess s) d
    else match commandTable.find? (·.key = name) with
      | none => reply (controlWriteComplete s true (printf (ascii "unknown command \"%s\"") [name])) d
      | some cmnd =>
        if argv.length - 1 ≠ cmnd.argc then
          reply (controlWriteComplete s true (printf (ascii "usage: %s%s") [name, cmnd.usage])) d
        else runCommand env s d cmnd.command argv.tail

end Control

/-! ## The smallest daemons -/

/-- A library that knows no block cipher. -/
def Setup.smallest (total : ℕ) (few : total ≤ 1984) : Setup where
  b := Geometry.smallest total
  accepted := Geometry.smallest_accepted few
  gcrypt := {
    mapName := fun _ => 0
    blockLen := fun _ => 0
    keyLen := fun _ => 0
    setkey := fun _ _ => .error []
    sha256 := fun _ _ => 0 }
  mountpoint := ascii "/"
  version := ascii "0"

/-- A base device of zeroes, and no partition. -/
def Daemon.empty (total : ℕ) (few : total ≤ 1984) : Daemon (Setup.smallest total few) where
  b := Blockio.initInfos (Params.smallest total few) (fun _ => 0) []

/-- One partition without macroblocks, as it is after `create`. -/
def Daemon.unsized : Daemon (Setup.smallest 1 (by decide)) where
  b := (Daemon.empty 1 (by decide)).b
  entries := [{
    key := ascii "a"
    c := Cipher.complement _
    uniqueId := fun _ => 0
    io := {
      size := 0
      l := {
        dev := {
          b := (Daemon.empty 1 (by decide)).b
          self := 0
          status := Bitmap.init (Geometry.smallest 1).maxMacroblocks } } } }]
  ids := [fun _ => 0]

end Scubed3
