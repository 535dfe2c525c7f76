import Mathlib.Logic.Function.Basic
import Scubed3.Model.Text
import Scubed3.ToMathlib.Except
import Scubed3.ToMathlib.Memory

/-! # Strings that are worked on in place

The server and its client cut a command into its arguments where it stands, the server decodes the key
into the buffer it is reading, and the client writes the digits of the key one pair after the other. Every
access is checked against the bounds of the array it goes to. A string of length `len` occupies the bytes 0
to `len` of a memory.
-/

namespace Scubed3

namespace CommandLine

/-- `MAX_ARGC`, of the server and of the client. -/
def maxArgc : ℕ := 10

inductive Fault where
  /-- An access beyond the end of a string. -/
  | string
  /-- An access beyond the end of `argv`. -/
  | argv
  /-- An access beyond the end of `hash_text`. -/
  | hashText
  /-- A character of the input is read where output has been written. -/
  | overwritten
  /-- The loop turns more often than its model. -/
  | starved
deriving DecidableEq, Repr

/-- The variables of both loops; `argv i` is the offset in `string` that `argv[i]` points at. -/
structure Tokens where
  string : ℕ → UInt8
  argv : ℕ → ℕ
  argc : ℕ

/-- The loops begin with the whole string as first argument. -/
def Tokens.start (string : ℕ → UInt8) : Tokens := { string, argv := fun _ => 0, argc := 0 }

/-- The string at an offset. -/
def cString (len : ℕ) (string : ℕ → UInt8) (off : ℕ) : List UInt8 :=
  (Memory.readList string off (len - off)).takeWhile (· ≠ 0)

/-- The arguments. -/
def Tokens.args (len : ℕ) (t : Tokens) : List (List UInt8) :=
  (List.range t.argc).map fun i => cString len t.string (t.argv i)

/-- `argv[i]` is an element of the array. -/
def slot (i : ℕ) : Except Fault Unit := if i ≤ maxArgc then .ok () else .error .argv

/-- `*ptr`. -/
def load (len : ℕ) (string : ℕ → UInt8) (ptr : ℕ) : Except Fault UInt8 :=
  if ptr ≤ len then .ok (string ptr) else .error .string

/-- `while (*ptr == ' ') ptr++`; `room` bytes of the string are left at `ptr`. -/
def skipSpaces (string : ℕ → UInt8) : (room ptr : ℕ) → Except Fault ℕ
  | 0, _ => throw .string
  | room + 1, ptr => if string ptr = 32 then skipSpaces string room (ptr + 1) else return ptr

/-- `while (*ptr != '\0' && *ptr != ' ') ptr++`. -/
def skipWord (string : ℕ → UInt8) : (room ptr : ℕ) → Except Fault ℕ
  | 0, _ => throw .string
  | room + 1, ptr => if string ptr ≠ 0 ∧ string ptr ≠ 32 then skipWord string room (ptr + 1) else return ptr

/-- `while (*ptr == ' ') *ptr++ = '\0'`. -/
def cutSpaces : (room : ℕ) → (string : ℕ → UInt8) → (ptr : ℕ) → Except Fault ((ℕ → UInt8) × ℕ)
  | 0, _, _ => throw .string
  | room + 1, string, ptr =>
    if string ptr = 32 then cutSpaces room (Function.update string ptr 0) (ptr + 1) else return (string, ptr)

/-- The loop of `control_call`; `none` if there are too many arguments. -/
def controlCallLoop (len : ℕ) : (turns : ℕ) → (t : Tokens) → Except Fault (Option Tokens)
  | 0, _ => throw .starved
  | turns + 1, t => do
    slot t.argc
    let ptr ← skipSpaces t.string (len + 1 - t.argv t.argc) (t.argv t.argc)
    let argv := Function.update t.argv t.argc ptr
    let argc := t.argc + 1
    if argc > maxArgc then return none
    else do
      slot argc
      let argv := Function.update argv argc (argv (argc - 1))
      let ptr ← skipWord t.string (len + 1 - argv argc) (argv argc)
      let (string, ptr) ← cutSpaces (len + 1 - ptr) t.string ptr
      let argv := Function.update argv argc ptr
      if (← load len string ptr) ≠ 0 then controlCallLoop len turns { string, argv, argc }
      else return some { string, argv, argc }

/-- What `control_call` does before it looks for the command. -/
inductive Called where
  | tooMany
  | silent
  | command (argv : List (List UInt8))
deriving DecidableEq, Repr

/-- `control_call`, until it looks for the command. -/
def controlCall (len : ℕ) (string : ℕ → UInt8) : Except Fault Called := do
  match ← controlCallLoop len (maxArgc + 1) (.start string) with
  | none => return .tooMany
  | some t =>
    slot t.argc
    if t.argc = 1 ∧ (← load len t.string (t.argv 0)) = 0 then return .silent
    else return .command (t.args len)

/-- The loop of `do_local_command`. -/
def doLocalCommandLoop (len : ℕ) : (turns : ℕ) → (t : Tokens) → Except Fault (Option Tokens)
  | 0, _ => throw .starved
  | turns + 1, t => do
    slot t.argc
    if (← load len t.string (t.argv t.argc)) = 0 then return some t
    else do
      let ptr ← skipSpaces t.string (len + 1 - t.argv t.argc) (t.argv t.argc)
      let argv := Function.update t.argv t.argc ptr
      let argc := t.argc + 1
      -- too many arguments, discarding command
      if argc > maxArgc then return none
      else do
        slot argc
        let argv := Function.update argv argc (argv (argc - 1))
        let ptr ← skipWord t.string (len + 1 - argv argc) (argv argc)
        let argv := Function.update argv argc ptr
        -- last arg empty
        if argv argc = argv (argc - 1) then return some { string := t.string, argv, argc := argc - 1 }
        else if (← load len t.string ptr) = 32 then
          doLocalCommandLoop len turns
            { string := Function.update t.string ptr 0, argv := Function.update argv argc (ptr + 1), argc }
        else doLocalCommandLoop len turns { string := t.string, argv, argc }

/-- `do_local_command`: the arguments of the command, `none` if it is discarded. -/
def doLocalCommand (len : ℕ) (string : ℕ → UInt8) : Except Fault (Option (List (List UInt8))) := do
  match ← doLocalCommandLoop len (maxArgc + 1) (.start string) with
  | none => return none
  | some t =>
    if (← load len t.string (t.argv 0)) = 0 ∧ t.argc > 0 then
      return some ({ t with argc := t.argc - 1 }.args len)
    else return some (t.args len)

/-! ## Base 16 -/

/-- An element of the buffer with the key: a character that was received, or a byte that was decoded. -/
inductive Cell where
  | input (c : UInt8)
  | output (c : UInt8)
deriving DecidableEq, Repr

def Cell.byte : Cell → UInt8
  | .input c => c
  | .output c => c

/-- The value of a `char`, which is signed. -/
def char (c : UInt8) : ℤ := Int.bmod c.toNat 256

/-- Conversion to `char`. -/
def toChar (value : ℤ) : UInt8 := UInt8.ofNat (value % 256).toNat

/-- The comparisons with the three ranges of digits. -/
def digit (c : ℤ) : Option ℤ :=
  if c ≥ 48 ∧ c ≤ 57 then some (c - 48)
  else if c ≥ 65 ∧ c ≤ 70 then some (c - 65 + 10)
  else if c ≥ 97 ∧ c ≤ 102 then some (c - 97 + 10)
  else none

/-- Read a character of the input. -/
def received (len : ℕ) (buf : ℕ → Cell) (i : ℕ) : Except Fault ℤ :=
  if i < len then
    match buf i with
    | .input c => .ok (char c)
    | .output _ => .error .overwritten
  else .error .string

/-- Write a byte of the output. -/
def decoded (len : ℕ) (buf : ℕ → Cell) (i : ℕ) (value : ℤ) : Except Fault (ℕ → Cell) :=
  if i < len then .ok (Function.update buf i (.output (toChar value))) else .error .string

/-- The loop of `unbase16`; `turns` pairs of characters are left at `i`. -/
def unbase16Loop (len : ℕ) : (turns i : ℕ) → (buf : ℕ → Cell) → Except Fault (ℤ × (ℕ → Cell))
  | 0, _, buf => return (0, buf)
  | turns + 1, i, buf => do
    match digit (← received len buf i) with
    | none => return (-1, buf)
    | some high => do
      let buf ← decoded len buf (i / 2) (16 * high)
      match digit (← received len buf (i + 1)) with
      | none => return (-1, buf)
      | some low => do
        let buf ← decoded len buf (i / 2) (char (buf (i / 2)).byte + low)
        unbase16Loop len turns (i + 2) buf

/-- `unbase16`, for an even `len`: the return value, and the buffer. -/
def unbase16 (buf : ℕ → UInt8) (len : ℕ) : Except Fault (ℤ × (ℕ → Cell)) :=
  unbase16Loop len (len / 2) 0 fun i => .input (buf i)

/-- A digit of `%x`. -/
def printHexDigit (value : UInt8) : UInt8 := if value < 10 then 48 + value else 97 + (value - 10)

/-- `%02x`, for a byte. -/
def printHex (c : UInt8) : List UInt8 := [printHexDigit (c / 16), printHexDigit (c % 16)]

/-- `sizeof(hash_text)`. -/
def hashTextSize : ℕ := 64

/-- The loop of `ctl_open_create_common` over the bytes of `hash`, with an array of `size` bytes. -/
def hashTextLoop (size : ℕ) : (hash : List UInt8) → (ptr : ℕ) → (text : ℕ → UInt8) → Except Fault (ℕ → UInt8)
  | [], _, text => return text
  | c :: hash, ptr, text =>
    -- snprintf also stores the terminator
    if ptr + 3 ≤ size then
      hashTextLoop size hash (ptr + (printHex c).length) (Memory.writeList text ptr (printHex c ++ [0]))
    else throw .hashText

/-- `%.*s`, for `hash_text`. -/
def transmitted (text : ℕ → UInt8) : List UInt8 := (Memory.readList text 0 hashTextSize).takeWhile (· ≠ 0)

end CommandLine

/-! ## Integers -/

namespace Scubed3ctl

/-- What `parse_int` leaves besides its result. -/
structure Report where
  printed : List UInt8 := []
  /-- `exit_status` is `EXIT_FAILURE`. -/
  exitFailure : Bool := false

/-- `parse_int` of the client: the return value and `*r`; `errno` says that `errno` was set before. -/
def parseInt (errno : Bool) (report : Report) (r : ℤ) (in_ : List UInt8) : (ℤ × Report) × ℤ :=
  let (value, end_, set) := strtol in_
  let ret := toInt value
  if (errno ∨ set) ∧ (ret = longMin ∨ ret = longMax) then
    ((-1, { printed := report.printed ++ ascii "integer out of range\n", exitFailure := true }), r)
  else if end_ ≠ [] then
    ((-1, {
      printed := report.printed ++ printf (ascii "unable to parse ->%s<-\n") [in_]
      exitFailure := true }), r)
  else ((0, report), ret)

end Scubed3ctl

end Scubed3
