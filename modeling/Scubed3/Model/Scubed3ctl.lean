import Scubed3.Model.Socket
import Scubed3.ToMathlib.Except
import Scubed3.ToMathlib.Memory

/-! # How the client reads a response

`do_server_command` of `scubed3ctl` sends a command and collects the response in `result.buf`. The lines of
the response stay where they are, each ended by a zero byte, and `result.argv` points at them. What is
printed is not modelled.
-/

namespace Scubed3.Scubed3ctl

open Memory

/-- `BUF_SIZE`. -/
def bufSize : ℕ := 1024

/-- `MAX_RESULT_LINES`. -/
def maxResultLines : ℕ := 128

/-- A response that is not accepted. -/
inductive Stop where
  | fatal (message : String)
  /-- The function returns -1. -/
  | malformed
deriving DecidableEq, Repr

/-- `result_t` and the variables of the loop. -/
structure Result where
  buf : ℕ → UInt8
  bufLen : ℕ := 0
  start : ℕ := 0
  statusKnown : Bool := false
  status : ℤ := 0
  /-- Offsets in `buf`; `argc` is their number. -/
  argv : List ℕ := []
  done : Bool := false

/-- The string at an offset of `buf`. -/
def cString (buf : ℕ → UInt8) (off : ℕ) : List UInt8 :=
  (readList buf off (bufSize - off)).takeWhile (· ≠ 0)

/-- The `for` loop over the bytes that were just received; `i` is at the first of `turns` bytes. -/
def parse : (turns i : ℕ) → (result : Result) → Except Stop Result
  | 0, _, result => return result
  | turns + 1, i, result =>
    if result.buf i = newline then
      let buf := fill result.buf i 1 0
      if [buf result.start] = ascii "." ∧ i - result.start = 1 then
        return { result with buf, done := true }
      else if result.statusKnown then
        if result.argv.length = maxResultLines then throw (.fatal "too many lines in response")
        else parse turns (i + 1) { result with buf, argv := result.argv ++ [result.start], start := i + 1 }
      else if cString buf result.start = ascii "ERR" ∨ cString buf result.start = ascii "OK" then
        let status := if cString buf result.start = ascii "ERR" then -1 else result.status
        parse turns (i + 1) { result with buf, statusKnown := true, status, start := i + 1 }
      else throw .malformed
    else parse turns (i + 1) result

/-- The loop of `do_server_command`, with what `stream` brings and `recv` may return; the second component
is what was not received. -/
def doServerCommand (cut : ℕ → ℕ) :
    (turns : ℕ) → (result : Result) → (stream : List UInt8) → Except Stop (Result × List UInt8)
  | 0, result, stream => return (result, stream)
  | turns + 1, result, stream =>
    if result.bufLen = bufSize then throw (.fatal "response too long")
    else if stream = [] then throw (.fatal "recv: connection reset by peer")
    else do
      let chunk := recv (bufSize - result.bufLen) (cut 0) stream
      let buf := writeList result.buf result.bufLen chunk
      let result ← parse chunk.length result.bufLen { result with buf }
      let result := { result with bufLen := result.bufLen + chunk.length }
      let stream := stream.drop chunk.length
      if result.done then return (result, stream) else doServerCommand (fun k => cut (k + 1)) turns result stream

end Scubed3.Scubed3ctl
