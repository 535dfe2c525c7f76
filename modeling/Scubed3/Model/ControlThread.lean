import Scubed3.Model.Socket
import Scubed3.ToMathlib.Except
import Scubed3.ToMathlib.Memory

/-! # The receive loop of the control thread

`control_thread` collects the bytes of one client in `buf`, calls `control_call` for every line that has
come to its end, wipes the line and moves what is unfinished to the front. Every access to `buf` is
checked against its bounds. What `control_call` does is a parameter: it gets the bytes of a line and may
overwrite them, but the line is wiped before anything else looks at it.
-/

namespace Scubed3.ControlThread

open Memory

/-- `BUF_SIZE`. -/
def bufSize : ℕ := 8192

inductive Fault where
  | outOfBounds
deriving DecidableEq, Repr

/-- The loop's variables, the daemon, and the commands that were called so far. -/
structure Receiver (σ : Type) where
  buf : ℕ → UInt8
  bufLen : ℕ
  start : ℕ
  done : Bool
  daemon : σ
  calls : List (List UInt8)

/-- The `len` bytes at `off` have to be in `buf`. -/
def access (off len : ℕ) : Except Fault Unit :=
  if off + len ≤ bufSize then .ok () else .error .outOfBounds

/-- `wipememory`. -/
def wipememory (buf : ℕ → UInt8) (ptr len : ℕ) : Except Fault (ℕ → UInt8) := do
  access ptr len
  return fill buf ptr len 0

variable {σ : Type} (call : σ → List UInt8 → ℤ × σ)

/-- The `for` loop over the bytes that were just received; `i` is at the first of `turns` bytes. -/
def scan : (turns i : ℕ) → (r : Receiver σ) → Except Fault (Receiver σ)
  | 0, _, r => return r
  | turns + 1, i, r => do
    access i 1
    if r.buf i = newline then
      let (ret, daemon) := call r.daemon (readList r.buf r.start (i - r.start))
      let calls := r.calls ++ [readList r.buf r.start (i - r.start)]
      -- clear command from memory
      let buf ← wipememory (fill r.buf i 1 0) r.start i
      if ret ≠ 0 then
        return { r with buf, daemon, calls, done := true }
      else
        scan turns (i + 1) { r with buf, daemon, calls, start := i + 1 }
    else
      scan turns (i + 1) r

/-- One turn of the loop: `recv` has returned `chunk`. -/
def receive (r : Receiver σ) (chunk : List UInt8) : Except Fault (Receiver σ) := do
  access r.bufLen chunk.length
  let r ← scan call chunk.length r.bufLen { r with buf := writeList r.buf r.bufLen chunk, start := 0 }
  let bufLen := r.bufLen + chunk.length
  access r.start (bufLen - r.start)
  let buf := blit r.buf 0 (bufLen - r.start) fun k => r.buf (r.start + k)
  let bufLen := bufLen - r.start
  -- command too long
  return { r with buf, bufLen, done := r.done || bufLen == bufSize }

/-- A connection, `cut k` belongs to its turn `k`; the client closes it when the whole stream is sent. -/
def serve (cut : ℕ → ℕ) : (turns : ℕ) → (r : Receiver σ) → (stream : List UInt8) → Except Fault (Receiver σ)
  | 0, r, _ => return r
  | turns + 1, r, stream =>
    -- connection reset by peer
    if stream = [] then return r
    else do
      let chunk := recv (bufSize - r.bufLen) (cut 0) stream
      let r ← receive call r chunk
      if r.done then return r else serve (fun k => cut (k + 1)) turns r (stream.drop chunk.length)

/-- A connection was accepted; `buf` may hold anything. -/
def accepted (buf : ℕ → UInt8) (daemon : σ) : Receiver σ :=
  { buf, bufLen := 0, start := 0, done := false, daemon, calls := [] }

end Scubed3.ControlThread
