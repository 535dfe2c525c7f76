import Scubed3.Model.Text
import Scubed3.ToMathlib.Lines

/-! # The control socket

The daemon and its client exchange lines over a stream socket. `send` may take a part of what it is given
or fail, `recv` may return a part of what is under way; both are free to choose, so the choices are data
of the model. A response is a status line, any number of lines and a line with a single dot.
-/

namespace Scubed3

/-- What `recv` returns of the bytes that are under way if there is room for `room` of them and it could
return `cut` of them. -/
def recv (room cut : ℕ) (stream : List UInt8) : List UInt8 := stream.take (min cut room)

/-- A connected socket. `accepts k` is the number of bytes that call number `k` of `send` would take; it
fails if that is zero. -/
structure Socket where
  accepts : ℕ → ℕ
  sends : ℕ := 0
  sent : List UInt8 := []
  /-- Some call of `send` has failed. -/
  broken : Bool := false

/-- The loop of `control_write_string`; every turn but the last one sends something. -/
def controlWriteLoop : (turns : ℕ) → (s : Socket) → (string : List UInt8) → ℤ × Socket
  | 0, s, _ => (0, s)
  | turns + 1, s, string =>
    let n := min (s.accepts s.sends) string.length
    -- also for an empty string: nothing can be sent
    if n = 0 then (-1, { s with sends := s.sends + 1, broken := true })
    else
      let s := { s with sends := s.sends + 1, sent := s.sent ++ string.take n }
      if n < string.length then controlWriteLoop turns s (string.drop n) else (0, s)

/-- `control_write_string`. -/
def controlWriteString (s : Socket) (string : List UInt8) : ℤ × Socket :=
  controlWriteLoop (string.length + 1) s string

/-- `if (result) return -1;`, and the rest of the function. -/
def orFail (result : ℤ × Socket) (next : Socket → ℤ × Socket) : ℤ × Socket :=
  if result.1 ≠ 0 then (-1, result.2) else next result.2

/-- `control_write_silent_success`. -/
def controlWriteSilentSuccess (s : Socket) : ℤ × Socket := controlWriteString s (ascii "OK\n.\n")

/-- `control_write_status`. -/
def controlWriteStatus (s : Socket) (err : Bool) : ℤ × Socket :=
  if !err then orFail (controlWriteString s (ascii "OK\n")) fun s => (0, s)
  else orFail (controlWriteString s (ascii "ERR\n")) fun s => (0, s)

/-- `control_write_line`, for a line that is already formatted. -/
def controlWriteLine (s : Socket) (string : List UInt8) : ℤ × Socket := controlWriteString s string

/-- `control_write_terminate`. -/
def controlWriteTerminate (s : Socket) : ℤ × Socket := controlWriteString s (ascii ".\n")

/-- `control_write_complete`, for a text that is already formatted. -/
def controlWriteComplete (s : Socket) (err : Bool) (text : List UInt8) : ℤ × Socket :=
  orFail (controlWriteStatus s err) fun s =>
  orFail (controlWriteLine s text) fun s =>
  controlWriteString s (ascii "\n.\n")

/-- One `control_write_line` for each payload line, until one fails. -/
def controlWriteLines (s : Socket) : (lines : List (List UInt8)) → ℤ × Socket
  | [] => (0, s)
  | line :: lines => orFail (controlWriteLine s (line ++ [newline])) fun s => controlWriteLines s lines

/-- A response in parts, as the handlers with more than one line send it. -/
def controlWriteParts (s : Socket) (err : Bool) (lines : List (List UInt8)) : ℤ × Socket :=
  orFail (controlWriteStatus s err) fun s =>
  orFail (controlWriteLines s lines) fun s =>
  controlWriteTerminate s

/-! ## Responses -/

/-- The status line. -/
def statusLine (err : Bool) : List UInt8 := if err then ascii "ERR" else ascii "OK"

/-- The line that ends a response. -/
def dot : List UInt8 := ascii "."

/-- A response. -/
def response (err : Bool) (lines : List (List UInt8)) : List UInt8 :=
  (statusLine err :: lines ++ [dot]).encodeLines newline

/-- The bytes are one complete response. -/
def IsResponse (bytes : List UInt8) : Prop :=
  ∃ err lines, (∀ line ∈ lines, newline ∉ line ∧ line ≠ dot) ∧ bytes = response err lines

theorem recv_append (room cut : ℕ) (stream : List UInt8) :
    recv room cut stream ++ stream.drop (recv room cut stream).length = stream := by
  rw [recv, List.length_take]
  conv_rhs => rw [← List.take_append_drop (min cut room) stream]
  congr 1
  rcases Nat.le_total (min cut room) stream.length with le | le
  · rw [Nat.min_eq_left le]
  · rw [Nat.min_eq_right le, List.drop_length, List.drop_of_length_le le]

/-- `recv` cuts the stream: there is room for what arrives, and something does. -/
theorem recv_split (room cut : ℕ) (stream : List UInt8) :
    ∃ chunk rest, stream = chunk ++ rest ∧ recv room cut stream = chunk ∧ stream.drop chunk.length = rest ∧
      chunk.length ≤ room ∧ (0 < room → 0 < cut → stream ≠ [] → 0 < chunk.length) := by
  refine ⟨_, _, (recv_append room cut stream).symm, rfl, rfl, ?_, ?_⟩
  · rw [recv, List.length_take]
    omega
  · intro free positive more
    have := List.length_pos_iff.mpr more
    rw [recv, List.length_take]
    omega

section Sending

variable {s : Socket} {string : List UInt8}

/-- What is known of a function that sends `bytes`: it sends a part of them, it returns 0 unless some
`send` fails, and then it has sent all of them. -/
structure Sends (s : Socket) (bytes : List UInt8) (result : ℤ × Socket) : Prop where
  broken : s.broken = true → result.2.broken = true
  returns : result.2.broken = false → result.1 = 0
  sent : result.1 = 0 → result.2.sent = s.sent ++ bytes
  part : ∃ part, result.2.sent = s.sent ++ part ∧ part <+: bytes

theorem controlWriteLoop_sends {turns : ℕ} (enough : string.length < turns) :
    Sends s string (controlWriteLoop turns s string) := by
  induction turns generalizing s string with
  | zero => omega
  | succ turns ih =>
    rw [controlWriteLoop]
    split
    · exact ⟨fun _ => rfl, nofun, nofun, [], (List.append_nil _).symm, List.nil_prefix⟩
    · split
      · next more =>
        let s₁ : Socket := { s with
          sends := s.sends + 1
          sent := s.sent ++ string.take (min (s.accepts s.sends) string.length) }
        have rest : Sends s₁ (string.drop (min (s.accepts s.sends) string.length)) _ :=
          ih (by rw [List.length_drop]; omega)
        obtain ⟨part, sent, prefixed⟩ := rest.part
        refine ⟨rest.broken, rest.returns, fun ret => (rest.sent ret).trans ?_, _ ++ part,
          sent.trans (List.append_assoc ..), ?_⟩
        · rw [List.append_assoc, List.take_append_drop]
        · conv_rhs => rw [← List.take_append_drop (min (s.accepts s.sends) string.length) string]
          exact (List.prefix_append_right_inj _).mpr prefixed
      · next whole =>
        rw [List.take_of_length_le (by omega)]
        exact ⟨id, fun _ => rfl, fun _ => rfl, string, rfl, List.prefix_rfl⟩

theorem controlWriteString_sends (s : Socket) (string : List UInt8) :
    Sends s string (controlWriteString s string) :=
  controlWriteLoop_sends (Nat.lt_succ_self _)

theorem Sends.refl (s : Socket) : Sends s [] (0, s) :=
  ⟨id, fun _ => rfl, fun _ => (List.append_nil _).symm, [], (List.append_nil _).symm, List.nil_prefix⟩

theorem Sends.orFail {bytes more : List UInt8} {result : ℤ × Socket} {next : Socket → ℤ × Socket}
    (first : Sends s bytes result) (second : ∀ s', Sends s' more (next s')) :
    Sends s (bytes ++ more) (orFail result next) := by
  by_cases ret : result.1 = 0
  · rw [Scubed3.orFail, if_neg (not_not.mpr ret)]
    have second := second result.2
    obtain ⟨part, sent, prefixed⟩ := second.part
    refine ⟨fun broken => second.broken (first.broken broken), second.returns, fun ret' => ?_, bytes ++ part, ?_,
      (List.prefix_append_right_inj _).mpr prefixed⟩
    · rw [second.sent ret', first.sent ret, List.append_assoc]
    · rw [sent, first.sent ret, List.append_assoc]
  · rw [Scubed3.orFail, if_pos ret]
    obtain ⟨part, sent, prefixed⟩ := first.part
    exact ⟨first.broken, fun whole => absurd (first.returns whole) ret, nofun, part, sent,
      prefixed.trans (List.prefix_append _ _)⟩

theorem controlWriteStatus_sends (s : Socket) (err : Bool) :
    Sends s (statusLine err ++ [newline]) (controlWriteStatus s err) := by
  cases err with
  | false => exact (controlWriteString_sends s (ascii "OK\n")).orFail .refl
  | true => exact (controlWriteString_sends s (ascii "ERR\n")).orFail .refl

/-- A response whose text is one string. -/
theorem controlWriteComplete_sends (s : Socket) (err : Bool) (text : List UInt8) :
    Sends s (statusLine err ++ [newline] ++ (text ++ ascii "\n.\n")) (controlWriteComplete s err text) :=
  (controlWriteStatus_sends s err).orFail fun s =>
    (controlWriteString_sends s text).orFail fun s => controlWriteString_sends s _

theorem controlWriteLines_sends (s : Socket) (lines : List (List UInt8)) :
    Sends s (lines.encodeLines newline) (controlWriteLines s lines) := by
  induction lines generalizing s with
  | nil => exact .refl s
  | cons line lines ih =>
    rw [List.encodeLines_cons, ← List.singleton_append, ← List.append_assoc]
    exact (controlWriteString_sends s _).orFail fun s => ih s

theorem controlWriteParts_sends (s : Socket) (err : Bool) (lines : List (List UInt8)) :
    Sends s (response err lines) (controlWriteParts s err lines) := by
  have parts : response err lines =
      statusLine err ++ [newline] ++ (lines.encodeLines newline ++ ascii ".\n") := by
    simp only [response, List.encodeLines_cons, List.encodeLines_append, List.cons_append, List.append_assoc,
      List.nil_append]
    rfl
  rw [parts]
  exact (controlWriteStatus_sends s err).orFail fun s =>
    (controlWriteLines_sends s lines).orFail fun s => controlWriteString_sends s _

/-- The text of a response without its last newline. -/
theorem response_eq {err : Bool} {text : List UInt8} {lines : List (List UInt8)}
    (same : text ++ [newline] = lines.encodeLines newline) :
    statusLine err ++ [newline] ++ (text ++ ascii "\n.\n") = response err lines := by
  have tail : text ++ ascii "\n.\n" = lines.encodeLines newline ++ ascii ".\n" := by
    rw [← same, List.append_assoc]
    rfl
  rw [tail, response]
  simp only [List.encodeLines_cons, List.encodeLines_append, List.cons_append, List.append_assoc,
    List.nil_append]
  rfl

end Sending

end Scubed3
