import Mathlib.Data.List.Forall2
import Scubed3.Model.Scubed3ctl

/-! # Client and server agree on the format of a response

While the client reads, `result.argv` points at the payload lines that have come to their end, and the
bytes from `result.start` on are those of the lines that have not. Each newline turns one line of the
second kind into one of the first; the dot is the only line that ends the loop.
-/

namespace Scubed3.Scubed3ctl

open Memory List

variable {err : Bool} {lines remaining : List (List UInt8)} {result : Result} {rest stream : List UInt8}
  {turns i off : ℕ}

/-- The lines that a response can carry. -/
structure Payload (lines : List (List UInt8)) : Prop where
  newline : ∀ line ∈ lines, newline ∉ line
  nul : ∀ line ∈ lines, 0 ∉ line
  dot : ∀ line ∈ lines, line ≠ dot
  few : lines.length ≤ maxResultLines

/-- A string that lies in front of the line at hand. -/
def PointsAt (result : Result) (off : ℕ) (line : List UInt8) : Prop :=
  off + line.length < result.start ∧ readList result.buf off (line.length + 1) = line ++ [0]

/-- How far the client is, and the lines that are still to come. -/
inductive Phase (err : Bool) (lines : List (List UInt8)) (result : Result) : List (List UInt8) → Prop
  | status (unknown : result.statusKnown = false) (success : result.status = 0) (none : result.argv = []) :
      Phase err lines result (statusLine err :: lines ++ [dot])
  | payload {parsed todo : List (List UInt8)} (known : result.statusKnown = true)
      (status : result.status = if err then -1 else 0) (split : lines = parsed ++ todo)
      (points : Forall₂ (PointsAt result) result.argv parsed) : Phase err lines result (todo ++ [dot])

theorem cString_eq {buf : ℕ → UInt8} {line : List UInt8} (inside : off + line.length < bufSize)
    (nul : 0 ∉ line) (ended : readList buf off (line.length + 1) = line ++ [0]) : cString buf off = line := by
  have all : ∀ b ∈ line, decide (b ≠ 0) = true := fun b member =>
    decide_eq_true (ne_of_mem_of_not_mem member nul)
  rw [cString, show bufSize - off = (line.length + 1) + (bufSize - off - (line.length + 1)) by omega,
    readList_add, ended, append_assoc, takeWhile_append_of_pos all]
  simp

/-- Bytes that are written later do not change a string in front of them. -/
theorem PointsAt.congr {result' : Result} {line : List UInt8} (points : PointsAt result off line)
    (later : result.start ≤ result'.start) (same : ∀ k < result.start, result'.buf k = result.buf k) :
    PointsAt result' off line :=
  ⟨Nat.lt_of_lt_of_le points.1 later,
    (readList_congr fun k _ upper => same k (by have := points.1; omega)).trans points.2⟩

theorem Phase.setBuf (phase : Phase err lines result remaining) (buf : ℕ → UInt8) (bufLen : ℕ)
    (same : ∀ k < result.start, buf k = result.buf k) :
    Phase err lines { result with buf, bufLen } remaining := by
  cases phase with
  | status unknown success none => exact .status unknown success none
  | payload known status split points =>
    exact .payload known status split (points.imp fun off line at_ => at_.congr (Nat.le_refl _) same)

theorem clean_remaining (payload : Payload lines) (phase : Phase err lines result remaining) :
    ∀ line ∈ remaining, newline ∉ line := by
  intro line member
  cases phase with
  | status unknown success none =>
    simp only [cons_append, mem_cons, mem_append, not_mem_nil, or_false] at member
    rcases member with rfl | member | rfl
    · cases err <;> decide
    · exact payload.newline line member
    · decide
  | payload known status split points =>
    simp only [mem_append, mem_cons, not_mem_nil, or_false] at member
    rcases member with member | rfl
    · exact payload.newline line (split ▸ mem_append_right _ member)
    · decide

/-- What one turn of the client leaves: it is done, or it waits for the end of a line. -/
inductive Read (err : Bool) (lines : List (List UInt8)) (result : Result) (stop : ℕ) (rest : List UInt8) : Prop
  | done (done : result.done = true) (whole : rest = []) (order : result.start ≤ stop)
      (status : result.status = if err then -1 else 0) (points : Forall₂ (PointsAt result) result.argv lines)
  | waiting {remaining : List (List UInt8)} (running : result.done = false) (order : result.start ≤ stop)
      (phase : Phase err lines result remaining)
      (absent : newline ∉ readList result.buf result.start (stop - result.start))
      (window : readList result.buf result.start (stop - result.start) ++ rest = remaining.encodeLines newline)

/-- The line that has come to its end at `i` becomes a string. -/
theorem readList_ended (order : result.start ≤ i) :
    readList (fill result.buf i 1 0) result.start (i - result.start + 1) =
      readList result.buf result.start (i - result.start) ++ [0] := by
  rw [readList_add, readList_fill_disjoint _ _ (.inl (by omega)), show result.start + (i - result.start) = i by omega,
    readList_succ, fill_inside _ _ (Nat.le_refl i) (Nat.lt_succ_self i)]
  rfl

/-- The dot is recognised by its first byte and its length. -/
theorem is_dot_iff (order : result.start ≤ i) :
    ([fill result.buf i 1 0 result.start] = ascii "." ∧ i - result.start = 1) ↔
      readList result.buf result.start (i - result.start) = dot := by
  by_cases one : i - result.start = 1
  · rw [fill_outside _ _ (.inl (by omega)), one, readList_succ]
    simp [readList, dot]
  · refine iff_of_false (fun both => one both.2) fun same => one ?_
    exact (readList_length _ _ _).symm.trans (congrArg List.length same)

theorem parse_reads (payload : Payload lines) (phase : Phase err lines result remaining)
    (bound : i + turns ≤ bufSize) (running : result.done = false) (order : result.start ≤ i)
    (absent : newline ∉ readList result.buf result.start (i - result.start))
    (window : readList result.buf result.start (i + turns - result.start) ++ rest =
      remaining.encodeLines newline) :
    ∃ result', parse turns i result = .ok result' ∧ result'.bufLen = result.bufLen ∧
      Read err lines result' (i + turns) rest := by
  induction turns generalizing result i remaining with
  | zero => exact ⟨result, rfl, rfl, .waiting running order phase absent window⟩
  | succ turns ih =>
    have next : i + (turns + 1) = i + 1 + turns := by omega
    by_cases end_ : result.buf i = newline
    · rw [readList_around result.buf turns order, end_, append_assoc, cons_append,
        ← append_nil (encodeLines newline remaining)] at window
      obtain ⟨remaining', rfl, window'⟩ :=
        eq_cons_of_line (clean_remaining payload phase) not_mem_nil absent window
      rw [append_nil] at window'
      rw [parse, if_pos end_]
      simp only [is_dot_iff order]
      generalize line : readList result.buf result.start (i - result.start) = l at *
      have length : l.length = i - result.start := by rw [← line, readList_length]
      have ended : readList (fill result.buf i 1 0) result.start (l.length + 1) = l ++ [0] := by
        rw [length, readList_ended order, line]
      have later : readList (fill result.buf i 1 0) (i + 1) (i + 1 + turns - (i + 1)) ++ rest =
          remaining'.encodeLines newline := by
        rw [readList_fill_disjoint _ _ (.inr (by omega)), show i + 1 + turns - (i + 1) = turns by omega, window']
      have kept : ∀ k < result.start, fill result.buf i 1 0 k = result.buf k := fun k before =>
        fill_outside _ _ (.inl (by omega))
      rw [next]
      generalize shape : l :: remaining' = remaining at phase
      cases phase with
      | status unknown success none =>
        obtain ⟨rfl, rfl⟩ := cons.inj shape
        have string : cString (fill result.buf i 1 0) result.start = statusLine err :=
          cString_eq (by omega) (by cases err <;> decide) ended
        have accepted : statusLine err = ascii "ERR" ∨ statusLine err = ascii "OK" := by cases err <;> decide
        rw [if_neg (by cases err <;> decide), if_neg (by simp [unknown]), string, if_pos accepted, success]
        have status : (if statusLine err = ascii "ERR" then -1 else 0 : ℤ) = if err then -1 else 0 := by
          cases err <;> decide
        have points : Forall₂ (PointsAt { result with
            buf := fill result.buf i 1 0
            statusKnown := true
            status := if statusLine err = ascii "ERR" then -1 else 0
            start := i + 1 }) result.argv [] := by
          rw [none]
          exact .nil
        exact ih (.payload rfl status rfl points) (by omega) running (Nat.le_refl _) (by simp [readList]) later
      | @payload parsed todo known status split points =>
        have points' : Forall₂ (PointsAt { result with buf := fill result.buf i 1 0, start := i + 1 })
            result.argv parsed :=
          points.imp fun off line at_ => at_.congr (Nat.le_succ_of_le order) kept
        cases todo with
        | nil =>
          obtain ⟨rfl, rfl⟩ := cons.inj shape
          rw [if_pos rfl]
          refine ⟨_, rfl, rfl, .done rfl ?_ (Nat.le_add_right_of_le (Nat.le_succ_of_le order)) status ?_⟩
          · exact (append_eq_nil_iff.mp window').2
          · rw [split, append_nil]
            exact points.imp fun off line at_ => at_.congr (Nat.le_refl _) kept
        | cons line todo =>
          obtain ⟨rfl, rfl⟩ := cons.inj shape
          have member : l ∈ lines := split ▸ mem_append_right _ mem_cons_self
          have room : result.argv.length ≠ maxResultLines := by
            have few := payload.few
            rw [split, length_append, length_cons, ← points.length_eq] at few
            omega
          rw [if_neg (payload.dot l member), if_pos known, if_neg room]
          have points'' : Forall₂ (PointsAt { result with
              buf := fill result.buf i 1 0
              argv := result.argv ++ [result.start]
              start := i + 1 }) (result.argv ++ [result.start]) (parsed ++ [l]) :=
            rel_append points' (.cons ⟨by change result.start + l.length < i + 1; omega, ended⟩ .nil)
          exact ih (.payload known status (by simp [split]) points'') (by omega) running (Nat.le_refl _)
            (by simp [readList]) later
    · rw [parse, if_neg end_, next]
      rw [next] at window
      refine ih phase (by omega) running (by omega) ?_ window
      rw [show i + 1 - result.start = i - result.start + 1 by omega, readList_add, mem_append, not_or]
      refine ⟨absent, ?_⟩
      rw [show result.start + (i - result.start) = i by omega]
      simpa [readList] using Ne.symm end_

/-- The loop ends as soon as the response is complete. -/
theorem doServerCommand_reads {cut : ℕ → ℕ} (payload : Payload lines) (phase : Phase err lines result remaining)
    (positive : ∀ k, 0 < cut k) (fits : result.bufLen + stream.length ≤ bufSize) (enough : stream.length < turns)
    (running : result.done = false) (order : result.start ≤ result.bufLen)
    (absent : newline ∉ readList result.buf result.start (result.bufLen - result.start))
    (window : readList result.buf result.start (result.bufLen - result.start) ++ stream =
      remaining.encodeLines newline) :
    ∃ result', doServerCommand cut turns result stream = .ok (result', []) ∧ result'.done = true ∧
      result'.start ≤ bufSize ∧ result'.status = (if err then -1 else 0) ∧
      Forall₂ (PointsAt result') result'.argv lines := by
  induction turns generalizing result stream remaining cut with
  | zero => omega
  | succ turns ih =>
    -- the dot is still to come
    have more : stream ≠ [] := by
      rintro rfl
      rw [append_nil] at window
      rw [window] at absent
      cases phase <;> simp at absent
    have := length_pos_iff.mpr more
    obtain ⟨chunk, rest, rfl, got, dropped, room, positive'⟩ :=
      recv_split (bufSize - result.bufLen) (cut 0) stream
    have received := positive' (by omega) (positive 0) more
    rw [length_append] at fits enough
    have same : ∀ k < result.bufLen, writeList result.buf result.bufLen chunk k = result.buf k :=
      fun k before => writeList_outside _ _ (.inl before)
    have loaded : readList (writeList result.buf result.bufLen chunk) result.start
        (result.bufLen - result.start) = readList result.buf result.start (result.bufLen - result.start) :=
      readList_congr fun k _ _ => same k (by omega)
    have window' : readList (writeList result.buf result.bufLen chunk) result.start
        (result.bufLen + chunk.length - result.start) ++ rest = remaining.encodeLines newline := by
      rw [show result.bufLen + chunk.length - result.start = (result.bufLen - result.start) + chunk.length by omega,
        readList_add, loaded, show result.start + (result.bufLen - result.start) = result.bufLen by omega,
        readList_writeList, append_assoc, window]
    obtain ⟨result', parsed, bufLen, read⟩ :=
      parse_reads payload (phase.setBuf _ result.bufLen fun k before => same k (Nat.lt_of_lt_of_le before order))
        (by omega) running order (loaded.symm ▸ absent) window'
    rw [doServerCommand, if_neg (by omega), if_neg more]
    simp only [got, dropped, parsed, bind, Except.bind, pure, Except.pure]
    cases read with
    | done done whole order status points =>
      subst whole
      rw [if_pos done]
      exact ⟨_, rfl, done, by change result'.start ≤ bufSize; omega, status, points⟩
    | waiting running order phase absent window =>
      rw [if_neg (by simp [running])]
      rw [bufLen]
      exact ih (phase.setBuf _ _ fun _ _ => rfl) (fun k => positive (k + 1)) (by simp only; omega) (by omega) running order absent
        window

/-- What the server sends as a response, in parts or as one text, is what the client gets, however the bytes
are cut on the way. -/
theorem response_understood {s s' : Socket} {cut : ℕ → ℕ} (payload : Payload lines)
    (fits : (response err lines).length ≤ bufSize) (positive : ∀ k, 0 < cut k)
    (written : controlWriteParts s err lines = (0, s') ∨
      ∃ text, text ++ [newline] = lines.encodeLines newline ∧ controlWriteComplete s err text = (0, s'))
    (sent : s'.sent = s.sent ++ stream) (enough : stream.length < turns) (buf : ℕ → UInt8) :
    ∃ result, doServerCommand cut turns { buf } stream = .ok (result, []) ∧ result.done = true ∧
      result.status = (if err then -1 else 0) ∧ result.argv.length = lines.length ∧
      result.argv.map (cString result.buf) = lines := by
  obtain rfl : stream = response err lines := by
    rcases written with written | ⟨text, same, written⟩
    · have sends := controlWriteParts_sends s err lines
      rw [written] at sends
      exact append_cancel_left (sent.symm.trans (sends.sent rfl))
    · have sends := controlWriteComplete_sends s err text
      rw [written, response_eq same] at sends
      exact append_cancel_left (sent.symm.trans (sends.sent rfl))
  have start : Phase err lines { buf } (statusLine err :: lines ++ [dot]) := .status rfl rfl rfl
  obtain ⟨result, ran, done, inside, status, points⟩ := doServerCommand_reads payload start positive
    (by simpa using fits) enough rfl (Nat.le_refl 0) (by simp [readList]) rfl
  refine ⟨result, ran, done, status, points.length_eq, ext_getElem (by simp [points.length_eq]) ?_⟩
  intro i inArgv bound
  rw [length_map] at inArgv
  obtain ⟨order, ended⟩ := (forall₂_iff_get.mp points).2 i inArgv bound
  rw [getElem_map]
  exact cString_eq (Nat.lt_of_lt_of_le order inside) (payload.nul _ (getElem_mem bound)) ended

/-- A refusal with an empty line and another one, sent two bytes at a time and received one by one. -/
theorem response_understood_bytewise :
    ∃ result, doServerCommand (fun _ => 1) 20 { buf := fun _ => 0 } (response true [[], ascii "full"]) =
        .ok (result, []) ∧ result.done = true ∧ result.status = -1 ∧ result.argv.length = 2 ∧
      result.argv.map (cString result.buf) = [[], ascii "full"] := by
  have payload : Payload [[], ascii "full"] := ⟨by decide, by decide, by decide, by decide⟩
  have written : controlWriteParts { accepts := fun _ => 2 } true [[], ascii "full"] =
      (0, (controlWriteParts { accepts := fun _ => 2 } true [[], ascii "full"]).2) :=
    Prod.ext (by decide +kernel) rfl
  exact response_understood payload (by decide +kernel) (fun _ => Nat.one_pos) (.inl written) (by decide +kernel)
    (by decide +kernel) fun _ => 0

end Scubed3.Scubed3ctl
