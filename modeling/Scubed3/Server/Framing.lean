import Scubed3.Model.ControlThread
import Scubed3.ToMathlib.Wiped

/-! # How the control thread cuts its input into commands

The receive loop should call `control_call` once for each line, however the bytes arrive. Wiping a command
goes wrong when it does not start at the front of the buffer: `wipememory(buf + start, i)` wipes `start`
bytes too many. The commands are framed correctly exactly when these bytes lie in the buffer and hold
nothing that is still needed.
-/

namespace Scubed3.ControlThread

open Memory List

variable {σ : Type} (call : σ → List UInt8 → ℤ × σ)

/-- What came of the lines so far. -/
@[ext] structure Answered (σ : Type) where
  calls : List (List UInt8)
  daemon : σ
  done : Bool

/-- A line is called unless a call has returned non-zero before. -/
def Answered.line (a : Answered σ) (line : List UInt8) : Answered σ :=
  if a.done then a
  else { calls := a.calls ++ [line], daemon := (call a.daemon line).2, done := (call a.daemon line).1 ≠ 0 }

def Receiver.answered (r : Receiver σ) : Answered σ := ⟨r.calls, r.daemon, r.done⟩

/-- The calls for a list of lines. -/
def answer (daemon : σ) (lines : List (List UInt8)) : Answered σ :=
  lines.foldl (Answered.line call) ⟨[], daemon, false⟩

/-- `lines` are executed one after the other, the first one from `start` on. Wiping them does not leave
the buffer and does not change what is `behind` them. -/
def Spared (start : ℕ) : (lines : List (List UInt8)) → (behind : List UInt8) → Prop
  | [], _ => True
  | line :: lines, behind =>
    start + (start + line.length) ≤ bufSize ∧
    (∀ b ∈ (lines.encodeLines newline ++ behind).take (start - 1), b = 0) ∧
    Spared (start + line.length + 1) lines behind

instance decidableSpared : ∀ start lines behind, Decidable (Spared start lines behind)
  | _, [], _ => .isTrue trivial
  | start, line :: lines, behind =>
    have := decidableSpared (start + line.length + 1) lines behind
    inferInstanceAs (Decidable (_ ∧ _ ∧ _))

/-- Wiping the commands that come to their end in one turn spares what is received with them, in every
turn. An unfinished line is only needed if its end is still to come. -/
def Harmless (cut : ℕ → ℕ) : (turns : ℕ) → (pending stream : List UInt8) → Prop
  | 0, _, _ => True
  | turns + 1, pending, stream =>
    let chunk := recv (bufSize - pending.length) (cut 0) stream
    let stream := stream.drop chunk.length
    let (lines, unfinished) := (pending ++ chunk).splitLines newline
    Spared 0 lines (if newline ∈ stream then unfinished else []) ∧
      Harmless (fun k => cut (k + 1)) turns unfinished stream

instance decidableHarmless : ∀ cut turns pending stream, Decidable (Harmless cut turns pending stream)
  | _, 0, _, _ => .isTrue trivial
  | cut, turns + 1, pending, stream =>
    have := decidableHarmless (fun k => cut (k + 1)) turns
      ((pending ++ recv (bufSize - pending.length) (cut 0) stream).splitLines newline).2
      (stream.drop (recv (bufSize - pending.length) (cut 0) stream).length)
    inferInstanceAs (Decidable (_ ∧ _))

section Scan

variable {call} {r : Receiver σ} {turns i : ℕ}

theorem Answered.foldl_done {a : Answered σ} (done : a.done = true) (lines : List (List UInt8)) :
    lines.foldl (Answered.line call) a = a := by
  induction lines with
  | nil => rfl
  | cons line lines ih => rw [foldl_cons, Answered.line, if_pos done, ih]

theorem access_ok {off len : ℕ} (bound : off + len ≤ bufSize) : access off len = .ok () := if_pos bound

theorem access_eq_ok_iff {off len : ℕ} {u : Unit} : access off len = .ok u ↔ off + len ≤ bufSize := by
  rw [access]
  split
  · next bound => exact ⟨fun _ => bound, fun _ => rfl⟩
  · next bound => exact ⟨(nomatch ·), fun other => absurd other bound⟩

/-- The receiver after the line that ends at `i` was executed. -/
def executed (call : σ → List UInt8 → ℤ × σ) (r : Receiver σ) (i : ℕ) : Receiver σ :=
  { r with
    buf := fill (fill r.buf i 1 0) r.start i 0
    daemon := (call r.daemon (readList r.buf r.start (i - r.start))).2
    calls := r.calls ++ [readList r.buf r.start (i - r.start)]
    done := (call r.daemon (readList r.buf r.start (i - r.start))).1 ≠ 0 }

theorem scan_other (bound : i < bufSize) (other : r.buf i ≠ newline) :
    scan call (turns + 1) i r = scan call turns (i + 1) r := by
  rw [scan, access_ok bound]
  exact if_neg other

theorem scan_newline (running : r.done = false) (bound : i < bufSize) (end_ : r.buf i = newline)
    (room : r.start + i ≤ bufSize) :
    scan call (turns + 1) i r =
      if (executed call r i).done then .ok (executed call r i)
      else scan call turns (i + 1) { executed call r i with start := i + 1 } := by
  rw [scan, access_ok bound]
  simp only [bind, Except.bind, pure, Except.pure, if_pos end_, wipememory, access_ok room, executed,
    decide_eq_true_eq]
  split
  · next nonzero => simp [nonzero]
  · next zero =>
    rw [not_not] at zero
    simp [zero, running]

theorem scan_newline_fails (bound : i < bufSize) (end_ : r.buf i = newline) (noRoom : ¬ r.start + i ≤ bufSize) :
    scan call (turns + 1) i r = .error .outOfBounds := by
  rw [scan, access_ok bound]
  simp only [bind, Except.bind, if_pos end_, wipememory, access, if_neg noRoom]

/-- What is received behind the line at hand, before it is executed. -/
theorem window_line (order : r.start ≤ i) (end_ : r.buf i = newline) :
    readList r.buf r.start (i + (turns + 1) - r.start) =
      readList r.buf r.start (i - r.start) ++ newline :: readList r.buf (i + 1) turns := by
  rw [readList_around r.buf turns order, end_]

/-- Executing a line wipes `start - 1` bytes behind its newline. -/
theorem window_executed (call : σ → List UInt8 → ℤ × σ) (order : r.start ≤ i) :
    readList (executed call r i).buf (i + 1) turns = (readList r.buf (i + 1) turns).wiped 0 (r.start - 1) := by
  rw [executed, readList_fill_front _ _ _ _ (by omega), show r.start + i - (i + 1) = r.start - 1 by omega]
  congr 1
  exact readList_congr fun k lower _ => fill_outside _ _ (.inr (by omega))

theorem window_spared {lines : List (List UInt8)} {behind loose : List UInt8}
    (call : σ → List UInt8 → ℤ × σ) (order : r.start ≤ i)
    (rest : readList r.buf (i + 1) turns = lines.encodeLines newline ++ (behind ++ loose))
    (zeros : ∀ b ∈ (lines.encodeLines newline ++ behind).take (r.start - 1), b = 0) :
    readList (executed call r i).buf (i + 1) (i + 1 + turns - (i + 1)) =
      lines.encodeLines newline ++ (behind ++
        loose.wiped 0 (r.start - 1 - (lines.encodeLines newline ++ behind).length)) := by
  rw [show i + 1 + turns - (i + 1) = turns by omega, window_executed call order, rest, ← append_assoc,
    wiped_append, wiped_eq_self_iff.mpr zeros, append_assoc]

theorem newline_not_mem_wiped {behind loose : List UInt8} (k : ℕ) (absent : newline ∉ behind ++ loose) :
    newline ∉ behind ++ loose.wiped 0 k := by
  intro member
  rcases mem_append.mp member with member | member
  · exact absent (mem_append_left _ member)
  · rcases mem_of_mem_wiped member with zero | member
    · cases zero
    · exact absent (mem_append_right _ member)

theorem absent_succ (order : r.start ≤ i) (absent : newline ∉ readList r.buf r.start (i - r.start))
    (other : r.buf i ≠ newline) : newline ∉ readList r.buf r.start (i + 1 - r.start) := by
  rw [show i + 1 - r.start = (i - r.start) + 1 by omega, readList_add, mem_append, not_or]
  refine ⟨absent, ?_⟩
  rw [show r.start + (i - r.start) = i by omega]
  simpa [readList] using Ne.symm other

/-- If wiping spares what is behind, every line is called, with its own bytes. -/
theorem scan_spared {lines : List (List UInt8)} {behind loose : List UInt8} (running : r.done = false)
    (bound : i + turns ≤ bufSize) (order : r.start ≤ i)
    (absent : newline ∉ readList r.buf r.start (i - r.start))
    (window : readList r.buf r.start (i + turns - r.start) = lines.encodeLines newline ++ (behind ++ loose))
    (clean : ∀ line ∈ lines, newline ∉ line) (unfinished : newline ∉ behind ++ loose)
    (spared : Spared r.start lines behind) :
    ∃ out, scan call turns i r = .ok out ∧ out.answered = lines.foldl (Answered.line call) r.answered ∧
      out.bufLen = r.bufLen ∧ out.start ≤ i + turns ∧ (out.done = false →
        i + turns - out.start = (behind ++ loose).length ∧
        behind <+: readList out.buf out.start (i + turns - out.start) ∧
        newline ∉ readList out.buf out.start (i + turns - out.start)) := by
  induction turns generalizing r i lines loose with
  | zero =>
    rw [Nat.add_zero] at window
    rw [window] at absent
    cases lines with
    | cons line lines => simp at absent
    | nil =>
      have length := congrArg List.length window
      rw [readList_length] at length
      refine ⟨r, rfl, rfl, rfl, order, fun _ => ⟨length, ?_, ?_⟩⟩
      · rw [Nat.add_zero, window]
        exact prefix_append _ _
      · rwa [Nat.add_zero, window]
  | succ turns ih =>
    by_cases end_ : r.buf i = newline
    · rw [window_line order end_] at window
      obtain ⟨lines, rfl, rest⟩ := eq_cons_of_line clean unfinished absent window
      obtain ⟨room, zeros, spared⟩ := spared
      rw [readList_length] at room spared
      rw [show r.start + (i - r.start) = i by omega] at room spared
      rw [scan_newline running (by omega) end_ room]
      have called : (executed call r i).answered =
          Answered.line call r.answered (readList r.buf r.start (i - r.start)) := by
        simp [Answered.line, Receiver.answered, running, executed]
      split
      · next stopped =>
        refine ⟨_, rfl, ?_, rfl, ?_, fun running => ?_⟩
        · rw [foldl_cons, ← called, Answered.foldl_done stopped]
        · exact Nat.le_trans order (Nat.le_add_right _ _)
        · rw [stopped] at running
          cases running
      · next running =>
        -- the wiped bytes held zeros, or nothing that is needed
        obtain ⟨out, ran, answered, len, inside, after⟩ := ih
          (r := { executed call r i with start := i + 1 }) (i := i + 1) (Bool.eq_false_iff.mpr running)
          (by omega) (Nat.le_refl _) (by simp [readList])
          (window_spared call order rest zeros) (fun line member => clean line (mem_cons_of_mem _ member))
          (newline_not_mem_wiped _ unfinished) spared
        refine ⟨out, ran, ?_, len, by omega, fun running => ?_⟩
        · rw [answered, foldl_cons, ← called]
          rfl
        · rw [show i + (turns + 1) = i + 1 + turns by omega]
          simpa using after running
    · rw [scan_other (by omega) end_]
      have same : i + (turns + 1) = i + 1 + turns := by omega
      rw [same] at window ⊢
      exact ih running (by omega) (by omega) (absent_succ order absent end_) window clean unfinished spared

/-- A daemon that serves every command. -/
def serving (_ : Unit) (_ : List UInt8) : ℤ × Unit := (0, ())

theorem not_done_executed (r : Receiver Unit) (i : ℕ) : (executed serving r i).done = false := rfl

/-- The loop never makes up a byte: what it calls and what it keeps is what it received, with some bytes
wiped. -/
theorem scan_effective {r out : Receiver Unit} (running : r.done = false) (bound : i + turns ≤ bufSize)
    (order : r.start ≤ i) (absent : newline ∉ readList r.buf r.start (i - r.start))
    (ran : scan serving turns i r = .ok out) :
    out.done = false ∧ out.bufLen = r.bufLen ∧ out.start ≤ i + turns ∧
      newline ∉ readList out.buf out.start (i + turns - out.start) ∧
      ∃ lines, out.calls = r.calls ++ lines ∧ (∀ line ∈ lines, newline ∉ line) ∧
        Overwritten 0 (readList r.buf r.start (i + turns - r.start))
          (lines.encodeLines newline ++ readList out.buf out.start (i + turns - out.start)) := by
  induction turns generalizing r i with
  | zero =>
    cases ran
    exact ⟨running, rfl, order, absent, [], by simp, by simp, .refl _⟩
  | succ turns ih =>
    have same : i + (turns + 1) = i + 1 + turns := by omega
    by_cases end_ : r.buf i = newline
    · by_cases room : r.start + i ≤ bufSize
      · rw [scan_newline running (by omega) end_ room, not_done_executed, if_neg (by simp)] at ran
        obtain ⟨done, len, inside, absent', lines, calls, clean, bytes⟩ :=
          ih (r := { executed serving r i with start := i + 1 }) (i := i + 1) rfl (by omega) (Nat.le_refl _)
            (by simp [readList]) ran
        rw [same]
        refine ⟨done, len, inside, absent', readList r.buf r.start (i - r.start) :: lines, ?_, ?_, ?_⟩
        · rw [calls]
          simp [executed]
        · intro line member
          rcases mem_cons.mp member with rfl | member
          · exact absent
          · exact clean line member
        · rw [← same, window_line order end_, encodeLines_cons, append_assoc, cons_append]
          refine .append (.refl _) (.cons (.inl rfl) ?_)
          refine (Overwritten.of_wiped (r.start - 1) _).trans ?_
          rw [← window_executed serving order, same]
          simpa using bytes
      · rw [scan_newline_fails (by omega) end_ room] at ran
        cases ran
    · rw [scan_other (by omega) end_] at ran
      rw [same]
      exact ih running (by omega) (by omega) (absent_succ order absent end_) ran

/-- If the lines and what is behind them came through, wiping has spared them. -/
theorem spared_of_scan {r out : Receiver Unit} {lines called : List (List UInt8)} {behind loose : List UInt8}
    (running : r.done = false) (bound : i + turns ≤ bufSize) (order : r.start ≤ i)
    (absent : newline ∉ readList r.buf r.start (i - r.start))
    (window : readList r.buf r.start (i + turns - r.start) = lines.encodeLines newline ++ (behind ++ loose))
    (clean : ∀ line ∈ lines, newline ∉ line) (unfinished : newline ∉ behind ++ loose)
    (ran : scan serving turns i r = .ok out) (calls : out.calls = r.calls ++ called)
    (kept : lines.encodeLines newline ++ behind <+:
      called.encodeLines newline ++ readList out.buf out.start (i + turns - out.start)) :
    Spared r.start lines behind := by
  induction turns generalizing r i lines loose called with
  | zero =>
    rw [Nat.add_zero] at window
    rw [window] at absent
    cases lines with
    | cons line lines => simp at absent
    | nil => trivial
  | succ turns ih =>
    have same : i + (turns + 1) = i + 1 + turns := by omega
    by_cases end_ : r.buf i = newline
    · rw [window_line order end_] at window
      obtain ⟨lines, rfl, rest⟩ := eq_cons_of_line clean unfinished absent window
      by_cases room : r.start + i ≤ bufSize
      · rw [scan_newline running (by omega) end_ room, not_done_executed, if_neg (by simp)] at ran
        obtain ⟨-, -, -, -, called', calls', -, bytes⟩ :=
          scan_effective (r := { executed serving r i with start := i + 1 }) (i := i + 1) rfl (by omega) (Nat.le_refl _)
            (by simp [readList]) ran
        obtain rfl : called = readList r.buf r.start (i - r.start) :: called' := by
          rw [calls'] at calls
          simpa [executed] using calls.symm
        rw [encodeLines_cons, encodeLines_cons, append_assoc, append_assoc, cons_append, cons_append,
          prefix_append_right_inj, prefix_cons_inj, same] at kept
        -- the bytes that came through cannot have been wiped before
        have before : lines.encodeLines newline ++ behind <+: readList r.buf (i + 1) turns :=
          ⟨loose, by rw [rest, append_assoc]⟩
        have between := Overwritten.prefix_between (Overwritten.of_wiped (r.start - 1) _)
          (by simpa [window_executed serving order] using bytes) before kept
        rw [rest, ← append_assoc, wiped_append] at between
        have zeros : wiped 0 (r.start - 1) (lines.encodeLines newline ++ behind) =
            lines.encodeLines newline ++ behind :=
          ((prefix_of_prefix_length_le between (prefix_append _ _) (by simp)).eq_of_length (by simp)).symm
        have zeros := wiped_eq_self_iff.mp zeros
        have spared := ih (r := { executed serving r i with start := i + 1 }) (i := i + 1) rfl (by omega) (Nat.le_refl _)
          (by simp [readList]) (window_spared serving order rest zeros)
          (fun line member => clean line (mem_cons_of_mem _ member)) (newline_not_mem_wiped _ unfinished) ran calls'
          kept
        rw [Spared, readList_length, show r.start + (i - r.start) = i by omega]
        exact ⟨room, zeros, spared⟩
      · rw [scan_newline_fails (by omega) end_ room] at ran
        cases ran
    · rw [scan_other (by omega) end_] at ran
      rw [same] at window kept
      exact ih running (by omega) (by omega) (absent_succ order absent end_) window clean unfinished ran calls kept

end Scan

section Serve

variable {call} {r out : Receiver σ} {cut : ℕ → ℕ} {turns n : ℕ} {pending stream chunk : List UInt8}

/-- The buffer after `recv`. -/
def loaded (r : Receiver σ) (chunk : List UInt8) : Receiver σ :=
  { r with buf := writeList r.buf r.bufLen chunk, start := 0 }

/-- The buffer after `memmove`. -/
def compacted (out : Receiver σ) (n : ℕ) : Receiver σ :=
  { out with
    buf := blit out.buf 0 (n - out.start) fun k => out.buf (out.start + k)
    bufLen := n - out.start
    done := out.done || n - out.start == bufSize }

theorem receive_eq_ok_iff {r' : Receiver σ} : receive call r chunk = .ok r' ↔
    r.bufLen + chunk.length ≤ bufSize ∧ ∃ out, scan call chunk.length r.bufLen (loaded r chunk) = .ok out ∧
      out.start + (out.bufLen + chunk.length - out.start) ≤ bufSize ∧
      compacted out (out.bufLen + chunk.length) = r' := by
  simp only [receive, Except.bind_eq_ok_iff, access_eq_ok_iff, exists_and_left, exists_const,
    Except.pure_eq_ok_iff, loaded, compacted]

/-- The unfinished line that the buffer holds. -/
def Receiver.held (r : Receiver σ) : List UInt8 := readList r.buf 0 r.bufLen

@[simp] theorem length_held (r : Receiver σ) : r.held.length = r.bufLen := readList_length ..

theorem window_loaded (r : Receiver σ) (chunk : List UInt8) :
    readList (loaded r chunk).buf (loaded r chunk).start (r.bufLen + chunk.length - (loaded r chunk).start) =
      r.held ++ chunk := by
  change readList (writeList r.buf r.bufLen chunk) 0 (r.bufLen + chunk.length) = _
  rw [readList_add, Nat.zero_add, readList_writeList]
  congr 1
  exact readList_congr fun i _ _ => writeList_outside _ _ (.inl (by omega))

theorem absent_loaded (chunk : List UInt8) (absent : newline ∉ r.held) :
    newline ∉ readList (loaded r chunk).buf (loaded r chunk).start (r.bufLen - (loaded r chunk).start) := by
  change newline ∉ readList (writeList r.buf r.bufLen chunk) 0 r.bufLen
  rwa [readList_congr fun i _ _ => writeList_outside _ _ (.inl (by omega))]

theorem held_compacted (out : Receiver σ) (n : ℕ) :
    (compacted out n).held = readList out.buf out.start (n - out.start) :=
  readList_blit _ _ _ _

/-- One turn in which wiping spares what is needed. -/
theorem receive_spared {lines : List (List UInt8)} {behind loose : List UInt8} (running : r.done = false)
    (room : r.bufLen + chunk.length ≤ bufSize) (absent : newline ∉ r.held)
    (window : r.held ++ chunk = lines.encodeLines newline ++ (behind ++ loose))
    (clean : ∀ line ∈ lines, newline ∉ line) (unfinished : newline ∉ behind ++ loose)
    (spared : Spared 0 lines behind) :
    ∃ r', receive call r chunk = .ok r' ∧
      (lines.foldl (Answered.line call) r.answered).calls = r'.calls ∧
      (lines.foldl (Answered.line call) r.answered).daemon = r'.daemon ∧
      r'.done = ((lines.foldl (Answered.line call) r.answered).done || r'.bufLen == bufSize) ∧
      ((lines.foldl (Answered.line call) r.answered).done = false →
        r'.bufLen = (behind ++ loose).length ∧ behind <+: r'.held ∧ newline ∉ r'.held) := by
  obtain ⟨out, ran, answered, len, inside, after⟩ := scan_spared (r := loaded r chunk) running room
    (Nat.zero_le _) (absent_loaded chunk absent) ((window_loaded r chunk).trans window) clean unfinished spared
  have same : lines.foldl (Answered.line call) r.answered = out.answered := answered.symm
  have end_ : out.bufLen + chunk.length = r.bufLen + chunk.length := by rw [len]; rfl
  refine ⟨compacted out (out.bufLen + chunk.length), receive_eq_ok_iff.mpr ⟨room, out, ran, by omega, rfl⟩, ?_⟩
  rw [same, held_compacted, end_]
  exact ⟨rfl, rfl, rfl, after⟩

theorem receive_effective {r r' : Receiver Unit} (running : r.done = false) (absent : newline ∉ r.held)
    (received : receive serving r chunk = .ok r') :
    (r'.done = true → r'.bufLen = bufSize) ∧ r'.bufLen ≤ bufSize ∧ newline ∉ r'.held ∧
      ∃ lines, r'.calls = r.calls ++ lines ∧ (∀ line ∈ lines, newline ∉ line) ∧
        Overwritten 0 (r.held ++ chunk) (lines.encodeLines newline ++ r'.held) := by
  obtain ⟨room, out, scanned, inside, rfl⟩ := receive_eq_ok_iff.mp received
  obtain ⟨done, len, -, absent, lines, calls, clean, bytes⟩ := scan_effective (r := loaded r chunk) running room
    (Nat.zero_le _) (absent_loaded chunk absent) scanned
  rw [window_loaded, ← held_compacted] at bytes
  rw [← held_compacted] at absent
  have end_ : out.bufLen + chunk.length = r.bufLen + chunk.length := by rw [len]; rfl
  rw [end_]
  refine ⟨fun full => ?_, ?_, absent, lines, calls, clean, bytes⟩
  · simpa [compacted, done] using full
  · change r.bufLen + chunk.length - out.start ≤ bufSize
    omega

theorem spared_of_receive {r r' : Receiver Unit} {lines called : List (List UInt8)} {behind loose : List UInt8}
    (running : r.done = false) (absent : newline ∉ r.held)
    (window : r.held ++ chunk = lines.encodeLines newline ++ (behind ++ loose))
    (clean : ∀ line ∈ lines, newline ∉ line) (unfinished : newline ∉ behind ++ loose)
    (received : receive serving r chunk = .ok r') (calls : r'.calls = r.calls ++ called)
    (kept : lines.encodeLines newline ++ behind <+: called.encodeLines newline ++ r'.held) :
    Spared 0 lines behind := by
  obtain ⟨room, out, scanned, -, rfl⟩ := receive_eq_ok_iff.mp received
  obtain ⟨-, len, -⟩ := scan_effective (r := loaded r chunk) running room
    (Nat.zero_le _) (absent_loaded chunk absent) scanned
  have end_ : out.bufLen + chunk.length = r.bufLen + chunk.length := by rw [len]; rfl
  rw [end_, held_compacted] at kept
  exact spared_of_scan (r := loaded r chunk) running room (Nat.zero_le _) (absent_loaded chunk absent)
    ((window_loaded r chunk).trans window) clean unfinished scanned calls kept

/-- The rest of a connection after one turn. -/
theorem serve_succ (more : stream ≠ []) {r' : Receiver σ}
    (received : receive call r (recv (bufSize - r.bufLen) (cut 0) stream) = .ok r') :
    serve call cut (turns + 1) r stream = if r'.done then .ok r' else
      serve call (fun k => cut (k + 1)) turns r' (stream.drop (recv (bufSize - r.bufLen) (cut 0) stream).length) := by
  rw [serve, if_neg more]
  simp only [received, bind, Except.bind, pure, Except.pure]

/-- What a connection calls and what it leaves aside is what the client sent, with some bytes wiped. -/
theorem serve_effective {r out : Receiver Unit} (running : r.done = false) (bound : r.bufLen ≤ bufSize)
    (absent : newline ∉ r.held) (ran : serve serving cut turns r stream = .ok out) :
    ∃ lines rest, out.calls = r.calls ++ lines ∧
      Overwritten 0 (r.held ++ stream) (lines.encodeLines newline ++ rest) := by
  induction turns generalizing r stream cut with
  | zero =>
    cases ran
    exact ⟨[], _, by simp, .refl _⟩
  | succ turns ih =>
    by_cases more : stream = []
    · rw [serve, if_pos more] at ran
      cases ran
      exact ⟨[], _, by simp, .refl _⟩
    · obtain ⟨r', received, -⟩ := Except.bind_eq_ok_iff.mp ((if_neg more).symm.trans ran)
      rw [serve_succ more received] at ran
      obtain ⟨chunk, rest, rfl, got, dropped, -⟩ := recv_split (bufSize - r.bufLen) (cut 0) stream
      obtain ⟨-, bound, absent', lines, calls, -, bytes⟩ := receive_effective running absent received
      rw [got, dropped] at ran
      rw [got] at bytes
      have turn := bytes.append (.refl rest)
      rw [append_assoc, append_assoc] at turn
      split at ran
      · cases ran
        exact ⟨lines, _, calls, turn⟩
      · next running =>
        obtain ⟨lines', rest, calls', bytes'⟩ := ih (Bool.eq_false_iff.mpr running) bound absent' ran
        refine ⟨lines ++ lines', rest, by rw [calls', calls, append_assoc], turn.trans ?_⟩
        rw [encodeLines_append, append_assoc]
        exact .append (.refl _) bytes'

/-- The buffer holds the unfinished line, or at least nothing that makes a difference. -/
structure Holding (r : Receiver σ) (pending stream : List UInt8) : Prop where
  running : r.done = false
  room : r.bufLen < bufSize
  absent : newline ∉ r.held
  unfinished : newline ∉ pending
  length : pending.length = r.bufLen
  agree : newline ∈ stream → r.held = pending

/-- What a turn finds in the buffer. -/
theorem Holding.window {rest lines : List _} {tail : List UInt8} (holding : Holding r pending (chunk ++ rest))
    (split : (pending ++ chunk).splitLines newline = (lines, tail)) :
    ∃ loose, r.held ++ chunk = lines.encodeLines newline ++ ((if newline ∈ rest then tail else []) ++ loose) ∧
      newline ∉ (if newline ∈ rest then tail else []) ++ loose ∧
      ((if newline ∈ rest then tail else []) ++ loose).length = tail.length := by
  have joined := encodeLines_splitLines newline (pending ++ chunk)
  have absent := (not_mem_splitLines newline (pending ++ chunk)).2
  rw [split] at joined absent
  by_cases more : newline ∈ rest
  · refine ⟨[], ?_, ?_, ?_⟩
    · rw [holding.agree (mem_append_right _ more), if_pos more, append_nil, joined]
    · rwa [if_pos more, append_nil]
    · rw [if_pos more, append_nil]
  · by_cases here : newline ∈ chunk
    · refine ⟨tail, ?_, ?_, ?_⟩
      · rw [holding.agree (mem_append_left _ here), if_neg more, nil_append, joined]
      · rwa [if_neg more, nil_append]
      · rw [if_neg more, nil_append]
    · have none : newline ∉ pending ++ chunk := by simp [holding.unfinished, here]
      rw [splitLines_of_not_mem none] at split
      cases split
      refine ⟨r.held ++ chunk, ?_, ?_, ?_⟩
      · rw [if_neg more]
        rfl
      · simp [more, holding.absent, here]
      · simp [more, holding.length]

/-- If wiping is harmless, every line is called once, with its own bytes. -/
theorem serve_harmless (positive : ∀ k, 0 < cut k) (holding : Holding r pending stream)
    (short : ∀ line ∈ ((pending ++ stream).splitLines newline).1, line.length < bufSize)
    (enough : stream.length ≤ turns) (harmless : Harmless cut turns pending stream) :
    ∃ out, serve call cut turns r stream = .ok out ∧
      out.calls = (((pending ++ stream).splitLines newline).1.foldl (Answered.line call) r.answered).calls := by
  induction turns generalizing r pending stream cut with
  | zero =>
    obtain rfl := length_eq_zero_iff.mp (Nat.le_zero.mp enough)
    rw [append_nil, splitLines_of_not_mem holding.unfinished]
    exact ⟨r, rfl, rfl⟩
  | succ turns ih =>
    by_cases more : stream = []
    · subst more
      rw [append_nil, splitLines_of_not_mem holding.unfinished, serve, if_pos rfl]
      exact ⟨r, rfl, rfl⟩
    · have free := holding.room
      obtain ⟨chunk, rest, rfl, got, dropped, fits, positive'⟩ := recv_split (bufSize - r.bufLen) (cut 0) stream
      have room : r.bufLen + chunk.length ≤ bufSize := by omega
      have received := positive' (by omega) (positive 0) more
      obtain ⟨spared, harmless⟩ := harmless
      rw [holding.length, got, dropped] at spared harmless
      have absent := (not_mem_splitLines newline (pending ++ chunk)).2
      have clean := (not_mem_splitLines newline (pending ++ chunk)).1
      have whole := splitLines_append newline (pending ++ chunk) rest
      obtain ⟨loose, window, unfinished, length⟩ := holding.window rfl
      obtain ⟨r', turn, calls, daemon, done, after⟩ := receive_spared holding.running room
        holding.absent window clean unfinished spared
      rw [append_assoc] at whole
      rw [serve_succ more (got.symm ▸ turn), got, dropped]
      generalize (pending ++ chunk).splitLines newline = split at *
      obtain ⟨lines, tail⟩ := split
      simp only at *
      rw [whole] at short ⊢
      rw [foldl_append]
      cases stopped : (lines.foldl (Answered.line call) r.answered).done with
      | true =>
        rw [if_pos (by simp [done, stopped]), Answered.foldl_done stopped]
        exact ⟨r', rfl, calls.symm⟩
      | false =>
        obtain ⟨length', kept, absent'⟩ := after stopped
        by_cases full : r'.bufLen = bufSize
        · -- the unfinished line is too long to be finished
          have none : (splitLines newline (tail ++ rest)).1 = [] := by
            cases first : (splitLines newline (tail ++ rest)).1 with
            | nil => rfl
            | cons line others =>
              have long := le_length_of_continued absent first
              have := short line (by simp [first])
              omega
          rw [if_pos (by simp [done, full]), none]
          exact ⟨r', rfl, calls.symm⟩
        · have next : Holding r' tail rest := by
            have size := congrArg List.length window
            rw [length_append, length_append, length_held] at size
            refine ⟨by simp [done, stopped, full], by omega, absent', absent, by omega, fun more => ?_⟩
            rw [if_pos more] at kept
            exact (kept.eq_of_length (by rw [length_held]; omega)).symm
          rw [if_neg (by simp [next.running])]
          have same : lines.foldl (Answered.line call) r.answered = r'.answered :=
            Answered.ext calls daemon (stopped.trans next.running.symm)
          rw [same]
          refine ih (fun k => positive (k + 1)) next (fun line member => ?_) ?_ harmless
          · exact short line (mem_append_right _ member)
          · rw [length_append] at enough
            omega

/-- A stream without a newline is harmless. -/
theorem harmless_of_absent (absent : newline ∉ pending ++ stream) : Harmless cut turns pending stream := by
  induction turns generalizing pending stream cut with
  | zero => trivial
  | succ turns ih =>
    rw [← recv_append (bufSize - pending.length) (cut 0) stream, ← append_assoc] at absent
    rw [Harmless, splitLines_of_not_mem fun member => absent (mem_append_left _ member)]
    exact ⟨trivial, ih absent⟩

/-- If every line is called with its own bytes by a daemon that serves all of them, wiping is harmless. -/
theorem harmless_of_served {r out : Receiver Unit} (holding : Holding r pending stream)
    (short : ∀ line ∈ ((pending ++ stream).splitLines newline).1, line.length < bufSize)
    (ran : serve serving cut turns r stream = .ok out)
    (served : out.calls = r.calls ++ ((pending ++ stream).splitLines newline).1) :
    Harmless cut turns pending stream := by
  induction turns generalizing r pending stream cut with
  | zero => trivial
  | succ turns ih =>
    by_cases here : newline ∈ stream
    · have more : stream ≠ [] := ne_nil_of_mem here
      have same := holding.agree here
      obtain ⟨r', received, -⟩ := Except.bind_eq_ok_iff.mp ((if_neg more).symm.trans ran)
      rw [serve_succ more received] at ran
      obtain ⟨chunk, rest, rfl, got, dropped, -⟩ := recv_split (bufSize - r.bufLen) (cut 0) stream
      rw [got] at received
      rw [got, dropped] at ran
      obtain ⟨full, bound, absent', called, calls, clean', bytes⟩ :=
        receive_effective holding.running holding.absent received
      -- what the rest of the connection makes of the bytes
      have later : ∃ called' left, out.calls = r'.calls ++ called' ∧
          Overwritten 0 (r'.held ++ rest) (called'.encodeLines newline ++ left) := by
        split at ran
        · cases ran
          exact ⟨[], _, (append_nil _).symm, .refl _⟩
        · next running => exact serve_effective (Bool.eq_false_iff.mpr running) bound absent' ran
      obtain ⟨called', left, calls', bytes'⟩ := later
      have whole := splitLines_append newline (pending ++ chunk) rest
      have joined := encodeLines_splitLines newline (pending ++ (chunk ++ rest))
      obtain ⟨clean, absent⟩ := not_mem_splitLines newline (pending ++ chunk)
      obtain ⟨loose, window, unfinished, length⟩ := holding.window rfl
      rw [Harmless, holding.length, got, dropped]
      rw [append_assoc] at whole
      generalize (pending ++ chunk).splitLines newline = split at *
      obtain ⟨lines, tail⟩ := split
      simp only [whole] at *
      have every : called ++ called' = lines ++ (splitLines newline (tail ++ rest)).1 := by
        rwa [calls', calls, append_assoc, append_cancel_left_eq] at served
      have length' : (r.held ++ chunk).length = (called.encodeLines newline ++ r'.held).length := bytes.length_eq
      -- the finished lines have survived this turn and all later ones
      have before : (lines ++ (splitLines newline (tail ++ rest)).1).encodeLines newline <+:
          r.held ++ chunk ++ rest := by
        rw [same, append_assoc]
        exact ⟨_, joined⟩
      have after : (lines ++ (splitLines newline (tail ++ rest)).1).encodeLines newline <+:
          called.encodeLines newline ++ (called'.encodeLines newline ++ left) := by
        rw [← every, encodeLines_append]
        exact (prefix_append_right_inj _).mpr (prefix_append _ _)
      have reached := Overwritten.prefix_between (bytes.append (.refl rest))
        (by rw [append_assoc]; exact .append (.refl _) bytes') before after
      have needed : (if newline ∈ rest then tail else []) <+:
          (splitLines newline (tail ++ rest)).1.encodeLines newline := by
        split
        · next more => exact prefix_of_continued absent more
        · exact nil_prefix
      have kept : lines.encodeLines newline ++ (if newline ∈ rest then tail else []) <+:
          called.encodeLines newline ++ r'.held := by
        refine prefix_of_prefix_length_le (.trans ?_ reached) (prefix_append _ rest) ?_
        · rw [encodeLines_append]
          exact (prefix_append_right_inj _).mpr needed
        · rw [← length', window, ← append_assoc]
          exact (prefix_append _ loose).length_le
      refine ⟨spared_of_receive holding.running holding.absent window clean unfinished received calls kept, ?_⟩
      by_cases more : newline ∈ rest
      · have whole' : lines.encodeLines newline ++ tail = called.encodeLines newline ++ r'.held := by
          rw [if_pos more] at kept
          refine kept.eq_of_length ?_
          rw [← length', window, length_append, length_append, length]
        have turn := congrArg (splitLines newline) whole'
        rw [splitLines_eq clean absent, splitLines_eq clean' absent', Prod.mk.injEq] at turn
        obtain ⟨rfl, rfl⟩ := turn
        rw [append_cancel_left_eq] at every
        have room' : r'.bufLen ≠ bufSize := by
          intro full
          obtain ⟨line, others, first⟩ := exists_cons_of_ne_nil
            (mt splitLines_eq_nil_iff.mp (not_not.mpr (mem_append_right r'.held more)))
          have long := le_length_of_continued absent first
          have := short line (by simp [first])
          rw [length_held] at long
          omega
        have running : r'.done = false := Bool.eq_false_iff.mpr fun done => room' (full done)
        rw [running, if_neg (by simp)] at ran
        refine ih ⟨running, by omega, absent', absent', length_held r', fun _ => rfl⟩ ?_ ran ?_
        · exact fun line member => short line (mem_append_right _ member)
        · rw [calls', every]
      · exact harmless_of_absent (by simp [absent, more])
    · exact harmless_of_absent (by simp [holding.unfinished, here])

end Serve

section Framing

variable {cut : ℕ → ℕ} {stream : List UInt8} {turns : ℕ}

theorem holding_accepted (buf : ℕ → UInt8) (daemon : σ) (stream : List UInt8) :
    Holding (accepted buf daemon) [] stream where
  running := rfl
  room := by
    change 0 < bufSize
    decide
  absent := not_mem_nil
  unfinished := not_mem_nil
  length := rfl
  agree _ := rfl

theorem answer_serving (lines : List (List UInt8)) : (answer serving () lines).calls = lines := by
  have all (calls : List (List UInt8)) :
      lines.foldl (Answered.line serving) ⟨calls, (), false⟩ = ⟨calls ++ lines, (), false⟩ := by
    induction lines generalizing calls with
    | nil => simp
    | cons line lines ih => simpa [Answered.line, serving] using ih (calls ++ [line])
  rw [answer, all, nil_append]

/-- Commands are framed independently of how they arrive, whatever the daemon does with them, if and only
if wiping one never hits what follows it. -/
theorem commands_framed_iff (positive : ∀ k, 0 < cut k)
    (short : ∀ line ∈ (stream.splitLines newline).1, line.length < bufSize) (enough : stream.length ≤ turns) :
    (∀ (σ : Type) (call : σ → List UInt8 → ℤ × σ) (buf : ℕ → UInt8) (daemon : σ),
      ∃ out, serve call cut turns (accepted buf daemon) stream = .ok out ∧
        out.calls = (answer call daemon (stream.splitLines newline).1).calls) ↔
    Harmless cut turns [] stream := by
  constructor
  · intro framed
    obtain ⟨out, ran, calls⟩ := framed Unit serving (fun _ => 0) ()
    rw [answer_serving] at calls
    exact harmless_of_served (holding_accepted _ () stream) short ran calls
  · intro harmless σ call buf daemon
    exact serve_harmless positive (holding_accepted buf daemon stream) short enough harmless

/-- Two commands that arrive in pieces of one byte. -/
theorem commands_framed_bytewise :
    ∃ out, serve serving (fun _ => 1) 6 (accepted (fun _ => 0) ()) [112, 10, 112, 113, 10, 112] = .ok out ∧
      out.calls = [[112], [112, 113]] :=
  (commands_framed_iff (fun _ => Nat.one_pos) (by decide +kernel) (by decide)).mpr (by decide +kernel)
    Unit serving (fun _ => 0) ()

/-- Three commands that arrive at once: the third one is called with a zero byte. -/
theorem pipelined_command_wiped :
    (∀ line ∈ (splitLines newline [112, 10, 112, 10, 112, 10]).1, line.length < bufSize) ∧
      ¬ ∀ (σ : Type) (call : σ → List UInt8 → ℤ × σ) (buf : ℕ → UInt8) (daemon : σ),
        ∃ out, serve call (fun _ => 6) 6 (accepted buf daemon) [112, 10, 112, 10, 112, 10] = .ok out ∧
          out.calls = (answer call daemon (splitLines newline [112, 10, 112, 10, 112, 10]).1).calls := by
  refine ⟨by decide, fun framed => ?_⟩
  obtain ⟨out, ran, calls⟩ := framed Unit serving (fun _ => 0) ()
  have called : (serve serving (fun _ => 6) 6 (accepted (fun _ => 0) ()) [112, 10, 112, 10, 112, 10]).map
      (·.calls) = .ok [[112], [112], [0]] := by decide +kernel
  rw [ran] at called
  have wiped : out.calls = [[112], [112], [0]] := Except.ok.inj called
  rw [wiped] at calls
  revert calls
  decide

end Framing

end Scubed3.ControlThread
