import Scubed3.Model.CommandLine
import Scubed3.Server.Handlers

/-! # Which integers `parse_int` reads

Both versions of `parse_int` store the result of `strtol` in an `int` before they compare it with the limits
of a `long`, so that the comparison never holds. An integer that does not fit is truncated, and nothing is
read as zero. The version of the server passes on what the function returned that answered with the error,
which is zero if the answer could be sent: its callers go on with what their variable held before.
-/

namespace Scubed3

open List (mem_cons_self)

/-- The string is `n` in decimal, as `strtol` reads it: white space, a sign, and digits up to its end. -/
def Denotes (string : List UInt8) (n : ℤ) : Prop :=
  ∃ space sign digits, (∀ c ∈ space, isSpace c) ∧ digits ≠ [] ∧ (∀ c ∈ digits, isDigit c) ∧
    string = space ++ (sign ++ digits) ∧
      ((sign = [] ∨ sign = [43]) ∧ n = digitsValue digits ∨ sign = [45] ∧ n = -digitsValue digits)

/-- The string is an integer that an `int` represents. -/
def DenotesInt (string : List UInt8) (n : ℤ) : Prop := Denotes string n ∧ -2 ^ 31 ≤ n ∧ n < 2 ^ 31

/-- The string is not empty, and it is no integer. -/
def Garbage (string : List UInt8) : Prop := string ≠ [] ∧ ∀ n, ¬ Denotes string n

section Strtol

variable {string : List UInt8} {n : ℤ}

theorem not_isSpace_of_isDigit {c : UInt8} (digit : isDigit c = true) : isSpace c = false := by
  simp only [isDigit, isSpace, Bool.decide_and, Bool.and_eq_true, decide_eq_true_eq, UInt8.le_iff_toNat_le,
    Bool.decide_or, Bool.or_eq_false_iff, decide_eq_false_iff_not, Bool.and_eq_false_iff] at digit ⊢
  have low : 48 ≤ c.toNat := digit.1
  refine ⟨?_, .inr ?_⟩
  · rintro rfl
    revert low
    decide
  · intro high
    have high : c.toNat ≤ 13 := high
    omega

theorem dropWhile_isSpace {space rest : List UInt8} (blank : ∀ c ∈ space, isSpace c = true)
    (starts : ∀ c ∈ rest.head?, isSpace c = false) : (space ++ rest).dropWhile isSpace = rest := by
  rw [List.dropWhile_append_of_pos blank]
  cases rest with
  | nil => rfl
  | cons c rest => exact List.dropWhile_cons_of_neg (by rw [starts c rfl]; decide)

/-- The sign that `strtol` reads: whether it is a minus, and what follows it. -/
def readSign (trimmed : List UInt8) : Bool × List UInt8 :=
  match trimmed with
  | 45 :: rest => (true, rest)
  | 43 :: rest => (false, rest)
  | _ => (false, trimmed)

/-- The number that follows a sign. -/
def signed (negative : Bool) (digits : List UInt8) : ℤ :=
  if negative then -digitsValue digits else digitsValue digits

/-- What `readSign` takes is a sign, or nothing. -/
theorem readSign_spec (trimmed : List UInt8) : ∃ sign, trimmed = sign ++ (readSign trimmed).2 ∧
    ((sign = [] ∨ sign = [43]) ∧ (readSign trimmed).1 = false ∨ sign = [45] ∧ (readSign trimmed).1 = true) := by
  unfold readSign
  split
  · exact ⟨[45], rfl, .inr ⟨rfl, rfl⟩⟩
  · exact ⟨[43], rfl, .inl ⟨.inr rfl, rfl⟩⟩
  · exact ⟨[], rfl, .inl ⟨.inl rfl, rfl⟩⟩

theorem readSign_digits {digits : List UInt8} (all : ∀ c ∈ digits, isDigit c = true) :
    readSign digits = (false, digits) := by
  unfold readSign
  split
  · exact absurd (all 45 mem_cons_self) (by decide)
  · exact absurd (all 43 mem_cons_self) (by decide)
  · rfl

/-- `strtol`, without its intermediate variables. -/
theorem strtol_eq (string : List UInt8) : strtol string =
    if (readSign (string.dropWhile isSpace)).2.takeWhile isDigit = [] then (0, string, false)
    else
      let value := signed (readSign (string.dropWhile isSpace)).1
        ((readSign (string.dropWhile isSpace)).2.takeWhile isDigit)
      let rest := (readSign (string.dropWhile isSpace)).2.dropWhile isDigit
      if value < longMin then (longMin, rest, true)
      else if longMax < value then (longMax, rest, true)
      else (value, rest, false) := rfl

/-- `strtol` reads the whole of an integer, and clips what a `long` cannot hold. -/
theorem Denotes.strtol (denotes : Denotes string n) :
    (strtol string).1 = max longMin (min n longMax) ∧ (Scubed3.strtol string).2.1 = [] := by
  obtain ⟨space, sign, digits, blank, some, all, rfl, value⟩ := denotes
  obtain ⟨first, others, rfl⟩ := List.exists_cons_of_ne_nil some
  have starts : ∀ c ∈ (sign ++ first :: others).head?, isSpace c = false := by
    rcases value with ⟨rfl | rfl, -⟩ | ⟨rfl, -⟩ <;> rintro c ⟨⟩
    · exact not_isSpace_of_isDigit (all first mem_cons_self)
    all_goals rfl
  obtain ⟨negative, read, rfl⟩ : ∃ negative, readSign (sign ++ first :: others) = (negative, first :: others) ∧
      n = signed negative (first :: others) := by
    rcases value with ⟨rfl | rfl, rfl⟩ | ⟨rfl, rfl⟩
    · exact ⟨false, readSign_digits all, rfl⟩
    · exact ⟨false, rfl, rfl⟩
    · exact ⟨true, rfl, rfl⟩
  have taken : (first :: others).takeWhile isDigit = first :: others := List.takeWhile_eq_self_iff.mpr all
  have order : longMin < longMax := by decide
  rw [strtol_eq, dropWhile_isSpace blank starts, read, taken, List.dropWhile_eq_nil_iff.mpr all, if_neg some]
  dsimp only
  split
  · next low => exact ⟨(max_eq_left (min_le_of_left_le low.le)).symm, rfl⟩
  · next low =>
    split
    · next high => exact ⟨by rw [min_eq_right high.le, max_eq_right order.le], rfl⟩
    · next high => exact ⟨by rw [min_eq_left (not_lt.mp high), max_eq_right (not_lt.mp low)], rfl⟩

/-- What `strtol` reads to its end is an integer, unless it is empty. -/
theorem denotes_of_strtol (whole : (strtol string).2.1 = []) (some : string ≠ []) : ∃ n, Denotes string n := by
  obtain ⟨sign, trimmed, signs⟩ := readSign_spec (string.dropWhile isSpace)
  have parts := List.takeWhile_append_dropWhile (p := isSpace) (l := string)
  have digits := List.takeWhile_append_dropWhile (p := isDigit) (l := (readSign (string.dropWhile isSpace)).2)
  rw [strtol_eq] at whole
  split at whole
  · exact absurd whole some
  · next digit =>
    have rest : (readSign (string.dropWhile isSpace)).2.dropWhile isDigit = [] := by
      dsimp only at whole
      split at whole
      · exact whole
      · split at whole <;> exact whole
    rw [rest, List.append_nil] at digits
    rw [digits] at digit
    refine ⟨signed (readSign (string.dropWhile isSpace)).1 (readSign (string.dropWhile isSpace)).2,
      string.takeWhile isSpace, sign, (readSign (string.dropWhile isSpace)).2, fun c => List.mem_takeWhile_imp,
      digit, ?_, (trimmed ▸ parts).symm, ?_⟩
    · rw [← digits]
      exact fun c => List.mem_takeWhile_imp
    · rcases signs with ⟨plus, positive⟩ | ⟨minus, negative⟩
      · exact .inl ⟨plus, by rw [positive, signed, if_neg Bool.false_ne_true]⟩
      · exact .inr ⟨minus, by rw [negative, signed, if_pos rfl]⟩

theorem Denotes.ne_nil (denotes : Denotes string n) : string ≠ [] := by
  obtain ⟨space, sign, digits, -, some, -, rfl, -⟩ := denotes
  simp [some]

/-- A string is an integer, or it is empty, or `strtol` does not read it to its end. -/
theorem garbage_iff : Garbage string ↔ (strtol string).2.1 ≠ [] := by
  constructor
  · rintro ⟨some, none⟩ whole
    obtain ⟨n, denotes⟩ := denotes_of_strtol whole some
    exact none n denotes
  · intro stops
    refine ⟨?_, fun n denotes => stops denotes.strtol.2⟩
    rintro rfl
    exact stops rfl

/-- An integer that an `int` represents is read exactly. -/
theorem DenotesInt.strtol (denotes : DenotesInt string n) :
    toInt (strtol string).1 = n ∧ (Scubed3.strtol string).2.1 = [] := by
  obtain ⟨denotes, low, high⟩ := denotes
  obtain ⟨value, whole⟩ := denotes.strtol
  have clipped : max longMin (min n longMax) = n := by
    simp only [longMin, longMax]
    omega
  refine ⟨?_, whole⟩
  rw [value, clipped, toInt]
  exact Int.bmod_eq_of_le (by omega) (by omega)

theorem DenotesInt.unique {m : ℤ} (first : DenotesInt string n) (second : DenotesInt string m) : n = m :=
  first.strtol.1.symm.trans second.strtol.1

/-- The result of `strtol` is never at a limit of `long` once it is an `int`. -/
theorem toInt_ne_limits (value : ℤ) : ¬(toInt value = longMin ∨ toInt value = longMax) := by
  have small := Int.bmod_lt (x := value) (m := 2 ^ 32) (by decide)
  have large := Int.le_bmod (x := value) (m := 2 ^ 32) (by decide)
  rintro (same | same) <;> simp only [toInt, longMin, longMax] at same <;> omega

end Strtol

/-! ### The server -/

namespace Control

variable {u : Setup}

/-- `parse_int` of the server if an earlier call may have set `errno`. -/
def parseIntErrno (errno : Bool) (s : Socket) (r : ℤ) (in_ : List UInt8) : (ℤ × Socket) × ℤ :=
  let (value, end_, set) := strtol in_
  let ret := toInt value
  if (errno ∨ set) ∧ (ret = longMin ∨ ret = longMax) then
    (controlWriteComplete s true (ascii "integer out of range\n"), r)
  else if end_ ≠ [] then
    (controlWriteComplete s true (printf (ascii "unable to parse ->%s<-\n") [in_]), r)
  else ((0, s), ret)

/-- What `errno` was does not matter. -/
theorem parseIntErrno_eq (errno : Bool) (s : Socket) (r : ℤ) (in_ : List UInt8) :
    parseIntErrno errno s r in_ = parseInt s r in_ := by
  unfold parseIntErrno parseInt
  dsimp only
  simp only [toInt_ne_limits, and_false, if_false]

/-- The string is read as it should be: an integer that fits is stored, and for anything else an error is
sent and the caller is told not to go on. -/
def Reads (errno : Bool) (s : Socket) (r : ℤ) (string : List UInt8) : Prop :=
  (∀ n, DenotesInt string n → parseIntErrno errno s r string = ((0, s), n)) ∧
    ((∀ n, ¬ DenotesInt string n) → ∃ message,
      (parseIntErrno errno s r string).1 = controlWriteComplete s true message ∧
        (parseIntErrno errno s r string).1.1 ≠ 0)

/-- The answer to what cannot be parsed. -/
def unparsed (s : Socket) (string : List UInt8) : ℤ × Socket :=
  controlWriteComplete s true (printf (ascii "unable to parse ->%s<-\n") [string])

theorem reads_iff (errno : Bool) (s : Socket) (r : ℤ) (string : List UInt8) : Reads errno s r string ↔
    (∃ n, DenotesInt string n) ∨ Garbage string ∧ (unparsed s string).1 ≠ 0 := by
  rw [Reads, parseIntErrno_eq, garbage_iff]
  by_cases fits : ∃ n, DenotesInt string n
  · obtain ⟨n, denotes⟩ := fits
    refine iff_of_true ⟨fun m same => ?_, fun none => absurd denotes (none n)⟩ (.inl ⟨n, denotes⟩)
    rw [parseInt_parsed denotes.strtol.2, denotes.strtol.1, denotes.unique same]
  · by_cases stops : (strtol string).2.1 = []
    · refine iff_of_false (fun reads => ?_) ?_
      · obtain ⟨message, -, nonzero⟩ := reads.2 (not_exists.mp fits)
        rw [parseInt_parsed stops] at nonzero
        exact nonzero rfl
      · rintro (denotes | ⟨unread, -⟩)
        · exact fits denotes
        · exact unread stops
    · rw [parseInt_unparsed stops]
      constructor
      · intro reads
        exact .inr ⟨stops, (reads.2 (not_exists.mp fits)).choose_spec.2⟩
      · rintro (denotes | ⟨-, nonzero⟩)
        · exact absurd denotes fits
        · exact ⟨fun n denotes => absurd ⟨n, denotes⟩ fits, fun _ => ⟨_, rfl, nonzero⟩⟩

/-- What `control_cycle` does with its integer. -/
def cycleTimes (env : Env) (s : Socket) (d : Daemon u) (entry : FuseIoEntry u) (times : ℤ) :
    Draw Failure (ℤ × Socket × Daemon u) :=
  if times < 0 then reply (controlWriteComplete s true (ascii "integer must be positive")) d
  else do
    let l ← cycleTurns (u.params entry.c) env.fuel times.toNat (entry.io.attach d.b).l
    reply (controlWriteComplete s false (ascii "see debug output")) (d.putIo entry { entry.io with l })

/-- What `control_resize` does with its integers. -/
def resizeTo (env : Env) (s : Socket) (d : Daemon u) (entry : FuseIoEntry u) (name : List UInt8)
    (size reserved : ℤ) : Draw Failure (ℤ × Socket × Daemon u) := do
  match ← resize (u.params entry.c) env.fuel (entry.io.attach d.b) size reserved with
  | (.ok, io) => reply (controlWriteSilentSuccess s) (d.putIo entry io)
  | (.refused format, _) =>
    let args := resizeArgs name size reserved u.b.totalMacroblocks format
    reply (controlWriteComplete s true (printf (ascii format) args)) d

variable {env : Env} {s : Socket} {d : Daemon u} {entry : FuseIoEntry u} {name count size reserved : List UInt8}

/-- `control_cycle` goes on with the integer if there is one. -/
theorem controlCycle_denotes {n : ℤ} (found : d.find name = some entry) (denotes : DenotesInt count n) :
    controlCycle env s d name count = cycleTimes env s d entry n := by
  rw [controlCycle, found]
  dsimp only
  rw [parseInt_parsed denotes.strtol.2, denotes.strtol.1, if_neg (not_not.mpr rfl)]
  rfl

/-- `control_cycle` returns if it is told not to go on. -/
theorem controlCycle_stops (found : d.find name = some entry) (stops : (parseInt s env.times count).1.1 ≠ 0) :
    controlCycle env s d name count = reply (-1, (parseInt s env.times count).1.2) d := by
  rw [controlCycle, found]
  exact if_pos stops

theorem controlResize_denotes {m n : ℤ} (found : d.find name = some entry) (idle : entry.io.inuse = false)
    (sized : DenotesInt size m) (denotes : DenotesInt reserved n) :
    controlResize env s d name size reserved = resizeTo env s d entry name m n := by
  rw [controlResize, found]
  dsimp only
  rw [if_neg (by rw [idle]; exact Bool.false_ne_true), parseInt_parsed sized.strtol.2, sized.strtol.1]
  dsimp only
  rw [if_neg (not_not.mpr rfl), parseInt_parsed denotes.strtol.2, denotes.strtol.1, if_neg (not_not.mpr rfl)]
  rfl

theorem controlResize_stops (found : d.find name = some entry) (idle : entry.io.inuse = false)
    (stops : (parseInt s 0 size).1.1 ≠ 0) :
    controlResize env s d name size reserved = reply (-1, (parseInt s 0 size).1.2) d := by
  rw [controlResize, found]
  dsimp only
  rw [if_neg (by rw [idle]; exact Bool.false_ne_true)]
  exact if_pos stops

theorem controlResize_stops_reserved (found : d.find name = some entry) (idle : entry.io.inuse = false) {m : ℤ}
    (sized : DenotesInt size m) (stops : (parseInt s 0 reserved).1.1 ≠ 0) :
    controlResize env s d name size reserved = reply (-1, (parseInt s 0 reserved).1.2) d := by
  rw [controlResize, found]
  dsimp only
  rw [if_neg (by rw [idle]; exact Bool.false_ne_true), parseInt_parsed sized.strtol.2]
  dsimp only
  rw [if_neg (not_not.mpr rfl)]
  exact if_pos stops

/-- A caller of `parse_int` goes on with the integer that the string denotes, or returns -1. -/
def Heeds (string : List UInt8) (d : Daemon u) (goOn : ℤ → Draw Failure (ℤ × Socket × Daemon u))
    (result : Draw Failure (ℤ × Socket × Daemon u)) : Prop :=
  (∀ n, DenotesInt string n → result = goOn n) ∧
    ((∀ n, ¬ DenotesInt string n) → ∃ s, result = reply (-1, s) d)

theorem Reads.stops {r : ℤ} (reads : Reads false s r count) (none : ∀ n, ¬ DenotesInt count n) :
    (parseInt s r count).1.1 ≠ 0 := by
  obtain ⟨-, -, nonzero⟩ := reads.2 none
  rwa [parseIntErrno_eq] at nonzero

theorem controlCycle_heeds (found : d.find name = some entry) (reads : Reads false s env.times count) :
    Heeds count d (cycleTimes env s d entry) (controlCycle env s d name count) :=
  ⟨fun _ denotes => controlCycle_denotes found denotes,
    fun none => ⟨_, controlCycle_stops found (reads.stops none)⟩⟩

theorem controlResize_heeds (found : d.find name = some entry) (idle : entry.io.inuse = false) {k : ℤ}
    (denotes : DenotesInt reserved k) (reads : Reads false s 0 size) :
    Heeds size d (fun n => resizeTo env s d entry name n k) (controlResize env s d name size reserved) :=
  ⟨fun _ sized => controlResize_denotes found idle sized denotes,
    fun none => ⟨_, controlResize_stops found idle (reads.stops none)⟩⟩

theorem controlResize_heeds_reserved (found : d.find name = some entry) (idle : entry.io.inuse = false) {k : ℤ}
    (sized : DenotesInt size k) (reads : Reads false s 0 reserved) :
    Heeds reserved d (fun n => resizeTo env s d entry name k n) (controlResize env s d name size reserved) :=
  ⟨fun _ denotes => controlResize_denotes found idle sized denotes,
    fun none => ⟨_, controlResize_stops_reserved found idle sized (reads.stops none)⟩⟩

end Control

/-! ### The client -/

namespace Scubed3ctl

/-- As `Control.Reads`, for the client, which prints its errors. -/
def Reads (errno : Bool) (report : Report) (r : ℤ) (string : List UInt8) : Prop :=
  (∀ n, DenotesInt string n → parseInt errno report r string = ((0, report), n)) ∧
    ((∀ n, ¬ DenotesInt string n) → ∃ message, parseInt errno report r string =
      ((-1, { printed := report.printed ++ message, exitFailure := true }), r))

theorem parseInt_parsed {errno : Bool} {report : Report} {r : ℤ} {in_ : List UInt8}
    (parsed : (strtol in_).2.1 = []) : parseInt errno report r in_ = ((0, report), toInt (strtol in_).1) := by
  unfold parseInt
  dsimp only
  rw [if_neg fun both => toInt_ne_limits _ both.2, if_neg (not_not.mpr parsed)]

theorem parseInt_unparsed {errno : Bool} {report : Report} {r : ℤ} {in_ : List UInt8}
    (unparsed : (strtol in_).2.1 ≠ []) : parseInt errno report r in_ =
      ((-1, {
        printed := report.printed ++ printf (ascii "unable to parse ->%s<-\n") [in_]
        exitFailure := true }), r) := by
  unfold parseInt
  dsimp only
  rw [if_neg fun both => toInt_ne_limits _ both.2, if_pos unparsed]

theorem reads_iff (errno : Bool) (report : Report) (r : ℤ) (string : List UInt8) :
    Reads errno report r string ↔ (∃ n, DenotesInt string n) ∨ Garbage string := by
  rw [Reads, garbage_iff]
  by_cases fits : ∃ n, DenotesInt string n
  · obtain ⟨n, denotes⟩ := fits
    refine iff_of_true ⟨fun m same => ?_, fun none => absurd denotes (none n)⟩ (.inl ⟨n, denotes⟩)
    rw [parseInt_parsed denotes.strtol.2, denotes.strtol.1, denotes.unique same]
  · by_cases stops : (strtol string).2.1 = []
    · refine iff_of_false (fun reads => ?_) (not_or.mpr ⟨fits, not_not.mpr stops⟩)
      obtain ⟨message, same⟩ := reads.2 (not_exists.mp fits)
      rw [parseInt_parsed stops] at same
      cases same
    · exact iff_of_true ⟨fun n denotes => absurd ⟨n, denotes⟩ fits, fun _ => ⟨_, parseInt_unparsed stops⟩⟩
        (.inr stops)

end Scubed3ctl

/-- Both versions of `parse_int` read an integer that fits, and report what is no integer, but not an integer
that does not fit. The server's goes on after its report, unless this could not be sent. -/
theorem parseInt_exact (string : List UInt8) :
    (∀ errno s r, Control.Reads errno s r string ↔
      (∃ n, DenotesInt string n) ∨ Garbage string ∧ (Control.unparsed s string).1 ≠ 0) ∧
    (∀ errno report r, Scubed3ctl.Reads errno report r string ↔ (∃ n, DenotesInt string n) ∨ Garbage string) ∧
    ∀ (u : Setup) (env : Env) (s : Socket) (d : Daemon u) (entry : FuseIoEntry u) (name other : List UInt8) (k : ℤ),
      d.find name = some entry →
      (Control.Reads false s env.times string → Control.Heeds string d (Control.cycleTimes env s d entry)
        (Control.controlCycle env s d name string)) ∧
      (entry.io.inuse = false → DenotesInt other k → Control.Reads false s 0 string →
        Control.Heeds string d (fun n => Control.resizeTo env s d entry name n k)
          (Control.controlResize env s d name string other) ∧
        Control.Heeds string d (fun n => Control.resizeTo env s d entry name k n)
          (Control.controlResize env s d name other string)) :=
  ⟨fun errno s r => Control.reads_iff errno s r string,
    fun errno report r => Scubed3ctl.reads_iff errno report r string,
    fun _ _ _ _ _ _ _ _ found => ⟨Control.controlCycle_heeds found, fun idle denotes reads =>
      ⟨Control.controlResize_heeds found idle denotes reads,
        Control.controlResize_heeds_reserved found idle denotes reads⟩⟩⟩

theorem denotesInt_twelve : DenotesInt (ascii " +12") 12 :=
  ⟨⟨[32], [43], [49, 50], by decide +kernel, by decide, by decide +kernel, by decide, .inl ⟨.inr rfl, by decide⟩⟩, by decide,
    by decide⟩

theorem parseInt_exact_twelve : Control.Reads true { accepts := fun _ => 0 } 5 (ascii " +12") :=
  ((parseInt_exact (ascii " +12")).1 true _ 5).mpr (.inl ⟨12, denotesInt_twelve⟩)

/-- 4294967297 is read as 1, by the server and by the client. -/
theorem parseInt_truncates :
    Control.parseInt { accepts := fun _ => 9 } 5 (ascii "4294967297") = ((0, { accepts := fun _ => 9 }), 1) ∧
    ¬ Control.Reads false { accepts := fun _ => 9 } 5 (ascii "4294967297") ∧
    ¬ Scubed3ctl.Reads false {} 5 (ascii "4294967297") := by
  have read : toInt (strtol (ascii "4294967297")).1 = 1 ∧ (strtol (ascii "4294967297")).2.1 = [] := by
    decide +kernel
  have large : ∀ n, ¬ DenotesInt (ascii "4294967297") n := by
    intro n denotes
    have whole : (strtol (ascii "4294967297")).1 = 4294967297 := by decide +kernel
    have value := denotes.1.strtol.1
    rw [whole] at value
    have := denotes.2.1
    have := denotes.2.2
    simp only [longMin, longMax] at value
    omega
  refine ⟨by rw [Control.parseInt_parsed read.2, read.1], fun reads => ?_, fun reads => ?_⟩
  · have stops := reads.stops large
    rw [Control.parseInt_parsed read.2] at stops
    exact stops rfl
  · obtain ⟨message, same⟩ := reads.2 large
    rw [Scubed3ctl.parseInt_parsed read.2] at same
    cases same

end Scubed3
