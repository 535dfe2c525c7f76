import Mathlib.Data.Int.Notation
import Mathlib.Data.Nat.Notation
import Mathlib.Tactic.Common
import Mathlib.Tactic.IntervalCases

/-! # Strings

A C string is the list of its bytes, without the terminating zero. The functions of the C library that
the program uses on strings are defined as it documents them, for the C locale. Formats have their
arguments already converted: each directive of two characters takes the next one.
-/

namespace Scubed3

def newline : UInt8 := 10

/-- The bytes of a string literal. -/
def ascii (text : String) : List UInt8 := text.toList.map fun c => c.toNat.toUInt8

/-- `printf`, for directives of two characters. -/
def printf : (format : List UInt8) → (args : List (List UInt8)) → List UInt8
  | 37 :: _ :: format, arg :: args => arg ++ printf format args
  | c :: format, args => c :: printf format args
  | [], _ => []

/-- `%u`. -/
def printNat (n : ℕ) : List UInt8 := (Nat.toDigits 10 n).map fun c => c.toNat.toUInt8

/-- `%d`. -/
def printInt (n : ℤ) : List UInt8 := if n < 0 then 45 :: printNat n.natAbs else printNat n.natAbs

/-- `%d` for a `uint32_t`. -/
def printInt32 (n : ℕ) : List UInt8 := printInt (Int.bmod n (2 ^ 32))

/-- `%07u`. -/
def printPadded (n : ℕ) : List UInt8 := List.replicate (7 - (printNat n).length) 48 ++ printNat n

/-- `%.1f` for `bytes/(1024.*1024.)`, which has no rounding error; the last digit is rounded to even. -/
def printMib (bytes : ℕ) : List UInt8 :=
  let tenths := bytes * 10 / 2 ^ 20
  let rest := bytes * 10 % 2 ^ 20
  let tenths := if rest > 2 ^ 19 ∨ rest = 2 ^ 19 ∧ tenths % 2 = 1 then tenths + 1 else tenths
  printNat (tenths / 10) ++ 46 :: printNat (tenths % 10)

/-- `isspace`. -/
def isSpace (c : UInt8) : Bool := c = 32 ∨ 9 ≤ c ∧ c ≤ 13

def isDigit (c : UInt8) : Bool := 48 ≤ c ∧ c ≤ 57

/-- `LONG_MIN` and `LONG_MAX`. -/
def longMin : ℤ := -2 ^ 63

def longMax : ℤ := 2 ^ 63 - 1

/-- The number that a list of digits stands for. -/
def digitsValue (digits : List UInt8) : ℕ := digits.foldl (fun n c => 10 * n + (c.toNat - 48)) 0

/-- `strtol`, base 10: the value and what `*end` points at; the last component says that `errno` is set. -/
def strtol (string : List UInt8) : ℤ × List UInt8 × Bool :=
  let trimmed := string.dropWhile isSpace
  let (negative, unsigned) :=
    match trimmed with
    | 45 :: rest => (true, rest)
    | 43 :: rest => (false, rest)
    | _ => (false, trimmed)
  let digits := unsigned.takeWhile isDigit
  if digits = [] then (0, string, false)
  else
    let value : ℤ := if negative then -digitsValue digits else digitsValue digits
    let rest := unsigned.dropWhile isDigit
    if value < longMin then (longMin, rest, true)
    else if longMax < value then (longMax, rest, true)
    else (value, rest, false)

/-- Conversion to `int`. -/
def toInt (value : ℤ) : ℤ := Int.bmod value (2 ^ 32)

/-- `strcasecmp(a, b) == 0`. -/
def equalFold (a b : List UInt8) : Bool :=
  let lower (c : UInt8) : UInt8 := if 65 ≤ c ∧ c ≤ 90 then c + 32 else c
  a.map lower = b.map lower

/-- The value of a hexadecimal digit. -/
def base16Digit (c : UInt8) : Option UInt8 :=
  if 48 ≤ c ∧ c ≤ 57 then some (c - 48)
  else if 65 ≤ c ∧ c ≤ 70 then some (c - 65 + 10)
  else if 97 ≤ c ∧ c ≤ 102 then some (c - 97 + 10)
  else none

/-- `unbase16`, for a string of even length; `none` is the return value -1. -/
def unbase16 : List UInt8 → Option (List UInt8)
  | high :: low :: rest => do
    let high ← base16Digit high
    let low ← base16Digit low
    let bytes ← unbase16 rest
    return (16 * high + low) :: bytes
  | _ => some []

/-- What stands before the first `c`, and what follows it. -/
def strchr (string : List UInt8) (c : UInt8) : Option (List UInt8 × List UInt8) :=
  match string.dropWhile (· ≠ c) with
  | [] => none
  | _ :: rest => some (string.takeWhile (· ≠ c), rest)

section Lines

variable {format : List UInt8} {args : List (List UInt8)} {c : UInt8}

/-- A formatted text has no byte that neither its format nor its arguments have. -/
theorem not_mem_printf (inFormat : c ∉ format) (inArgs : ∀ arg ∈ args, c ∉ arg) : c ∉ printf format args := by
  fun_induction printf format args with
  | case1 directive format arg args ih =>
    rw [List.mem_append, not_or]
    refine ⟨inArgs arg List.mem_cons_self, ih ?_ fun arg member => inArgs arg (List.mem_cons_of_mem _ member)⟩
    exact fun member => inFormat (List.mem_cons_of_mem _ (List.mem_cons_of_mem _ member))
  | case2 args d format _ ih =>
    rw [List.mem_cons, not_or] at inFormat ⊢
    exact ⟨inFormat.1, ih inFormat.2 inArgs⟩
  | case3 => exact inFormat

theorem isDigit_of_mem_printNat {n : ℕ} (member : c ∈ printNat n) : isDigit c = true := by
  obtain ⟨digit, inDigits, rfl⟩ := List.mem_map.mp member
  have range := Nat.isDigit_of_mem_toDigits (by decide) (by decide) inDigits
  simp only [Char.isDigit, Bool.and_eq_true, decide_eq_true_eq, UInt32.le_iff_toNat_le] at range
  have lower : 48 ≤ digit.toNat := range.1
  have upper : digit.toNat ≤ 57 := range.2
  generalize digit.toNat = k at lower upper
  interval_cases k <;> rfl

end Lines

end Scubed3
