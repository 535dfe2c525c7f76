import Mathlib.Data.Nat.Notation
import Mathlib.Tactic.Common

/-! # Lines that end in a separator

A stream of lines is the concatenation of its lines, each followed by the separator. `splitLines` cuts
a list at its separators; what follows the last one is an unfinished line. The two are inverse to
each other, and a stream may be cut anywhere: the unfinished line is continued by what comes next.
-/

namespace List

variable {α : Type} (sep : α)

/-- Every line followed by the separator. -/
def encodeLines (lines : List (List α)) : List α := lines.flatMap (· ++ [sep])

/-- The finished lines and the unfinished one. -/
def splitLines [DecidableEq α] : List α → List (List α) × List α
  | [] => ([], [])
  | x :: xs =>
    if x = sep then ([] :: (splitLines xs).1, (splitLines xs).2)
    else
      match splitLines xs with
      | ([], tail) => ([], x :: tail)
      | (line :: lines, tail) => ((x :: line) :: lines, tail)

variable {sep} {line tail : List α} {lines : List (List α)}

@[simp] theorem encodeLines_nil : encodeLines sep [] = [] := rfl

@[simp] theorem encodeLines_cons (line : List α) (lines : List (List α)) :
    encodeLines sep (line :: lines) = line ++ sep :: encodeLines sep lines := by
  simp [encodeLines]

@[simp] theorem encodeLines_append (lines lines' : List (List α)) :
    encodeLines sep (lines ++ lines') = encodeLines sep lines ++ encodeLines sep lines' := by
  simp [encodeLines]

variable [DecidableEq α]

theorem splitLines_of_not_mem (absent : sep ∉ tail) : splitLines sep tail = ([], tail) := by
  induction tail with
  | nil => rfl
  | cons x tail ih =>
    obtain ⟨different, absent⟩ := not_or.mp (mt mem_cons.mpr absent)
    rw [splitLines, if_neg (Ne.symm different), ih absent]

theorem splitLines_line (absent : sep ∉ line) (rest : List α) :
    splitLines sep (line ++ sep :: rest) = (line :: (splitLines sep rest).1, (splitLines sep rest).2) := by
  induction line with
  | nil => simp [splitLines]
  | cons x line ih =>
    obtain ⟨different, absent⟩ := not_or.mp (mt mem_cons.mpr absent)
    rw [cons_append, splitLines, if_neg (Ne.symm different), ih absent]

/-- Lines without a separator are found again. -/
theorem splitLines_encodeLines (absent : ∀ line ∈ lines, sep ∉ line) (rest : List α) :
    splitLines sep (encodeLines sep lines ++ rest) = (lines ++ (splitLines sep rest).1, (splitLines sep rest).2) := by
  induction lines with
  | nil => rfl
  | cons line lines ih =>
    rw [encodeLines_cons, append_assoc, cons_append, splitLines_line (absent line mem_cons_self),
      ih fun l member => absent l (mem_cons_of_mem _ member)]
    rfl

/-- A list either is one unfinished line or starts with a finished one. -/
theorem line_cases (sep : α) (s : List α) :
    sep ∉ s ∨ ∃ line rest, s = line ++ sep :: rest ∧ sep ∉ line := by
  induction s with
  | nil => exact .inl not_mem_nil
  | cons x s ih =>
    by_cases same : x = sep
    · exact .inr ⟨[], s, by rw [same]; rfl, not_mem_nil⟩
    · rcases ih with absent | ⟨line, rest, rfl, absent⟩
      · exact .inl fun member => (mem_cons.mp member).elim (fun h => same h.symm) absent
      · refine .inr ⟨x :: line, rest, rfl, fun member => ?_⟩
        exact (mem_cons.mp member).elim (fun h => same h.symm) absent

/-- Cutting and joining again. -/
theorem encodeLines_splitLines (sep : α) (s : List α) :
    encodeLines sep (splitLines sep s).1 ++ (splitLines sep s).2 = s := by
  induction length : s.length using Nat.strongRecOn generalizing s with
  | _ n ih =>
    rcases line_cases sep s with absent | ⟨line, rest, rfl, absent⟩
    · rw [splitLines_of_not_mem absent]
      rfl
    · rw [splitLines_line absent, encodeLines_cons, append_assoc, cons_append,
        ih rest.length (by simp at length; omega) rest rfl]

/-- No line contains the separator. -/
theorem not_mem_splitLines (sep : α) (s : List α) :
    (∀ line ∈ (splitLines sep s).1, sep ∉ line) ∧ sep ∉ (splitLines sep s).2 := by
  induction length : s.length using Nat.strongRecOn generalizing s with
  | _ n ih =>
    rcases line_cases sep s with absent | ⟨line, rest, rfl, absent⟩
    · rw [splitLines_of_not_mem absent]
      exact ⟨by simp, absent⟩
    · obtain ⟨lines, tail⟩ := ih rest.length (by simp at length; omega) rest rfl
      rw [splitLines_line absent]
      refine ⟨fun l member => ?_, tail⟩
      rcases mem_cons.mp member with rfl | member
      · exact absent
      · exact lines l member

/-- The lines of a stream that was written as lines. -/
theorem splitLines_eq (clean : ∀ line ∈ lines, sep ∉ line) (absent : sep ∉ tail) :
    splitLines sep (encodeLines sep lines ++ tail) = (lines, tail) := by
  rw [splitLines_encodeLines clean, splitLines_of_not_mem absent, append_nil]

/-- The first separator ends the first line. -/
theorem eq_cons_of_line {rest : List α} (clean : ∀ l ∈ lines, sep ∉ l) (unfinished : sep ∉ tail)
    (absent : sep ∉ line) (same : line ++ sep :: rest = encodeLines sep lines ++ tail) :
    ∃ lines', lines = line :: lines' ∧ rest = encodeLines sep lines' ++ tail := by
  have split := congrArg (splitLines sep) same
  rw [splitLines_line absent, splitLines_eq clean unfinished, Prod.mk.injEq] at split
  refine ⟨(splitLines sep rest).1, split.1.symm, ?_⟩
  conv_lhs => rw [← encodeLines_splitLines sep rest, split.2]

/-- A stream may be cut anywhere. -/
theorem splitLines_append (sep : α) (s t : List α) :
    splitLines sep (s ++ t) = ((splitLines sep s).1 ++ (splitLines sep ((splitLines sep s).2 ++ t)).1,
      (splitLines sep ((splitLines sep s).2 ++ t)).2) := by
  conv_lhs => rw [← encodeLines_splitLines sep s, append_assoc]
  exact splitLines_encodeLines (not_mem_splitLines sep s).1 _

/-- What comes next continues an unfinished line. -/
theorem le_length_of_continued (absent : sep ∉ tail) {s : List α}
    (first : (splitLines sep (tail ++ s)).1 = line :: lines) : tail.length ≤ line.length := by
  rcases line_cases sep s with none | ⟨line', rest, rfl, absent'⟩
  · rw [splitLines_of_not_mem (by simp [absent, none])] at first
    cases first
  · rw [← append_assoc, splitLines_line (by simp [absent, absent'])] at first
    rw [← (cons.inj first).1, length_append]
    exact Nat.le_add_right _ _

/-- An unfinished line is part of a finished one as soon as a separator follows. -/
theorem prefix_of_continued {s : List α} (absent : sep ∉ tail) (more : sep ∈ s) :
    tail <+: encodeLines sep (splitLines sep (tail ++ s)).1 := by
  rcases line_cases sep s with none | ⟨line, rest, rfl, absent'⟩
  · exact absurd more none
  · rw [← append_assoc, splitLines_line (by simp [absent, absent']), encodeLines_cons, append_assoc]
    exact prefix_append _ _

/-- There is no line without a separator. -/
theorem splitLines_eq_nil_iff {s : List α} : (splitLines sep s).1 = [] ↔ sep ∉ s := by
  rcases line_cases sep s with absent | ⟨line, rest, rfl, absent⟩
  · rw [splitLines_of_not_mem absent]
    exact ⟨fun _ => absent, fun _ => rfl⟩
  · rw [splitLines_line absent]
    simp

end List
