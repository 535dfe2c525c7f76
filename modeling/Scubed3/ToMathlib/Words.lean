import Mathlib.Data.List.DropRight
import Mathlib.Data.List.TakeWhile
import Mathlib.Tactic.Common

/-! # Words between separators

The words of a list are the maximal non-empty parts without a separator. A list is blank, or it begins with
blanks and a word and either ends there or goes on with a separator; induction over the words of a list
uses this case distinction.
-/

namespace List

variable {α : Type} [DecidableEq α] {sep : α} {l word blank : List α}

/-- The maximal non-empty parts without a separator. -/
def words (sep : α) (l : List α) : List (List α) := (l.splitOn sep).filter fun part => part ≠ []

@[simp] theorem words_nil : words sep [] = [] := by simp [words]

@[simp] theorem words_cons_sep : words sep (sep :: l) = words sep l := by
  simp [words, splitOn, splitOnP_cons_eq_if_modifyHead]

theorem words_blank_append (blanks : ∀ c ∈ blank, c = sep) : words sep (blank ++ l) = words sep l := by
  induction blank with
  | nil => rfl
  | cons c blank ih =>
    obtain ⟨rfl, blanks⟩ := forall_mem_cons.mp blanks
    rw [cons_append, words_cons_sep, ih blanks]

theorem words_blank (blanks : ∀ c ∈ blank, c = sep) : words sep blank = [] := by
  rw [← append_nil blank, words_blank_append blanks, words_nil]

theorem words_word (some : word ≠ []) (clean : sep ∉ word) : words sep word = [word] := by
  have single : word.splitOn sep = [word] := splitOnP_eq_singleton fun c member => by
    simpa using ne_of_mem_of_not_mem member clean
  simp [words, single, some]

theorem words_word_append (some : word ≠ []) (clean : sep ∉ word) :
    words sep (word ++ sep :: l) = word :: words sep l := by
  have first : (word ++ sep :: l).splitOn sep = word :: l.splitOn sep :=
    splitOnP_append_cons_of_forall_mem (fun c member => by simpa using ne_of_mem_of_not_mem member clean) sep
      (by simp) l
  simp [words, first, some]

/-- A list is blank, or it has a first word. -/
theorem blank_or_word (sep : α) (l : List α) : (∀ c ∈ l, c = sep) ∨
    ∃ blank word rest, l = blank ++ (word ++ rest) ∧ (∀ c ∈ blank, c = sep) ∧ word ≠ [] ∧ sep ∉ word ∧
      (rest = [] ∨ ∃ tail, rest = sep :: tail) := by
  have parts := takeWhile_append_dropWhile (p := (· = sep)) (l := l)
  have blanks : ∀ c ∈ l.takeWhile (· = sep), c = sep := fun c member => by simpa using mem_takeWhile_imp member
  cases trimmed : l.dropWhile (· = sep) with
  | nil =>
    rw [trimmed, append_nil] at parts
    exact .inl (parts ▸ blanks)
  | cons first others =>
    have noSep : ¬ first = sep := by
      have head := head_dropWhile_not (p := (· = sep)) (l := l) (by rw [trimmed]; exact cons_ne_nil _ _)
      simpa only [trimmed, head_cons, decide_eq_false_iff_not] using head
    rw [trimmed, ← takeWhile_append_dropWhile (p := (· ≠ sep)) (l := first :: others)] at parts
    refine .inr ⟨_, _, _, parts.symm, blanks, ?_, fun member => ?_, ?_⟩
    · rw [takeWhile_cons_of_pos (by simpa using noSep)]
      exact cons_ne_nil _ _
    · simpa using mem_takeWhile_imp member
    · cases tail : (first :: others).dropWhile (· ≠ sep) with
      | nil => exact .inl rfl
      | cons c tail' =>
        have head := head_dropWhile_not (p := (· ≠ sep)) (l := first :: others)
          (by rw [tail]; exact cons_ne_nil _ _)
        simp only [tail, head_cons, decide_eq_false_iff_not, not_not] at head
        exact .inr ⟨tail', by rw [head]⟩

theorem words_eq_nil_iff : words sep l = [] ↔ ∀ c ∈ l, c = sep := by
  refine ⟨fun none => ?_, words_blank⟩
  rcases blank_or_word sep l with blanks | ⟨blank, word, rest, rfl, blanks, some, clean, rfl | ⟨tail, rfl⟩⟩
  · exact blanks
  · rw [append_nil, words_blank_append blanks, words_word some clean] at none
    cases none
  · rw [words_blank_append blanks, words_word_append some clean] at none
    cases none

theorem ne_nil_of_mem_words (member : word ∈ words sep l) : word ≠ [] := by simpa using (mem_filter.mp member).2

theorem subset_of_mem_words (member : word ∈ words sep l) : word ⊆ l := by
  have parts : ∀ part ∈ l.splitOn sep, part ⊆ l := by
    clear member
    induction l with
    | nil => simp
    | cons c l ih =>
      rw [splitOn, splitOnP_cons_eq_if_modifyHead]
      split
      · rintro part (_ | ⟨_, member⟩)
        · exact nil_subset _
        · exact List.Subset.trans (ih part member) (subset_cons_self c l)
      · cases split : l.splitOnP (· == sep) with
        | nil => exact nofun
        | cons first others =>
          rw [splitOn, split] at ih
          rintro part (_ | ⟨_, member⟩)
          · exact cons_subset_cons c (ih first mem_cons_self)
          · exact List.Subset.trans (ih part (mem_cons_of_mem _ member)) (subset_cons_self c l)
  exact parts word (mem_filter.mp member).1

/-- Leading separators do not matter. -/
theorem words_dropWhile (sep : α) (l : List α) : words sep (l.dropWhile (· = sep)) = words sep l := by
  conv_rhs => rw [← takeWhile_append_dropWhile (p := (· = sep)) (l := l)]
  exact (words_blank_append fun c member => by simpa using mem_takeWhile_imp member).symm

theorem dropWhile_eq_nil_iff_words : l.dropWhile (· = sep) = [] ↔ words sep l = [] := by
  simp [words_eq_nil_iff]

section FirstWord

variable {rest : List α} (some : word ≠ []) (clean : sep ∉ word) (tail : rest = [] ∨ ∃ tail, rest = sep :: tail)

include some clean in
theorem dropWhile_blank_append (blanks : ∀ c ∈ blank, c = sep) :
    (blank ++ (word ++ rest)).dropWhile (· = sep) = word ++ rest := by
  obtain ⟨c, others, rfl⟩ := exists_cons_of_ne_nil some
  rw [dropWhile_append_of_pos fun c member => by simpa using blanks c member]
  exact dropWhile_cons_of_neg (by simpa using ne_of_mem_of_not_mem mem_cons_self clean)

include clean tail in
theorem takeWhile_word_append : (word ++ rest).takeWhile (· ≠ sep) = word := by
  rw [takeWhile_append_of_pos fun c member => by simpa using ne_of_mem_of_not_mem member clean]
  rcases tail with rfl | ⟨tail, rfl⟩ <;> simp

include clean tail in
theorem dropWhile_word_append : (word ++ rest).dropWhile (· ≠ sep) = rest := by
  rw [dropWhile_append_of_pos fun c member => by simpa using ne_of_mem_of_not_mem member clean]
  rcases tail with rfl | ⟨tail, rfl⟩ <;> simp

include some clean tail in
theorem words_first (blanks : ∀ c ∈ blank, c = sep) :
    words sep (blank ++ (word ++ rest)) = word :: words sep rest := by
  rw [words_blank_append blanks]
  rcases tail with rfl | ⟨tail, rfl⟩
  · rw [append_nil, words_word some clean, words_nil]
  · rw [words_word_append some clean, words_cons_sep]

end FirstWord

/-! ### What stands at the end -/

omit [DecidableEq α] in
/-- The separators at the end of a list are those of its second part, if there is anything else in it. -/
theorem rtakeWhile_append_of_exists {p : α → Bool} {l₁ l₂ : List α} (other : ∃ c ∈ l₂, ¬ p c) :
    (l₁ ++ l₂).rtakeWhile p = l₂.rtakeWhile p := by
  obtain ⟨c, member, fails⟩ := other
  rw [rtakeWhile, reverse_append, takeWhile_append, if_neg]
  · rfl
  · intro whole
    have same := ( takeWhile_prefix (l := l₂.reverse) p).eq_of_length whole
    exact fails (takeWhile_eq_self_iff.mp same c (mem_reverse.mpr member))

/-- Behind a word all separators are at the end. -/
theorem rtakeWhile_word_append (clean : sep ∉ word) (blanks : ∀ c ∈ blank, c = sep) :
    (word ++ blank).rtakeWhile (· = sep) = blank := by
  have last : (word.rtakeWhile (· = sep)) = [] := rtakeWhile_eq_nil_iff.mpr fun some => by
    simpa using ne_of_mem_of_not_mem (getLast_mem some) clean
  have none : word.reverse.takeWhile (· = sep) = [] := reverse_eq_nil_iff.mp last
  have all : blank.reverse.takeWhile (· = sep) = blank.reverse :=
    takeWhile_eq_self_iff.mpr fun c member => by simpa using blanks c (mem_reverse.mp member)
  rw [rtakeWhile, reverse_append, takeWhile_append, if_pos (by rw [all]), none, append_nil, reverse_reverse]

end List
