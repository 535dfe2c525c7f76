import Scubed3.Model.CommandLine
import Scubed3.Model.Daemon
import Scubed3.ToMathlib.Words

/-! # How both tokenizers cut a line

Both loops hold a pointer into the string and a number of arguments; what stands from the pointer on is
still the text that was given. The loop of the server cuts all spaces behind an argument, so that it never
starts an argument that is empty, except the first one. The loop of the client cuts one space and finds out
that there is no further argument after it has counted it: ten arguments that are followed by two spaces are
too many.
-/

namespace Scubed3

namespace CommandLine

open List (words)

/-- What is left of the text stands at the end of the string. -/
structure Stored (len : ℕ) (string : ℕ → UInt8) (rest : List UInt8) : Prop where
  fits : rest.length ≤ len
  bytes : ∀ i (inside : i < rest.length), string (len - rest.length + i) = rest[i]
  terminator : string len = 0
  clean : 0 ∉ rest

namespace Stored

variable {len : ℕ} {string string' : ℕ → UInt8} {rest rest' : List UInt8}

theorem suffix (stored : Stored len string rest) (suffix : rest' <:+ rest) : Stored len string rest' := by
  obtain ⟨front, rfl⟩ := suffix
  have fits := stored.fits
  rw [List.length_append] at fits
  refine ⟨by omega, fun i inside => ?_, stored.terminator, fun zero => stored.clean (List.mem_append_right _ zero)⟩
  have byte := stored.bytes (front.length + i) (by rw [List.length_append]; omega)
  rw [List.getElem_append_right (by omega)] at byte
  simp only [Nat.add_sub_cancel_left, List.length_append] at byte
  rw [← byte]
  congr 1
  omega

theorem congr (stored : Stored len string rest) (same : ∀ i, len - rest.length ≤ i → string' i = string i) :
    Stored len string' rest :=
  ⟨stored.fits, fun i inside => (same _ (by omega)).trans (stored.bytes i inside),
    (same len (by omega)).trans stored.terminator, stored.clean⟩

/-- The character at the pointer. -/
theorem head (stored : Stored len string rest) : string (len - rest.length) = rest.headD 0 := by
  cases rest with
  | nil => exact stored.terminator
  | cons c rest => exact stored.bytes 0 (Nat.succ_pos _)

theorem load (stored : Stored len string rest) : load len string (len - rest.length) = .ok (rest.headD 0) := by
  rw [CommandLine.load, if_pos (by omega), stored.head]

theorem headD_eq_zero (stored : Stored len string rest) : rest.headD 0 = 0 ↔ rest = [] := by
  cases rest with
  | nil => exact iff_of_true rfl rfl
  | cons c rest => exact iff_of_false (fun zero => stored.clean (zero ▸ List.mem_cons_self)) (List.cons_ne_nil _ _)

theorem skipSpaces (stored : Stored len string rest) :
    skipSpaces string (len + 1 - (len - rest.length)) (len - rest.length) =
      .ok (len - (rest.dropWhile (· = 32)).length) := by
  have fits := stored.fits
  rw [show len + 1 - (len - rest.length) = rest.length + 1 by omega]
  clear fits
  induction rest with
  | nil => rw [CommandLine.skipSpaces, stored.head, if_neg (by decide)]; rfl
  | cons c rest ih =>
    have fits := stored.fits
    rw [List.length_cons] at fits
    rw [CommandLine.skipSpaces, stored.head, List.headD_cons]
    split
    · next space =>
      rw [List.dropWhile_cons_of_pos (by simpa using space), ← ih (stored.suffix (List.suffix_cons c rest)),
        List.length_cons, show len - (rest.length + 1) + 1 = len - rest.length by omega]
    · next other => rw [List.dropWhile_cons_of_neg (by simpa using other)]; rfl

theorem skipWord (stored : Stored len string rest) :
    skipWord string (len + 1 - (len - rest.length)) (len - rest.length) =
      .ok (len - (rest.dropWhile (· ≠ 32)).length) := by
  have fits := stored.fits
  rw [show len + 1 - (len - rest.length) = rest.length + 1 by omega]
  clear fits
  induction rest with
  | nil => rw [CommandLine.skipWord, stored.head, if_neg (fun both => both.1 rfl)]; rfl
  | cons c rest ih =>
    have fits := stored.fits
    rw [List.length_cons] at fits
    have nonzero : c ≠ 0 := fun zero => stored.clean (zero ▸ List.mem_cons_self)
    rw [CommandLine.skipWord, stored.head, List.headD_cons]
    by_cases space : c = 32
    · rw [if_neg fun both => both.2 space, List.dropWhile_cons_of_neg (by simpa using space)]; rfl
    · rw [if_pos ⟨nonzero, space⟩, List.dropWhile_cons_of_pos (by simpa using space),
        ← ih (stored.suffix (List.suffix_cons c rest)), List.length_cons,
        show len - (rest.length + 1) + 1 = len - rest.length by omega]

/-- The spaces are overwritten, and nothing else is. -/
theorem cutSpaces (stored : Stored len string rest) : ∃ after,
    cutSpaces (len + 1 - (len - rest.length)) string (len - rest.length) =
      .ok (after, len - (rest.dropWhile (· = 32)).length) ∧
    (∀ i, i < len - rest.length ∨ len - (rest.dropWhile (· = 32)).length ≤ i → after i = string i) ∧
    ∀ i, len - rest.length ≤ i → i < len - (rest.dropWhile (· = 32)).length → after i = 0 := by
  have fits := stored.fits
  rw [show len + 1 - (len - rest.length) = rest.length + 1 by omega]
  clear fits
  induction rest generalizing string with
  | nil =>
    refine ⟨string, ?_, fun _ _ => rfl, fun i lower upper => ?_⟩
    · rw [CommandLine.cutSpaces, stored.head, if_neg (by decide)]; rfl
    · exact absurd upper (not_lt.mpr lower)
  | cons c rest ih =>
    have fits := stored.fits
    rw [List.length_cons] at fits
    rw [CommandLine.cutSpaces, stored.head, List.headD_cons]
    by_cases space : c = 32
    · have tail : Stored len (Function.update string (len - (c :: rest).length) 0) rest := by
        refine (stored.suffix (List.suffix_cons c rest)).congr fun i lower => Function.update_of_ne ?_ ..
        rw [List.length_cons]
        omega
      have next : len - (c :: rest).length + 1 = len - rest.length := by
        rw [List.length_cons]
        omega
      have shorter := (List.dropWhile_suffix (· = (32 : UInt8)) (l := rest)).length_le
      obtain ⟨after, ran, kept, cut⟩ := ih tail
      rw [if_pos space, List.dropWhile_cons_of_pos (by simpa using space), next]
      refine ⟨after, ran, fun i outside => ?_, fun i lower upper => ?_⟩
      · rw [kept i (by omega), Function.update_of_ne (by omega)]
      · rcases Nat.lt_or_ge i (len - rest.length) with here | there
        · rw [kept i (.inl here), show i = len - (c :: rest).length by omega, Function.update_self]
        · exact cut i there upper
    · rw [if_neg space, List.dropWhile_cons_of_neg (by simpa using space)]
      exact ⟨string, rfl, fun _ _ => rfl, fun i lower upper => absurd upper (not_lt.mpr lower)⟩

end Stored

/-- A string ends at a zero, or at the end of the memory it is in. -/
theorem cString_eq {len off : ℕ} {string : ℕ → UInt8} {word : List UInt8} (fits : off + word.length ≤ len)
    (bytes : ∀ i (inside : i < word.length), string (off + i) = word[i]) (clean : 0 ∉ word)
    (ends : off + word.length < len → string (off + word.length) = 0) : cString len string off = word := by
  have whole : Memory.readList string off word.length = word := by
    apply List.ext_getElem
    · simp
    · intro i _ inside
      simpa [Memory.readList] using bytes i inside
  have all : word.takeWhile (· ≠ 0) = word := List.takeWhile_eq_self_iff.mpr fun c member => by
    simpa using ne_of_mem_of_not_mem member clean
  rw [cString]
  obtain ⟨more, split⟩ : ∃ more, len - off = word.length + more := ⟨len - off - word.length, by omega⟩
  rw [split, Memory.readList_add, whole, List.takeWhile_append, all, if_pos rfl]
  cases more with
  | zero => exact List.append_nil word
  | succ more =>
    rw [Memory.readList_succ, ends (by omega), List.takeWhile_cons_of_neg (by decide), List.append_nil]

/-! ### The server -/

/-- The loop that the daemon is modelled with finds the words. A blank line has one argument, which is empty. -/
theorem splitArgs_eq (room : ℕ) (text : List UInt8) : Control.splitArgs room text =
    if room < max 1 (words 32 text).length then none
    else some (if words 32 text = [] then [[]] else words 32 text) := by
  induction room generalizing text with
  | zero => rw [Control.splitArgs, if_pos (by omega)]
  | succ room ih =>
    rw [Control.splitArgs]
    rcases List.blank_or_word 32 text with blanks | ⟨blank, word, rest, rfl, blanks, some, clean, tail⟩
    · have none := List.words_blank blanks
      simp [List.dropWhile_eq_nil_iff_words.mpr none, none]
    · rw [List.dropWhile_blank_append some clean blanks, List.takeWhile_word_append clean tail,
        List.dropWhile_word_append clean tail, List.words_first some clean tail blanks]
      simp only [List.dropWhile_eq_nil_iff_words, ih, List.words_dropWhile, List.length_cons, reduceCtorEq, if_false]
      by_cases last : words 32 rest = []
      · simp [last]
      · have := List.length_pos_iff.mpr last
        rw [if_neg last, if_neg last, show max 1 (words 32 rest).length = (words 32 rest).length by omega,
          show max 1 ((words 32 rest).length + 1) = (words 32 rest).length + 1 by omega]
        simp only [Nat.add_lt_add_iff_right]
        split <;> rfl

section Loops

variable {len room turns : ℕ} {string final : ℕ → UInt8} {rest : List UInt8} {t : Tokens}

theorem slot_inside {i : ℕ} (inside : i ≤ maxArgc) : slot i = .ok () := if_pos inside

/-- An argument is what stands before the next space, if that is overwritten and the rest is kept. -/
theorem cString_word (stored : Stored len string rest)
    (kept : ∀ i, len - rest.length ≤ i → i < len - (rest.dropWhile (· ≠ 32)).length → final i = string i)
    (cut : rest.dropWhile (· ≠ 32) ≠ [] → final (len - (rest.dropWhile (· ≠ 32)).length) = 0) :
    cString len final (len - rest.length) = rest.takeWhile (· ≠ 32) := by
  have parts := List.takeWhile_append_dropWhile (p := (· ≠ (32 : UInt8))) (l := rest)
  have lengths := congrArg List.length parts
  rw [List.length_append] at lengths
  have fits := stored.fits
  have word := stored
  refine cString_eq (by omega) (fun i inside => ?_) (fun zero => stored.clean ?_) fun more => ?_
  · rw [kept _ (by omega) (by omega), stored.bytes i (by omega)]
    exact (( List.takeWhile_prefix (l := rest) (· ≠ (32 : UInt8))).getElem inside).symm
  · exact ( List.takeWhile_prefix _).mem zero
  · have some : rest.dropWhile (· ≠ 32) ≠ [] := by
      intro none
      rw [none, List.length_nil] at lengths
      omega
    rw [show len - rest.length + (rest.takeWhile (· ≠ 32)).length = len - (rest.dropWhile (· ≠ 32)).length by omega,
      cut some]

/-- The argument at an offset. -/
structure Holds (len : ℕ) (string : ℕ → UInt8) (ptr : ℕ) (arg : List UInt8) : Prop where
  inside : ptr ≤ len
  terminator : string len = 0
  text : cString len string ptr = arg

theorem Holds.load {ptr : ℕ} {arg : List UInt8} (holds : Holds len string ptr arg) :
    load len string ptr = .ok (arg.headD 0) := by
  rw [CommandLine.load, if_pos holds.inside, ← holds.text, cString]
  rcases Nat.lt_or_eq_of_le holds.inside with less | rfl
  · rw [show len - ptr = len - ptr - 1 + 1 by omega, Memory.readList_succ]
    by_cases zero : string ptr = 0
    · rw [List.takeWhile_cons_of_neg (by simpa using zero), zero]
      rfl
    · rw [List.takeWhile_cons_of_pos (by simpa using zero)]
      rfl
  · rw [Nat.sub_self, holds.terminator]
    rfl

/-- From number `first` on, the arguments are `args`. -/
def Lists (len : ℕ) (t : Tokens) (first : ℕ) (args : List (List UInt8)) : Prop :=
  t.argc = first + args.length ∧
    ∀ i (inside : i < args.length), Holds len t.string (t.argv (first + i)) args[i]

theorem Lists.cons {first : ℕ} {arg : List UInt8} {args : List (List UInt8)} (lists : Lists len t (first + 1) args)
    (head : Holds len t.string (t.argv first) arg) : Lists len t first (arg :: args) := by
  refine ⟨by rw [lists.1, List.length_cons]; omega, fun i inside => ?_⟩
  cases i with
  | zero => exact head
  | succ i =>
    rw [show first + (i + 1) = first + 1 + i by omega]
    exact lists.2 i (Nat.lt_of_succ_lt_succ inside)

theorem Lists.args_eq {args : List (List UInt8)} (lists : Lists len t 0 args) : t.args len = args := by
  apply List.ext_getElem
  · simp [Tokens.args, lists.1]
  · intro i _ inside
    simpa [Tokens.args] using (lists.2 i inside).text

/-- How a loop ends that is to add `args` to the arguments, from a pointer at `ptr`. -/
def Adds (len : ℕ) (t : Tokens) (ptr : ℕ) (args : Option (List (List UInt8)))
    (result : Except Fault (Option Tokens)) : Prop :=
  match args with
  | none => result = .ok none
  | some args => ∃ after, result = .ok (some after) ∧ Lists len after t.argc args ∧ after.string len = 0 ∧
      after.argv after.argc ≤ len ∧ (∀ i < t.argc, after.argv i = t.argv i) ∧ ∀ i < ptr, after.string i = t.string i

theorem Adds.done (ptr : ℕ) (terminator : t.string len = 0) (inside : t.argv t.argc ≤ len) :
    Adds len t ptr (some []) (.ok (some t)) :=
  ⟨t, rfl, ⟨rfl, nofun⟩, terminator, inside, fun _ _ => rfl, fun _ _ => rfl⟩

/-- One more argument, after which the loop goes on with `next` at `ptr'`. -/
theorem Adds.word {next : Tokens} {ptr ptr' : ℕ} {word : List UInt8} {args : Option (List (List UInt8))}
    {result : Except Fault (Option Tokens)} (further : Adds len next ptr' args result)
    (argc : next.argc = t.argc + 1) (argv : ∀ i < t.argc, next.argv i = t.argv i)
    (kept : ∀ i < ptr, next.string i = t.string i) (order : ptr ≤ ptr')
    (holds : ∀ final : ℕ → UInt8, final len = 0 → (∀ i < ptr', final i = next.string i) →
      Holds len final (next.argv t.argc) word) :
    Adds len t ptr (args.map (word :: ·)) result := by
  cases args with
  | none => exact further
  | some args =>
    obtain ⟨last, ran, lists, terminator, inside, argv', same⟩ := further
    rw [argc] at lists argv'
    refine ⟨last, ran, lists.cons ?_, terminator, inside, fun i before => ?_, fun i before => ?_⟩
    · rw [argv' t.argc (Nat.lt_succ_self _)]
      exact holds last.string terminator same
    · rw [argv' i (by omega), argv i before]
    · rw [same i (by omega), kept i before]

/-- What a turn stores in `argv`. -/
theorem argv_argc (t : Tokens) (ptr ptr' : ℕ) :
    Function.update (Function.update t.argv t.argc ptr) (t.argc + 1) ptr' t.argc = ptr := by
  rw [Function.update_of_ne (Nat.succ_ne_self t.argc).symm, Function.update_self]

theorem argv_before (t : Tokens) (ptr ptr' i : ℕ) (before : i < t.argc) :
    Function.update (Function.update t.argv t.argc ptr) (t.argc + 1) ptr' i = t.argv i := by
  rw [Function.update_of_ne (by omega), Function.update_of_ne (by omega)]

/-- Behind a word there is a space, or nothing. -/
theorem dropWhile_word_cases (rest : List UInt8) :
    rest.dropWhile (· ≠ 32) = [] ∨ ∃ tail, rest.dropWhile (· ≠ 32) = 32 :: tail := by
  cases behind : rest.dropWhile (· ≠ 32) with
  | nil => exact .inl rfl
  | cons c tail =>
    have head := List.head_dropWhile_not (p := (· ≠ (32 : UInt8))) (l := rest)
      (by rw [behind]; exact List.cons_ne_nil _ _)
    simp only [behind, List.head_cons, decide_eq_false_iff_not, not_not] at head
    exact .inr ⟨tail, by rw [head]⟩

/-- Behind spaces there is a word, or nothing. -/
theorem length_dropWhile_word_lt {rest : List UInt8} (some : rest.dropWhile (· = 32) ≠ []) :
    ((rest.dropWhile (· = 32)).dropWhile (· ≠ 32)).length < (rest.dropWhile (· = 32)).length := by
  have head := List.head_dropWhile_not (p := (· = (32 : UInt8))) some
  obtain ⟨c, tail, trimmed⟩ := List.exists_cons_of_ne_nil some
  simp only [trimmed, List.head_cons, decide_eq_false_iff_not] at head
  rw [trimmed, List.dropWhile_cons_of_pos (by simpa using head)]
  exact Nat.lt_succ_of_le (List.dropWhile_suffix _).length_le

/-- What the server cuts out of the string, in every string that goes on from there. -/
theorem cString_cut {after : ℕ → UInt8} (trimmed : Stored len string rest)
    (kept : ∀ i, i < len - (rest.dropWhile (· ≠ 32)).length → after i = string i)
    (cut : ∀ i, len - (rest.dropWhile (· ≠ 32)).length ≤ i →
      i < len - ((rest.dropWhile (· ≠ 32)).dropWhile (· = 32)).length → after i = 0)
    (same : ∀ i < len - ((rest.dropWhile (· ≠ 32)).dropWhile (· = 32)).length, final i = after i) :
    cString len final (len - rest.length) = rest.takeWhile (· ≠ 32) := by
  have shorter := (List.dropWhile_suffix (· = (32 : UInt8)) (l := rest.dropWhile (· ≠ 32))).length_le
  refine cString_word trimmed (fun i _ upper => ?_) fun some => ?_
  · rw [same i (by omega), kept i upper]
  · have less : ((rest.dropWhile (· ≠ 32)).dropWhile (· = 32)).length < (rest.dropWhile (· ≠ 32)).length := by
      obtain ⟨tail, space⟩ := (dropWhile_word_cases rest).resolve_left some
      rw [space, List.dropWhile_cons_of_pos (by decide)]
      exact Nat.lt_succ_of_le (List.dropWhile_suffix _).length_le
    have fits := (trimmed.suffix (List.dropWhile_suffix (· ≠ 32))).fits
    rw [same _ (by omega), cut _ le_rfl (by omega)]

/-- The loop of `control_call` finds the arguments that the daemon is modelled with. -/
theorem controlCallLoop_adds (argc : t.argc + room = maxArgc) (enough : room < turns)
    (stored : Stored len t.string rest) (here : t.argv t.argc = len - rest.length) :
    Adds len t (len - rest.length) (Control.splitArgs room rest) (controlCallLoop len turns t) := by
  induction room generalizing turns t rest with
  | zero =>
    obtain ⟨turns, rfl⟩ := Nat.exists_eq_add_of_lt enough
    rw [Nat.zero_add, controlCallLoop, slot_inside (by omega), here, stored.skipSpaces]
    simp only [Except.ok_bind]
    rw [if_pos (by omega)]
    rfl
  | succ room ih =>
    obtain ⟨turns, rfl⟩ : ∃ more, turns = more + 1 := ⟨turns - 1, by omega⟩
    have trimmed := stored.suffix (List.dropWhile_suffix (· = 32))
    have behind := trimmed.suffix (List.dropWhile_suffix (· ≠ 32))
    obtain ⟨after, ran, kept, cut⟩ := behind.cutSpaces
    have left : Stored len after _ :=
      (behind.suffix (List.dropWhile_suffix (· = 32))).congr fun i lower => kept i (.inr lower)
    rw [controlCallLoop, slot_inside (by omega), here, stored.skipSpaces]
    simp only [Except.ok_bind]
    rw [if_neg (by omega), slot_inside (by omega)]
    simp only [Except.ok_bind, Nat.add_sub_cancel, Function.update_self, trimmed.skipWord, ran, left.load,
      Function.update_idem, Control.splitArgs]
    have shorter := (List.dropWhile_suffix (· = (32 : UInt8)) (l := rest)).length_le
    have shorter' := (List.dropWhile_suffix (· ≠ (32 : UInt8)) (l := rest.dropWhile (· = 32))).length_le
    have shorter'' := (List.dropWhile_suffix (· = (32 : UInt8))
      (l := (rest.dropWhile (· = 32)).dropWhile (· ≠ 32))).length_le
    have word : ∀ final : ℕ → UInt8, final len = 0 →
        (∀ i < len - (((rest.dropWhile (· = 32)).dropWhile (· ≠ 32)).dropWhile (· = 32)).length, final i = after i) →
        Holds len final (len - (rest.dropWhile (· = 32)).length) ((rest.dropWhile (· = 32)).takeWhile (· ≠ 32)) :=
      fun final terminator same => ⟨Nat.sub_le .., terminator,
        cString_cut trimmed (fun i before => kept i (.inl before)) cut same⟩
    by_cases done : ((rest.dropWhile (· = 32)).dropWhile (· ≠ 32)).dropWhile (· = 32) = []
    · rw [if_neg (not_not.mpr (left.headD_eq_zero.mpr done)), if_pos done]
      refine (Adds.done (len - (((rest.dropWhile (· = 32)).dropWhile (· ≠ 32)).dropWhile (· = 32)).length)
        left.terminator ?_).word rfl (argv_before t _ _) (fun i before => kept i (by omega))
        (Nat.sub_le_sub_left (by omega) len) fun final terminator same => ?_
      · dsimp only
        rw [Function.update_self]
        exact Nat.sub_le ..
      dsimp only
      rw [argv_argc]
      exact word final terminator same
    · rw [if_pos (mt left.headD_eq_zero.mp done), if_neg done]
      refine (ih ?_ (show room < turns by omega) left ?_).word rfl (argv_before t _ _) (fun i before => kept i (by omega))
        (Nat.sub_le_sub_left (by omega) len) fun final terminator same => ?_
      · show t.argc + 1 + room = maxArgc
        omega
      · exact Function.update_self ..
      · dsimp only
        rw [argv_argc]
        exact word final terminator same

theorem headD_ne_zero {text word : List UInt8} (clean : 0 ∉ text) (member : word ∈ words 32 text) :
    word.headD 0 ≠ 0 := by
  obtain ⟨c, others, rfl⟩ := List.exists_cons_of_ne_nil (List.ne_nil_of_mem_words member)
  exact fun zero => clean (List.subset_of_mem_words member (zero ▸ List.mem_cons_self))

/-- `control_call` finds the words. -/
theorem controlCall_eq {text : List UInt8} (stored : Stored text.length string text) :
    controlCall text.length string = .ok (
      if maxArgc < (words 32 text).length then .tooMany
      else if words 32 text = [] then .silent
      else .command (words 32 text)) := by
  have argc : (Tokens.start string).argc + maxArgc = maxArgc := Nat.zero_add _
  have adds := controlCallLoop_adds argc (Nat.lt_succ_self _) stored (Nat.sub_self _).symm
  rw [splitArgs_eq] at adds
  unfold controlCall
  by_cases many : maxArgc < (words 32 text).length
  · rw [if_pos (lt_max_of_lt_right many)] at adds
    rw [if_pos many, adds]
    rfl
  · rw [if_neg (by simpa [maxArgc] using not_lt.mp many)] at adds
    obtain ⟨after, ran, lists, -⟩ := adds
    rw [if_neg many, ran, Except.ok_bind]
    have lists : Lists text.length after 0 _ := lists
    have argc := lists.1
    rw [Nat.zero_add] at argc
    dsimp only
    by_cases blank : words 32 text = []
    · rw [if_pos blank] at lists argc
      rw [if_pos blank, slot_inside (by rw [argc]; decide), Except.ok_bind, (lists.2 0 Nat.zero_lt_one).load, argc]
      rfl
    · rw [if_neg blank] at lists argc
      have first := (lists.2 0 (List.length_pos_iff.mpr blank)).load
      rw [if_neg blank, slot_inside (by rw [argc]; omega), Except.ok_bind, first, Except.ok_bind,
        if_neg fun both => headD_ne_zero stored.clean (List.getElem_mem _) both.2, lists.args_eq]
      rfl

/-! ### The client -/

/-- What the loop of `do_local_command` finds. -/
def localArgs : (room : ℕ) → (text : List UInt8) → Option (List (List UInt8))
  | 0, text => if text = [] then some [] else none
  | room + 1, text =>
    if text = [] then some []
    else
      let trimmed := text.dropWhile (· = 32)
      if trimmed = [] then some []
      else (localArgs room (trimmed.dropWhile (· ≠ 32)).tail).map (trimmed.takeWhile (· ≠ 32) :: ·)

theorem localArgs_nil (room : ℕ) : localArgs room [] = some [] := by
  cases room <;> rfl

/-- The spaces behind the words: what a turn of the loop does to them. -/
theorem trailing_tail {blank word tail : List UInt8} (some : word ≠ []) (clean : 32 ∉ word) :
    ((blank ++ (word ++ 32 :: tail)).rtakeWhile (· = 32)).length =
      (tail.rtakeWhile (· = 32)).length + if words 32 tail = [] then 1 else 0 := by
  have inner : (blank ++ (word ++ 32 :: tail)).rtakeWhile (· = 32) = (word ++ 32 :: tail).rtakeWhile (· = 32) := by
    obtain ⟨c, others, rfl⟩ := List.exists_cons_of_ne_nil some
    refine List.rtakeWhile_append_of_exists ⟨c, by simp, ?_⟩
    simpa using ne_of_mem_of_not_mem List.mem_cons_self clean
  rw [inner]
  by_cases none : words 32 tail = []
  · have blanks := List.words_eq_nil_iff.mp none
    have all : tail.rtakeWhile (· = 32) = tail := List.rtakeWhile_eq_self_iff.mpr (by simpa using blanks)
    rw [if_pos none, all, List.rtakeWhile_word_append clean (List.forall_mem_cons.mpr ⟨rfl, blanks⟩), List.length_cons]
  · have other : ∃ c ∈ tail, ¬ decide (c = 32) = true := by
      simpa using (not_congr List.words_eq_nil_iff).mp none
    rw [if_neg none, ← List.singleton_append, ← List.append_assoc, List.rtakeWhile_append_of_exists other, Nat.add_zero]

/-- It finds the words if there is room for them, and for nothing but one space behind them if there are that
many. -/
theorem localArgs_eq (room : ℕ) (text : List UInt8) : localArgs room text =
    if (words 32 text).length < room ∨ (words 32 text).length = room ∧
        (text.rtakeWhile (· = 32)).length ≤ (if room = 0 then 0 else 1) then
      some (words 32 text)
    else none := by
  induction room generalizing text with
  | zero =>
    rw [localArgs]
    by_cases done : text = []
    · subst done
      rfl
    · rw [if_neg done, if_neg]
      rintro (less | ⟨none, trailing⟩)
      · exact absurd less (Nat.not_lt_zero _)
      · have blanks := List.words_eq_nil_iff.mp (List.length_eq_zero_iff.mp none)
        rw [if_pos rfl, List.rtakeWhile_eq_self_iff.mpr (by simpa using blanks)] at trailing
        exact done (List.length_eq_zero_iff.mp (Nat.le_zero.mp trailing))
  | succ room ih =>
    rw [localArgs]
    by_cases done : text = []
    · subst done
      simp
    · rw [if_neg done]
      rcases List.blank_or_word 32 text with blanks | ⟨blank, word, rest, rfl, blanks, some, clean, tail⟩
      · have none := List.words_blank blanks
        simp [List.dropWhile_eq_nil_iff_words.mpr none, none]
      · rw [List.dropWhile_blank_append some clean blanks]
        dsimp only
        rw [if_neg (by simp [some]), List.takeWhile_word_append clean tail, List.dropWhile_word_append clean tail,
          List.words_first some clean tail blanks]
        rcases tail with rfl | ⟨tail, rfl⟩
        · have trailing : (blank ++ (word ++ [])).rtakeWhile (· = 32) = [] := by
            obtain ⟨c, others, rfl⟩ := List.exists_cons_of_ne_nil some
            rw [List.rtakeWhile_append_of_exists, List.rtakeWhile_word_append clean (by simp)]
            exact ⟨c, by simp, by simpa using ne_of_mem_of_not_mem List.mem_cons_self clean⟩
          rw [List.tail_nil, localArgs_nil, List.words_nil, trailing, if_pos]
          · rfl
          · simp only [List.length_cons, List.length_nil]
            omega
        · have condition : ((words 32 tail).length < room ∨ (words 32 tail).length = room ∧
                (tail.rtakeWhile (· = 32)).length ≤ if room = 0 then 0 else 1) ↔
              (word :: words 32 tail).length < room + 1 ∨ (word :: words 32 tail).length = room + 1 ∧
                (tail.rtakeWhile (· = 32)).length + (if words 32 tail = [] then 1 else 0) ≤
                  if room + 1 = 0 then 0 else 1 := by
            rw [List.length_cons, if_neg (Nat.succ_ne_zero room)]
            by_cases none : words 32 tail = []
            · rw [none, List.length_nil, if_pos rfl]
              split <;> omega
            · have := List.length_pos_iff.mpr none
              rw [if_neg none]
              split <;> omega
          rw [List.tail_cons, ih, trailing_tail some clean, List.words_cons_sep]
          simp only [condition]
          exact apply_ite (Option.map (word :: ·)) _ _ _

theorem doLocalCommandLoop_adds (argc : t.argc + room = maxArgc) (enough : room < turns)
    (stored : Stored len t.string rest) (here : t.argv t.argc = len - rest.length) :
    Adds len t (len - rest.length) (localArgs room rest) (doLocalCommandLoop len turns t) := by
  induction room generalizing turns t rest with
  | zero =>
    obtain ⟨turns, rfl⟩ := Nat.exists_eq_add_of_lt enough
    rw [Nat.zero_add, doLocalCommandLoop, slot_inside (by omega), here, stored.load]
    simp only [Except.ok_bind, stored.headD_eq_zero, localArgs]
    by_cases done : rest = []
    · rw [if_pos done, if_pos done]
      exact .done _ stored.terminator (here.trans_le (Nat.sub_le ..))
    · rw [if_neg done, if_neg done, stored.skipSpaces]
      simp only [Except.ok_bind]
      rw [if_pos (by omega)]
      rfl
  | succ room ih =>
    obtain ⟨turns, rfl⟩ : ∃ more, turns = more + 1 := ⟨turns - 1, by omega⟩
    rw [doLocalCommandLoop, slot_inside (by omega), here, stored.load]
    simp only [Except.ok_bind, stored.headD_eq_zero, localArgs]
    by_cases done : rest = []
    · rw [if_pos done, if_pos done]
      exact .done _ stored.terminator (here.trans_le (Nat.sub_le ..))
    · have trimmed := stored.suffix (List.dropWhile_suffix (· = 32))
      have behind := trimmed.suffix (List.dropWhile_suffix (· ≠ 32))
      have fits := trimmed.fits
      have shorter := (List.dropWhile_suffix (· = (32 : UInt8)) (l := rest)).length_le
      have parts := List.takeWhile_append_dropWhile (p := (· ≠ (32 : UInt8))) (l := rest.dropWhile (· = 32))
      rw [if_neg done, if_neg done, stored.skipSpaces]
      simp only [Except.ok_bind]
      have pointer : len - ((rest.dropWhile (· = 32)).dropWhile (· ≠ 32)).length =
          len - (rest.dropWhile (· = 32)).length ↔ rest.dropWhile (· = 32) = [] := by
        refine ⟨fun same => ?_, fun none => by rw [none]; rfl⟩
        by_contra some
        have less := length_dropWhile_word_lt some
        omega
      by_cases blank : rest.dropWhile (· = 32) = []
      · rw [if_neg (show ¬ t.argc + 1 > maxArgc by omega), slot_inside (by omega)]
        simp only [Except.ok_bind, Nat.add_sub_cancel, Function.update_self, trimmed.skipWord,
          Function.update_of_ne (Nat.succ_ne_self t.argc).symm, Function.update_idem]
        rw [if_pos blank, if_pos (pointer.mpr blank)]
        refine ⟨_, rfl, ⟨rfl, nofun⟩, stored.terminator, ?_, argv_before t _ _, fun _ _ => rfl⟩
        dsimp only
        rw [argv_argc]
        exact Nat.sub_le ..
      · rw [if_neg blank, if_neg (show ¬ t.argc + 1 > maxArgc by omega), slot_inside (by omega)]
        simp only [Except.ok_bind, Nat.add_sub_cancel, Function.update_self, trimmed.skipWord,
          Function.update_of_ne (Nat.succ_ne_self t.argc).symm, Function.update_idem, behind.load]
        rw [if_neg (mt pointer.mp blank)]
        rcases dropWhile_word_cases (rest.dropWhile (· = 32)) with last | ⟨tail, space⟩
        · rw [last] at behind ⊢
          rw [if_neg (by decide)]
          refine Adds.word (ih ?_ ?_ behind ?_) rfl (argv_before t _ _) (fun _ _ => rfl)
            (Nat.sub_le_sub_left (Nat.zero_le _) len) fun final terminator same => ?_
          · show t.argc + 1 + room = maxArgc
            omega
          · omega
          · exact Function.update_self ..
          · dsimp only
            rw [argv_argc]
            refine ⟨Nat.sub_le .., terminator, cString_word trimmed (fun i _ upper => same i ?_) fun some => absurd last some⟩
            rwa [last] at upper
        · have count := congrArg List.length space
          rw [List.length_cons] at count
          have shorter' := (List.dropWhile_suffix (· ≠ (32 : UInt8)) (l := rest.dropWhile (· = 32))).length_le
          have next : len - (32 :: tail).length + 1 = len - tail.length := by
            rw [List.length_cons]
            omega
          rw [space] at behind ⊢
          rw [List.headD_cons, if_pos rfl, next]
          have left : Stored len (Function.update t.string (len - (32 :: tail).length) 0) tail :=
            (behind.suffix (List.suffix_cons 32 tail)).congr fun i lower => Function.update_of_ne (by omega) ..
          rw [List.tail_cons]
          have lower : tail.length ≤ rest.length := by omega
          refine Adds.word (ih ?_ ?_ left ?_) rfl (argv_before t _ _) (fun i before => ?_)
            (Nat.sub_le_sub_left lower len) fun final terminator same => ?_
          · show t.argc + 1 + room = maxArgc
            omega
          · omega
          · exact Function.update_self ..
          · exact Function.update_of_ne (by rw [List.length_cons]; omega) ..
          · dsimp only at same ⊢
            rw [argv_argc]
            refine ⟨Nat.sub_le .., terminator, cString_word trimmed (fun i _ upper => ?_) fun _ => ?_⟩
            · rw [space] at upper
              rw [same i (by omega), Function.update_of_ne (by omega)]
            · rw [space, same _ (by omega), Function.update_self]

/-- `do_local_command` finds the words, unless there are as many as it has room for and two spaces behind them. -/
theorem doLocalCommand_eq {text : List UInt8} (stored : Stored text.length string text) :
    doLocalCommand text.length string = .ok (
      if (words 32 text).length < maxArgc ∨ (words 32 text).length = maxArgc ∧
          (text.rtakeWhile (· = 32)).length ≤ 1 then
        some (words 32 text)
      else none) := by
  have argc : (Tokens.start string).argc + maxArgc = maxArgc := Nat.zero_add _
  have adds := doLocalCommandLoop_adds argc (Nat.lt_succ_self _) stored (Nat.sub_self _).symm
  rw [localArgs_eq, if_neg (show ¬ maxArgc = 0 by decide)] at adds
  unfold doLocalCommand
  split at adds
  · next fits =>
    obtain ⟨after, ran, lists, terminator, inside, -⟩ := adds
    have lists : Lists text.length after 0 _ := lists
    have argc := lists.1
    rw [Nat.zero_add] at argc
    rw [if_pos fits, ran, Except.ok_bind]
    dsimp only
    by_cases blank : words 32 text = []
    · rw [blank, List.length_nil] at argc
      rw [argc] at inside
      rw [CommandLine.load, if_pos inside, Except.ok_bind, if_neg fun both => absurd both.2 (by rw [argc]; decide),
        lists.args_eq]
      rfl
    · rw [(lists.2 0 (List.length_pos_iff.mpr blank)).load, Except.ok_bind,
        if_neg fun both => headD_ne_zero stored.clean (List.getElem_mem _) both.1, lists.args_eq]
      rfl
  · next fits =>
    rw [if_neg fits, adds]
    rfl

/-- Both find the words and never leave `argv` or the string, unless the line has exactly as many words as there is
room for and two spaces behind them: then the client drops it. -/
theorem tokenizers_exact_iff {text : List UInt8} (stored : Stored text.length string text) :
    (controlCall text.length string = .ok (
        if maxArgc < (words 32 text).length then .tooMany
        else if words 32 text = [] then .silent
        else .command (words 32 text)) ∧
      doLocalCommand text.length string =
        .ok (if maxArgc < (words 32 text).length then none else some (words 32 text)) ↔
      ¬((words 32 text).length = maxArgc ∧ 2 ≤ (text.rtakeWhile (· = 32)).length)) ∧
    ∃ args, doLocalCommand text.length string = .ok args := by
  rw [doLocalCommand_eq stored]
  refine ⟨?_, _, rfl⟩
  rw [and_iff_right (controlCall_eq stored), Except.ok.injEq]
  by_cases many : maxArgc < (words 32 text).length
  · rw [if_pos many, if_neg (by omega)]
    exact iff_of_true rfl (by omega)
  · rw [if_neg many]
    split
    · exact iff_of_true rfl (by omega)
    · exact iff_of_false nofun (by omega)

/-- A string with nothing behind it. -/
theorem stored_getD {text : List UInt8} (clean : 0 ∉ text) : Stored text.length (fun i => text.getD i 0) text :=
  ⟨le_rfl, fun i inside => by simp [inside], by simp, clean⟩

theorem tokenizers_exact_iff_create :
    doLocalCommand 11 (fun i => (ascii " create a  ").getD i 0) = .ok (some [ascii "create", ascii "a"]) :=
  ((tokenizers_exact_iff (stored_getD (show 0 ∉ ascii " create a  " by decide))).1.mpr (by decide)).2

/-- Ten arguments and two spaces are discarded. -/
theorem doLocalCommand_discards :
    (words 32 (ascii "a a a a a a a a a a  ")).length = maxArgc ∧
      doLocalCommand 21 (fun i => (ascii "a a a a a a a a a a  ").getD i 0) = .ok none :=
  ⟨by decide, (doLocalCommand_eq (stored_getD (show 0 ∉ ascii "a a a a a a a a a a  " by decide))).trans (by decide)⟩

end Loops

end CommandLine

end Scubed3
