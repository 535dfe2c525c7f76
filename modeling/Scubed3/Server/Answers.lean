import Scubed3.Model.Daemon

/-! # What a handler sends

A handler sends complete responses, one after the other, and stops when the connection breaks. `Replies` says
which ones and what becomes of the daemon. Whether they can be told apart only depends on the lines that
are a single dot.
-/

namespace Scubed3.Control

open List

variable {u : Setup} {s s₁ s' : Socket} {d d' : Daemon u} {env : Env}

/-! ## What was sent -/

/-- What a socket has sent meanwhile: a part of `bytes`, and all of them if no `send` has failed. -/
structure Emits (s s' : Socket) (bytes : List UInt8) : Prop where
  broken : s.broken = true → s'.broken = true
  sent : s'.broken = false → s'.sent = s.sent ++ bytes
  part : ∃ part, s'.sent = s.sent ++ part ∧ part <+: bytes

theorem Emits.trans {bytes more : List UInt8} (first : Emits s s₁ bytes) (whole : s₁.sent = s.sent ++ bytes)
    (second : Emits s₁ s' more) : Emits s s' (bytes ++ more) := by
  obtain ⟨part, sent, prefixed⟩ := second.part
  refine ⟨second.broken ∘ first.broken, fun all => ?_, bytes ++ part, ?_,
    (prefix_append_right_inj _).mpr prefixed⟩
  · rw [second.sent all, whole, append_assoc]
  · rw [sent, whole, append_assoc]

theorem emits_of_sends {bytes : List UInt8} {result : ℤ × Socket} (sends : Sends s bytes result) :
    Emits s result.2 bytes :=
  ⟨sends.broken, fun whole => sends.sent (sends.returns whole), sends.part⟩

/-- The lines of a text that is sent without its last newline. -/
def textLines (text : List UInt8) : List (List UInt8) := ((text ++ [newline]).splitLines newline).1

theorem encodeLines_textLines (text : List UInt8) : text ++ [newline] = (textLines text).encodeLines newline := by
  have whole : (splitLines newline (text ++ [newline])).2 = [] := by
    rw [splitLines_append, splitLines_line (not_mem_splitLines newline text).2]
    rfl
  have joined := encodeLines_splitLines newline (text ++ [newline])
  rw [whole, append_nil] at joined
  exact joined.symm

theorem textLines_of_not_mem {text : List UInt8} (absent : newline ∉ text) : textLines text = [text] := by
  rw [textLines, splitLines_line absent]
  rfl

/-- One response. -/
structure Answer where
  err : Bool
  lines : List (List UInt8)

namespace Answer

/-- A response with a text. -/
def ofText (err : Bool) (text : List UInt8) : Answer := ⟨err, textLines text⟩

def bytes (a : Answer) : List UInt8 := response a.err a.lines

def Clean (a : Answer) : Prop := ∀ line ∈ a.lines, newline ∉ line

theorem ofText_clean (err : Bool) (text : List UInt8) : (ofText err text).Clean :=
  (not_mem_splitLines newline _).1

end Answer

/-- The complete responses that were sent meanwhile. -/
structure Answered (s s' : Socket) (answers : List Answer) : Prop where
  emits : Emits s s' (answers.flatMap Answer.bytes)
  clean : ∀ a ∈ answers, a.Clean

theorem Answered.append {answers more : List Answer} (first : Answered s s₁ answers)
    (whole : s₁.sent = s.sent ++ answers.flatMap Answer.bytes) (second : Answered s₁ s' more) :
    Answered s s' (answers ++ more) := by
  refine ⟨?_, fun a member => (mem_append.mp member).elim (first.clean a) (second.clean a)⟩
  rw [flatMap_append]
  exact first.emits.trans whole second.emits

/-- After a failure the rest is not sent. -/
theorem Answered.cut {answers more : List Answer} (first : Answered s s' answers) (broken : s'.broken = true)
    (clean : ∀ a ∈ more, a.Clean) : Answered s s' (answers ++ more) := by
  refine ⟨⟨first.emits.broken, fun whole => absurd whole (by simp [broken]), ?_⟩, fun a member =>
    (mem_append.mp member).elim (first.clean a) (clean a)⟩
  obtain ⟨part, sent, prefixed⟩ := first.emits.part
  rw [flatMap_append]
  exact ⟨part, sent, prefixed.trans (prefix_append _ _)⟩

theorem answered_of_sends {a : Answer} {result : ℤ × Socket} (clean : a.Clean) (sends : Sends s a.bytes result) :
    Answered s result.2 [a] := by
  refine ⟨?_, fun b member => by rwa [mem_singleton.mp member]⟩
  rw [flatMap_singleton]
  exact emits_of_sends sends

theorem controlWriteComplete_answered (s : Socket) (err : Bool) (text : List UInt8) :
    Answered s (controlWriteComplete s err text).2 [.ofText err text] := by
  refine answered_of_sends (Answer.ofText_clean err text) ?_
  have sends := controlWriteComplete_sends s err text
  rwa [response_eq (encodeLines_textLines text)] at sends

theorem Answer.bytes_eq (a : Answer) : a.bytes = encodeLines newline (statusLine a.err :: a.lines ++ [dot]) := rfl

theorem statusLine_plain (err : Bool) : newline ∉ statusLine err ∧ statusLine err ≠ dot := by
  cases err <;> decide

/-- Every response has one line that is a dot, apart from those of its text. -/
theorem count_dot (a : Answer) : count dot (statusLine a.err :: a.lines ++ [dot]) = count dot a.lines + 1 := by
  rw [count_append, count_cons_of_ne (statusLine_plain a.err).2, count_singleton_self]

/-- Responses are told apart by their dots. -/
theorem isResponse_iff {answers : List Answer} (clean : ∀ a ∈ answers, a.Clean) :
    IsResponse (answers.flatMap Answer.bytes) ↔ ∃ a, answers = [a] ∧ dot ∉ a.lines := by
  constructor
  · rintro ⟨err, lines, plain, same⟩
    have noNewline : ∀ line ∈ answers.flatMap fun a => statusLine a.err :: a.lines ++ [dot], newline ∉ line := by
      intro line member
      obtain ⟨a, listed, member⟩ := mem_flatMap.mp member
      simp only [cons_append, mem_cons, mem_append, not_mem_nil, or_false] at member
      rcases member with rfl | member | rfl
      · exact (statusLine_plain a.err).1
      · exact clean a listed line member
      · decide
    have noNewline' : ∀ line ∈ statusLine err :: lines ++ [dot], newline ∉ line := by
      intro line member
      simp only [cons_append, mem_cons, mem_append, not_mem_nil, or_false] at member
      rcases member with rfl | member | rfl
      · exact (statusLine_plain err).1
      · exact (plain line member).1
      · decide
    have joined : answers.flatMap Answer.bytes =
        encodeLines newline (answers.flatMap fun a => statusLine a.err :: a.lines ++ [dot]) := by
      rw [encodeLines, flatMap_assoc]
      rfl
    rw [joined, response, ← append_nil (encodeLines _ (flatMap _ _)), ← append_nil (encodeLines _ (_ ++ _))] at same
    have split := congrArg (splitLines newline) same
    rw [splitLines_eq noNewline not_mem_nil, splitLines_eq noNewline' not_mem_nil, Prod.mk.injEq] at split
    have dots := congrArg (count dot) split.1
    rw [count_flatMap, count_dot ⟨err, lines⟩, count_eq_zero_of_not_mem fun member => (plain dot member).2 rfl] at dots
    -- each response has a dot of its own
    rcases answers with _ | ⟨a, _ | ⟨b, rest⟩⟩
    · cases dots
    · simp only [map_cons, map_nil, sum_cons, sum_nil, Function.comp_apply, count_dot] at dots
      exact ⟨a, rfl, count_eq_zero.mp (by omega)⟩
    · simp only [map_cons, sum_cons, Function.comp_apply, count_dot] at dots
      omega
  · rintro ⟨a, rfl, plain⟩
    rw [flatMap_singleton]
    exact ⟨a.err, a.lines, fun line member => ⟨clean a mem_cons_self line member, ne_of_mem_of_not_mem member plain⟩,
      rfl⟩

/-! ## Rules for handlers -/

/-- Whenever a handler returns, the responses it has sent and the daemon it leaves satisfy `post`. -/
def Replies (s : Socket) (x : Draw Failure (ℤ × Socket × Daemon u))
    (post : List Answer → Daemon u → Prop) : Prop :=
  Draw.Yields x fun r => ∃ answers, Answered s r.2.1 answers ∧ post answers r.2.2

namespace Replies

variable {post : List Answer → Daemon u → Prop} {x : Draw Failure (ℤ × Socket × Daemon u)}

theorem complete {err : Bool} {text : List UInt8} (holds : post [.ofText err text] d) :
    Replies s (reply (controlWriteComplete s err text) d) post :=
  .pure ⟨_, controlWriteComplete_answered s err text, holds⟩

theorem silent (holds : post [⟨false, []⟩] d) : Replies s (reply (controlWriteSilentSuccess s) d) post :=
  .pure ⟨_, answered_of_sends (a := ⟨false, []⟩) nofun (controlWriteString_sends s _), holds⟩

theorem parts {err : Bool} {lines : List (List UInt8)} (clean : ∀ line ∈ lines, newline ∉ line)
    (holds : post [⟨err, lines⟩] d) : Replies s (reply (controlWriteParts s err lines) d) post :=
  .pure ⟨_, answered_of_sends (a := ⟨err, lines⟩) clean (controlWriteParts_sends s err lines), holds⟩

/-- A handler that has already sent something. -/
theorem after {answers : List Answer} (first : Answered s s₁ answers)
    (whole : s₁.sent = s.sent ++ answers.flatMap Answer.bytes)
    (second : Replies s₁ x fun more d' => post (answers ++ more) d') : Replies s x post :=
  second.imp fun _ ⟨_, answered, holds⟩ => ⟨_, first.append whole answered, holds⟩

theorem bind {α : Type} {m : α → Prop} {y : Draw Failure α} {f : α → Draw Failure (ℤ × Socket × Daemon u)}
    (first : Draw.Yields y m) (next : ∀ a, m a → Replies s (f a) post) : Replies s (y >>= f) post :=
  Draw.Ensures.bind first next

theorem mono {weaker : List Answer → Daemon u → Prop} (replies : Replies s x post)
    (imp : ∀ answers d', post answers d' → weaker answers d') : Replies s x weaker :=
  replies.imp fun _ ⟨answers, answered, holds⟩ => ⟨answers, answered, imp answers _ holds⟩

end Replies

/-! ## Texts -/

/-- A text that makes one line and does not end the response. -/
def Plain (text : List UInt8) : Prop := newline ∉ text ∧ text ≠ dot

instance (text : List UInt8) : Decidable (Plain text) := inferInstanceAs (Decidable (_ ∧ _))

/-- The bytes of a format that are not part of a directive. -/
def literal : (format : List UInt8) → List UInt8
  | 37 :: _ :: format => literal format
  | c :: format => c :: literal format
  | [] => []

theorem mem_of_literal {format : List UInt8} {c : UInt8} (member : c ∈ literal format) : c ∈ format := by
  fun_induction literal format with
  | case1 directive format ih => exact mem_cons_of_mem _ (mem_cons_of_mem _ (ih member))
  | case2 d format _ ih => exact (mem_cons.mp member).elim (fun same => same ▸ mem_cons_self) fun h => mem_cons_of_mem _ (ih h)
  | case3 => exact member

theorem printf_nil (format : List UInt8) : printf format [] = format := by
  induction format with
  | nil => rfl
  | cons c format ih => rw [printf.eq_2 [] c format nofun, ih]

theorem mem_printf {format : List UInt8} {args : List (List UInt8)} {c : UInt8} (member : c ∈ literal format) :
    c ∈ printf format args := by
  induction args generalizing format with
  | nil =>
    rw [printf_nil]
    exact mem_of_literal member
  | cons arg args ih =>
    fun_induction literal format with
    | case1 directive format _ => exact mem_append_right _ (ih member)
    | case2 d format notDirective later =>
      rw [printf.eq_2 _ _ _ fun directive rest _ _ _ => notDirective directive rest]
      exact (mem_cons.mp member).elim (fun same => same ▸ mem_cons_self) fun h => mem_cons_of_mem _ (later h)
    | case3 => exact member

theorem ne_dot_of_mem {text : List UInt8} {c : UInt8} (member : c ∈ text) (other : c ≠ 46) : text ≠ dot := by
  rintro rfl
  exact other (mem_singleton.mp member)

/-- The formats of the responses. -/
theorem plain_printf {format : List UInt8} {args : List (List UInt8)} (clean : newline ∉ format)
    (words : ∃ c ∈ literal format, c ≠ 46) (inArgs : ∀ arg ∈ args, newline ∉ arg) : Plain (printf format args) := by
  obtain ⟨c, member, other⟩ := words
  exact ⟨not_mem_printf clean inArgs, ne_dot_of_mem (mem_printf member) other⟩

theorem Plain.ofText {text : List UInt8} (plain : Plain text) (err : Bool) : dot ∉ (Answer.ofText err text).lines := by
  rw [Answer.ofText, textLines_of_not_mem plain.1, mem_singleton]
  exact plain.2.symm

theorem newline_not_mem_printInt (n : ℤ) : newline ∉ printInt n := by
  have digits (n : ℕ) : newline ∉ printNat n := fun member => absurd (isDigit_of_mem_printNat member) (by decide)
  unfold printInt
  split
  · rw [mem_cons, not_or]
    exact ⟨by decide, digits _⟩
  · exact digits _

end Scubed3.Control
