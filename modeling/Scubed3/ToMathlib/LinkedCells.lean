import Mathlib.Data.List.Nodup
import Mathlib.Logic.Function.Basic

/-! # Singly linked lists in memory

A cell points to an element or to nothing; every element has a cell of its own, which points to the next element.
An element is inserted behind a cell and removed behind a cell, whatever comes before it, so a thread that works
on a list only needs the cells around the element.
-/

namespace LinkedCells

variable {γ ε : Type} {tail : ε → γ} {next next' : γ → Option ε} {c c' first : γ} {e x : ε} {l : List ε}

/-- The elements from a cell to the end of the list. -/
def Linked (tail : ε → γ) (next : γ → Option ε) : γ → List ε → Prop
  | c, [] => next c = none
  | c, e :: l => next c = some e ∧ Linked tail next (tail e) l

/-- The cell belongs to the list of these elements. -/
def OnList (tail : ε → γ) (first : γ) (l : List ε) (c : γ) : Prop := c = first ∨ ∃ e ∈ l, c = tail e

/-- The element is found behind the cell. -/
def Reach (tail : ε → γ) (next : γ → Option ε) (c : γ) (e : ε) : Prop := ∃ l, Linked tail next c l ∧ e ∈ l

theorem onList_cons_iff : OnList tail first (x :: l) c ↔ c = first ∨ OnList tail (tail x) l c := by
  simp only [OnList, List.mem_cons, exists_eq_or_imp]

namespace Linked

theorem unique {l' : List ε} (linked : Linked tail next c l) (linked' : Linked tail next c l') : l = l' := by
  induction l generalizing c l' with
  | nil =>
    cases l' with
    | nil => rfl
    | cons e l' => exact absurd (linked.symm.trans linked'.1) nofun
  | cons e l ih =>
    cases l' with
    | nil => exact absurd (linked.1.symm.trans linked') nofun
    | cons e' l' =>
      obtain rfl : e = e' := Option.some.inj (linked.1.symm.trans linked'.1)
      rw [ih linked.2 linked'.2]

theorem reach_iff (linked : Linked tail next c l) : Reach tail next c e ↔ e ∈ l := by
  constructor
  · rintro ⟨l', linked', mem⟩
    rwa [linked.unique linked']
  · exact fun mem => ⟨l, linked, mem⟩

/-- What is behind a cell is a list that starts at any cell with the same contents. -/
theorem of_eq (linked : Linked tail next c l) (same : next c' = next c) : Linked tail next c' l := by
  cases l with
  | nil => exact same.trans linked
  | cons e l => exact ⟨same.trans linked.1, linked.2⟩

/-- Cells that are not part of the list do not matter. -/
theorem frame (linked : Linked tail next c l) (same : ∀ c', OnList tail c l c' → next' c' = next c') :
    Linked tail next' c l := by
  induction l generalizing c with
  | nil => exact (same c (.inl rfl)).trans linked
  | cons e l ih =>
    refine ⟨(same c (.inl rfl)).trans linked.1, ih linked.2 fun c' on => same c' ?_⟩
    exact onList_cons_iff.mpr (.inr on)

/-- A cell of the list points to an element of the list. -/
theorem mem_of_next (linked : Linked tail next first l) (on : OnList tail first l c) (points : next c = some e) :
    e ∈ l := by
  induction l generalizing first with
  | nil =>
    rcases on with rfl | ⟨y, ⟨⟩, -⟩
    exact absurd (linked.symm.trans points) nofun
  | cons y l ih =>
    rcases onList_cons_iff.mp on with rfl | on
    · rw [Option.some.inj (points.symm.trans linked.1)]
      exact List.mem_cons_self
    · exact List.mem_cons_of_mem y (ih linked.2 on)

/-- What is behind a cell of the list is the end of the list. -/
theorem suffix (linked : Linked tail next first l) (on : OnList tail first l c) :
    ∃ after, Linked tail next c after ∧ after <:+ l := by
  induction l generalizing first with
  | nil =>
    rcases on with rfl | ⟨y, ⟨⟩, -⟩
    exact ⟨[], linked, List.suffix_rfl⟩
  | cons y l ih =>
    rcases onList_cons_iff.mp on with rfl | on
    · exact ⟨y :: l, linked, List.suffix_rfl⟩
    · obtain ⟨after, found, part⟩ := ih linked.2 on
      exact ⟨after, found, part.trans (List.suffix_cons y l)⟩

/-- What is behind the cell of an element of the list. -/
theorem after {before after : List ε} (linked : Linked tail next first (before ++ e :: after)) :
    Linked tail next (tail e) after := by
  induction before generalizing first with
  | nil => exact linked.2
  | cons y before ih => exact ih linked.2

theorem reach_mem (linked : Linked tail next first l) (on : OnList tail first l c) (reach : Reach tail next c e) :
    e ∈ l := by
  obtain ⟨after, found, part⟩ := linked.suffix on
  exact part.subset (found.reach_iff.mp reach)

/-- An element that occurs once has one predecessor. -/
theorem predecessor (linked : Linked tail next first l) (nodup : l.Nodup) (on : OnList tail first l c)
    (on' : OnList tail first l c') (points : next c = some e) (points' : next c' = some e) : c = c' := by
  induction l generalizing first with
  | nil =>
    rcases on with rfl | ⟨y, ⟨⟩, -⟩
    exact absurd (linked.symm.trans points) nofun
  | cons y l ih =>
    obtain ⟨new, rest⟩ := List.nodup_cons.mp nodup
    rcases onList_cons_iff.mp on with here | later
    · rw [here, linked.1] at points
      cases points
      rcases onList_cons_iff.mp on' with here' | later'
      · rw [here, here']
      · exact absurd (mem_of_next linked.2 later' points') new
    · rcases onList_cons_iff.mp on' with here' | later'
      · rw [here', linked.1] at points'
        cases points'
        exact absurd (mem_of_next linked.2 later points) new
      · exact ih linked.2 rest later later'

/-- The next element comes later. -/
theorem idxOf_lt [DecidableEq ε] (linked : Linked tail next first l) (nodup : l.Nodup) (mem : x ∈ l)
    (points : next (tail x) = some e) : l.idxOf x < l.idxOf e := by
  induction l generalizing first with
  | nil => cases mem
  | cons y l ih =>
    obtain ⟨new, rest⟩ := List.nodup_cons.mp nodup
    have later : e ∈ l := by
      refine mem_of_next linked.2 ?_ points
      rcases List.mem_cons.mp mem with rfl | inRest
      · exact .inl rfl
      · exact .inr ⟨x, inRest, rfl⟩
    have other : y ≠ e := by
      rintro rfl
      exact new later
    rw [List.idxOf_cons_ne l other]
    by_cases same : y = x
    · rw [List.idxOf_cons_eq l same]
      exact Nat.succ_pos _
    · rw [List.idxOf_cons_ne l same]
      exact Nat.succ_lt_succ (ih linked.2 rest (List.mem_of_ne_of_mem (Ne.symm same) mem))

variable [DecidableEq γ]

/-- An element whose cell already points to the first element is put in front. -/
theorem insert (linked : Linked tail next first l) (ready : next (tail x) = next first) (other : tail x ≠ first)
    (apart : ∀ e ∈ l, tail e ≠ first) : Linked tail (Function.update next first (some x)) first (x :: l) := by
  refine ⟨Function.update_self .., ?_⟩
  refine (linked.of_eq ready).frame fun c on => Function.update_of_ne ?_ _ _
  rcases on with rfl | ⟨e, mem, rfl⟩
  · exact other
  · exact apart e mem

/-- The only cell that points to an element is made to point to the next one. -/
theorem remove [DecidableEq ε] (linked : Linked tail next first l) (points : next c = some e) (other : tail e ≠ c)
    (only : ∀ c', OnList tail first l c' → next c' = some e → c' = c) :
    Linked tail (Function.update next c (next (tail e))) first (l.filter (· ≠ e)) := by
  induction l generalizing first with
  | nil =>
    refine (Function.update_of_ne ?_ _ _).trans linked
    rintro rfl
    exact absurd (linked.symm.trans points) nofun
  | cons y l ih =>
    have rest := ih linked.2 fun c' on => only c' (onList_cons_iff.mpr (.inr on))
    by_cases same : y = e
    · subst same
      obtain rfl := only first (.inl rfl) linked.1
      rw [List.filter_cons_of_neg (by simp)]
      exact rest.of_eq ((Function.update_self ..).trans (Function.update_of_ne other _ _).symm)
    · have here : first ≠ c := by
        rintro rfl
        exact same (Option.some.inj (linked.1.symm.trans points))
      rw [List.filter_cons_of_pos (by simpa using same)]
      exact ⟨(Function.update_of_ne here _ _).trans linked.1, rest⟩

end Linked

namespace Reach

theorem tail_of_next (reach : Reach tail next c x) (points : next c = some e) : x = e ∨ Reach tail next (tail e) x := by
  obtain ⟨_ | ⟨y, l⟩, linked, mem⟩ := reach
  · cases mem
  · obtain rfl := Option.some.inj (linked.1.symm.trans points)
    exact (List.mem_cons.mp mem).imp id fun mem => ⟨l, linked.2, mem⟩

theorem cons (reach : Reach tail next (tail e) x) (points : next c = some e) : Reach tail next c x := by
  obtain ⟨l, linked, mem⟩ := reach
  exact ⟨e :: l, ⟨points, linked⟩, List.mem_cons_of_mem e mem⟩

theorem next_ne_none (reach : Reach tail next c x) : next c ≠ none := by
  obtain ⟨_ | ⟨y, l⟩, linked, mem⟩ := reach
  · cases mem
  · rw [linked.1]
    nofun

end Reach

end LinkedCells
