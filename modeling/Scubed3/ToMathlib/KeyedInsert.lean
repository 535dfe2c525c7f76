import Mathlib.Data.List.Sort
import Mathlib.Data.List.Pairwise
import Mathlib.Data.List.Perm.Basic

/-! # Insertion into a list kept sorted by a key

Mathlib's `orderedInsert` puts equal keys next to each other. The insertion here refuses an equal
key instead, which is what a list of unique stamps wants. On distinct keys it sorts: the outcome
of inserting several items is the one sorted arrangement of them, whatever order they come in.
-/

namespace List

variable {α γ : Type*} [LinearOrder γ]

/-- Insert before the first entry with a larger key. Meeting an equal key is a failure. -/
def insertByKey (key : α → γ) (a : α) : List α → Option (List α)
  | [] => some [a]
  | c :: rest =>
    if key c < key a then (insertByKey key a rest).map (c :: ·)
    else if key a < key c then some (a :: c :: rest)
    else none

/-- The list is strictly increasing in the key. -/
abbrev SortedByKey (key : α → γ) (l : List α) : Prop := l.Pairwise fun a b => key a < key b

variable {key : α → γ} {a : α} {l l' : List α}

theorem insertByKey_perm (inserted : insertByKey key a l = some l') : l'.Perm (a :: l) := by
  induction l generalizing l' with
  | nil => cases inserted; exact .refl _
  | cons c rest ih =>
    rw [insertByKey] at inserted
    split_ifs at inserted with before after
    · obtain ⟨mid, found, rfl⟩ := Option.map_eq_some_iff.mp inserted
      exact ((ih found).cons c).trans (.swap a c rest)
    · cases inserted
      exact .refl _

/-- Only the keys of the items involved matter. -/
theorem insertByKey_congr {key' : α → γ} (same : ∀ c ∈ a :: l, key c = key' c) :
    insertByKey key a l = insertByKey key' a l := by
  induction l with
  | nil => rfl
  | cons c rest ih =>
    have item : key a = key' a := same a mem_cons_self
    have first : key c = key' c := same c (mem_cons_of_mem _ mem_cons_self)
    rw [insertByKey, insertByKey, item, first, ih fun d member => same d ?_]
    rcases mem_cons.mp member with rfl | inRest
    · exact mem_cons_self
    · exact mem_cons_of_mem _ (mem_cons_of_mem _ inRest)

theorem insertByKey_isSome (fresh : ∀ c ∈ l, key c ≠ key a) : ∃ l', insertByKey key a l = some l' := by
  induction l with
  | nil => exact ⟨[a], rfl⟩
  | cons c rest ih =>
    rw [insertByKey]
    obtain ⟨mid, found⟩ := ih fun other member => fresh other (mem_cons_of_mem _ member)
    split_ifs with before after
    · exact ⟨c :: mid, by rw [found]; rfl⟩
    · exact ⟨_, rfl⟩
    · exact absurd (le_antisymm (not_lt.mp after) (not_lt.mp before)) (fresh c mem_cons_self)

/-- In a sorted list an equal key is met. -/
theorem insertByKey_eq_none (sorted : l.SortedByKey key) {c : α} (member : c ∈ l) (same : key c = key a) :
    insertByKey key a l = none := by
  induction l with
  | nil => cases member
  | cons d rest ih =>
    obtain ⟨head, tail⟩ := pairwise_cons.mp sorted
    rw [insertByKey]
    rcases mem_cons.mp member with rfl | later
    · rw [if_neg same.not_lt, if_neg same.symm.not_lt]
    · have before : key d < key a := same ▸ head c later
      rw [if_pos before, ih tail later, Option.map_none]

theorem insertByKey_sorted (sorted : l.SortedByKey key) (inserted : insertByKey key a l = some l') :
    l'.SortedByKey key := by
  induction l generalizing l' with
  | nil => cases inserted; exact pairwise_singleton _ _
  | cons c rest ih =>
    rw [insertByKey] at inserted
    obtain ⟨head, tail⟩ := pairwise_cons.mp sorted
    split_ifs at inserted with before after
    · obtain ⟨mid, found, rfl⟩ := Option.map_eq_some_iff.mp inserted
      refine pairwise_cons.mpr ⟨fun other member => ?_, ih tail found⟩
      rcases mem_cons.mp ((insertByKey_perm found).mem_iff.mp member) with rfl | member
      · exact before
      · exact head other member
    · cases inserted
      refine pairwise_cons.mpr ⟨fun other member => ?_, sorted⟩
      rcases mem_cons.mp member with rfl | member
      · exact after
      · exact after.trans (head other member)

/-- A strictly sorted arrangement is unique. -/
theorem SortedByKey.eq_of_perm (sorted : l.SortedByKey key) (sorted' : l'.SortedByKey key)
    (perm : l.Perm l') : l = l' :=
  perm.eq_of_pairwise (fun _ _ _ _ below above => absurd below above.asymm) sorted sorted'

theorem SortedByKey.key_ne (sorted : l.SortedByKey key) {b : α} (first : a ∈ l) (second : b ∈ l)
    (different : a ≠ b) : key a ≠ key b := by
  have symmetric : Std.Symm fun a b => key a ≠ key b := ⟨fun _ _ apart => apart.symm⟩
  have apart : l.Pairwise fun a b => key a ≠ key b := sorted.imp fun below => below.ne
  exact apart.forall first second different

/-- Inserting items with new, distinct keys into a sorted list always works, sorts them in, and
keeps every item. -/
theorem foldlM_insertByKey {items : List α} (sorted : l.SortedByKey key)
    (distinct : (items ++ l).Pairwise fun a b => key a ≠ key b) :
    ∃ final, items.foldlM (fun acc item => insertByKey key item acc) l = some final ∧
      final.SortedByKey key ∧ final.Perm (items ++ l) := by
  induction items generalizing l with
  | nil => exact ⟨l, rfl, sorted, .refl _⟩
  | cons item rest ih =>
    obtain ⟨apart, tail⟩ := pairwise_cons.mp distinct
    obtain ⟨mid, found⟩ := insertByKey_isSome
      fun other member => (apart other (mem_append_right _ member)).symm
    have perm : (rest ++ mid).Perm (item :: (rest ++ l)) :=
      ((insertByKey_perm found).append_left rest).trans perm_middle
    obtain ⟨final, folded, ordered, arranged⟩ := ih (insertByKey_sorted sorted found)
      (perm.pairwise_iff (fun apart => apart.symm) |>.mpr distinct)
    exact ⟨final, by rw [foldlM_cons, found]; exact folded, ordered, arranged.trans perm⟩

end List
