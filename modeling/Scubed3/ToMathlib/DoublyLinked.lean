import Mathlib.Data.List.Chain
import Mathlib.Data.List.Nodup
import Mathlib.Tactic.Common

/-! # Doubly linked lists in memory

Consecutive nodes are linked both ways by two maps on nodes. A node is put between two neighbours, or taken out from
between them, by changes that only concern the three nodes; the maps are compared node by node, so the order in
which a program makes its changes does not matter.
-/

namespace DoublyLinked

open List

variable {γ : Type} {next prev next' prev' : γ → Option γ} {x y n : γ} {before after l : List γ}

/-- Consecutive nodes are linked both ways. -/
def Links (next prev : γ → Option γ) (l : List γ) : Prop := l.IsChain fun x y => next x = some y ∧ prev y = some x

theorem links_append : Links next prev (before ++ x :: after) ↔
    Links next prev (before ++ [x]) ∧ Links next prev (x :: after) :=
  isChain_split

theorem links_cons_cons : Links next prev (x :: y :: after) ↔
    (next x = some y ∧ prev y = some x) ∧ Links next prev (y :: after) :=
  isChain_cons_cons

namespace Links

/-- Two neighbours. -/
theorem at_ (links : Links next prev (before ++ x :: y :: after)) : next x = some y ∧ prev y = some x :=
  (links_cons_cons.mp (links_append.mp links).2).1

/-- The links of the last node to the right and of the first node to the left do not matter. -/
theorem congr (links : Links next prev l) (sameNext : ∀ c ∈ l.dropLast, next' c = next c)
    (samePrev : ∀ c ∈ l.tail, prev' c = prev c) : Links next' prev' l := by
  induction l with
  | nil => exact .nil
  | cons x l ih =>
    cases l with
    | nil => exact .singleton x
    | cons y after =>
      obtain ⟨⟨right, left⟩, rest⟩ := links_cons_cons.mp links
      refine links_cons_cons.mpr ⟨⟨?_, ?_⟩, ih rest (fun c member => sameNext c ?_) fun c member => samePrev c ?_⟩
      · rw [sameNext x (by simp), right]
      · rw [samePrev y (by simp), left]
      · exact mem_cons_of_mem x member
      · exact mem_cons_of_mem y member

/-- What the changes around three nodes leave of the two parts of a list. -/
theorem around (first : Links next prev (before ++ [x])) (last : Links next prev (y :: after))
    (nodup : (before ++ x :: n :: y :: after).Nodup) (sameNext : ∀ c, c ≠ x → c ≠ n → next' c = next c)
    (samePrev : ∀ c, c ≠ n → c ≠ y → prev' c = prev c) :
    Links next' prev' (before ++ [x]) ∧ Links next' prev' (y :: after) := by
  obtain ⟨-, nodup', apart⟩ := nodup_append.mp nodup
  obtain ⟨xs, nodup'⟩ := nodup_cons.mp nodup'
  obtain ⟨ns, nodup'⟩ := nodup_cons.mp nodup'
  obtain ⟨ys, -⟩ := nodup_cons.mp nodup'
  simp only [mem_cons, not_or] at xs ns apart
  constructor
  · refine first.congr (fun c member => ?_) fun c member => ?_
    · rw [dropLast_concat] at member
      exact sameNext c (apart c member x (.inl rfl)) (apart c member n (.inr (.inl rfl)))
    · rcases mem_append.mp (mem_of_mem_tail member) with inside | here
      · exact samePrev c (apart c inside n (.inr (.inl rfl))) (apart c inside y (.inr (.inr (.inl rfl))))
      · rw [mem_singleton.mp here]
        exact samePrev x xs.1 xs.2.1
  · refine last.congr (fun c member => ?_) fun c member => ?_
    · rcases mem_cons.mp (dropLast_subset _ member) with rfl | inside
      · exact sameNext c (Ne.symm xs.2.1) (Ne.symm ns.1)
      · exact sameNext c (fun same => xs.2.2 (same ▸ inside)) fun same => ns.2 (same ▸ inside)
    · exact samePrev c (fun same => ns.2 (same ▸ member)) fun same => ys (same ▸ member)

/-- A node is put between two neighbours. -/
theorem insert (links : Links next prev (before ++ x :: y :: after)) (nodup : (before ++ x :: n :: y :: after).Nodup)
    (right : next' x = some n ∧ prev' n = some x) (left : next' n = some y ∧ prev' y = some n)
    (sameNext : ∀ c, c ≠ x → c ≠ n → next' c = next c) (samePrev : ∀ c, c ≠ n → c ≠ y → prev' c = prev c) :
    Links next' prev' (before ++ x :: n :: y :: after) := by
  obtain ⟨first, second⟩ := links_append.mp links
  obtain ⟨first, last⟩ := first.around (links_cons_cons.mp second).2 nodup sameNext samePrev
  exact links_append.mpr ⟨first, links_cons_cons.mpr ⟨right, links_cons_cons.mpr ⟨left, last⟩⟩⟩

/-- A node is taken out. -/
theorem remove (links : Links next prev (before ++ x :: n :: y :: after))
    (nodup : (before ++ x :: n :: y :: after).Nodup) (joined : next' x = some y ∧ prev' y = some x)
    (sameNext : ∀ c, c ≠ x → c ≠ n → next' c = next c) (samePrev : ∀ c, c ≠ n → c ≠ y → prev' c = prev c) :
    Links next' prev' (before ++ x :: y :: after) := by
  obtain ⟨first, second⟩ := links_append.mp links
  obtain ⟨first, last⟩ := first.around (links_cons_cons.mp (links_cons_cons.mp second).2).2 nodup sameNext samePrev
  exact links_append.mpr ⟨first, links_cons_cons.mpr ⟨joined, last⟩⟩

theorem reverse (links : Links next prev l) : Links prev next l.reverse := by
  refine isChain_reverse.mpr (links.imp fun x y linked => ?_)
  exact ⟨linked.2, linked.1⟩

end Links

/-- The nodes that are found by following a map, at most `fuel` of them. -/
def walk (next : γ → Option γ) : (fuel : ℕ) → Option γ → List γ
  | 0, _ => []
  | _, none => []
  | fuel + 1, some x => x :: walk next fuel (next x)

/-- Following the links from the first node gives the list. -/
theorem Links.walk {fuel : ℕ} (links : Links next prev (x :: l)) (ends : next ((x :: l).getLast (cons_ne_nil _ _)) = none)
    (enough : (x :: l).length ≤ fuel) : DoublyLinked.walk next fuel (some x) = x :: l := by
  induction l generalizing x fuel with
  | nil =>
    obtain ⟨fuel, rfl⟩ : ∃ more, fuel = more + 1 := ⟨fuel - 1, by simp at enough; omega⟩
    have ends : next x = none := ends
    rw [DoublyLinked.walk, ends]
    cases fuel <;> rfl
  | cons y l ih =>
    obtain ⟨fuel, rfl⟩ : ∃ more, fuel = more + 1 := ⟨fuel - 1, by simp at enough; omega⟩
    obtain ⟨linked, rest⟩ := links_cons_cons.mp links
    rw [getLast_cons (cons_ne_nil _ _)] at ends
    rw [DoublyLinked.walk, linked.1, ih rest ends (Nat.le_of_succ_le_succ enough)]

end DoublyLinked
