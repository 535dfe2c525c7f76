import Scubed3.Model.Dllarr
import Scubed3.ToMathlib.DoublyLinked
import Mathlib

/-! # What a doubly linked array represents

The members are linked between the two ends, the indices count the nodes from the head, which has index -1, to the
tail, which has the number of members, and the array points at the members. Every reading function agrees with the
list of the members.
-/

namespace Scubed3.Dllarr

open DoublyLinked (Links)

variable {ε : Type} {a : Arr ε} {l l₁ l₂ : List ε} {e : ε}

/-- The list with its two ends. -/
def nodes (l : List ε) : List (Elt ε) := .head :: (l.map .of ++ [.tail])

/-- The array points at the members. -/
def Slotted (a : Arr ε) (l : List ε) : Prop :=
  ∃ slots, a.array = some slots ∧ (slots.capacity : ℤ) = a.size ∧
    ∀ i (inside : i < l.length), slots.slot i = some (.of l[i])

/-- The structure represents the list. -/
structure Represents (a : Arr ε) (l : List ε) : Prop where
  nodup : l.Nodup
  links : Links (fun c => (a.cell c).next) (fun c => (a.cell c).prev) (nodes l)
  first : (a.cell .head).prev = none
  last : (a.cell .tail).next = none
  number : ∀ i (inside : i < (nodes l).length), (a.cell (nodes l)[i]).index = i - 1
  magic : ∀ e ∈ l, (a.cell (.of e)).magic = magic
  slotted : Slotted a l
  fits : (l.length : ℤ) ≤ a.size
  size : ∃ k, 5 ≤ k ∧ k ≤ 30 ∧ a.size = 2 ^ k
  offset : 0 ≤ a.offset

/-- The element is in no list: it is fresh, or it was removed. -/
def Unlinked (a : Arr ε) (e : ε) : Prop :=
  (a.cell (.of e)).prev = none ∧ (a.cell (.of e)).next = none ∧ (a.cell (.of e)).index = 0

/-! ### The nodes -/

@[simp] theorem length_nodes (l : List ε) : (nodes l).length = l.length + 2 := by
  simp [nodes]

theorem nodes_succ {i : ℕ} (inside : i < l.length) :
    getElem (nodes l) (i + 1) (by rw [length_nodes]; omega) = .of l[i] := by
  simp [nodes, List.getElem_append_left, inside]

@[simp] theorem of_mem_nodes : .of e ∈ nodes l ↔ e ∈ l := by simp [nodes]

theorem nodes_last (l : List ε) : getElem (nodes l) (l.length + 1) (by rw [length_nodes]; omega) = .tail := by
  simp [nodes]

theorem nodup_nodes (nodup : l.Nodup) : (nodes l).Nodup := by
  have map : (l.map Elt.of).Nodup := nodup.map fun e f same => by cases same; rfl
  refine List.nodup_cons.mpr ⟨by simp, List.nodup_append.mpr ⟨map, List.nodup_singleton _, ?_⟩⟩
  rintro c member d tail rfl
  rw [List.mem_singleton.mp tail] at member
  simp at member

/-- The first node of the second part of a list. -/
def place (l₂ : List ε) : Elt ε :=
  match l₂ with
  | [] => .tail
  | e :: _ => .of e

/-- Between two parts of the list: the node before, and the node after. -/
theorem nodes_split (l₁ l₂ : List ε) : ∃ before x after, before.length = l₁.length ∧ after.length = l₂.length ∧
    nodes (l₁ ++ l₂) = before ++ x :: place l₂ :: after ∧
      ∀ e, nodes (l₁ ++ e :: l₂) = before ++ x :: .of e :: place l₂ :: after := by
  obtain ⟨after, second⟩ : ∃ after, l₂.map Elt.of ++ [.tail] = place l₂ :: after := by
    cases l₂ with
    | nil => exact ⟨[], rfl⟩
    | cons e l₂ => exact ⟨_, rfl⟩
  have some : Elt.head :: l₁.map Elt.of ≠ [] := List.cons_ne_nil _ _
  have front := List.dropLast_concat_getLast some
  have parts (l : List ε) : nodes (l₁ ++ l) = (Elt.head :: l₁.map Elt.of).dropLast ++
      (Elt.head :: l₁.map Elt.of).getLast some :: (l.map .of ++ [.tail]) := by
    calc nodes (l₁ ++ l) = (Elt.head :: l₁.map Elt.of) ++ (l.map .of ++ [.tail]) := by simp [nodes]
      _ = _ := by
        conv_lhs => rw [← front]
        rw [List.append_assoc, List.singleton_append]
  have length := congrArg List.length second
  simp only [List.length_append, List.length_map, List.length_cons, List.length_nil] at length
  refine ⟨(Elt.head :: l₁.map .of).dropLast, (Elt.head :: l₁.map .of).getLast some, after, by simp, by omega, ?_, ?_⟩
  · rw [parts, second]
  · intro e
    rw [parts, List.map_cons, List.cons_append, second]

/-! ### The functions that read -/

theorem check_ok {condition : Prop} [Decidable condition] {text : String} (holds : condition) :
    check condition text = .ok () := if_pos holds

/-- What an iteration over a list does. -/
def visit {σ ρ : Type} (func : ε → σ → Option ρ × σ) : (l : List ε) → (priv : σ) → Option ρ × σ
  | [], priv => (none, priv)
  | e :: l, priv =>
    match func e priv with
    | (some ret, priv) => (some ret, priv)
    | (none, priv) => visit func l priv

/-- The node before a position is the element before it, or none if it is the head. -/
theorem accessPtr_before {i : ℕ} (inside : i ≤ l.length) :
    accessPtr (some (getElem (nodes l) i (by rw [length_nodes]; omega))) = .ok (if i = 0 then none else l[i - 1]?) := by
  cases i with
  | zero => rfl
  | succ i =>
    have inside : i < l.length := inside
    rw [nodes_succ inside, if_neg (Nat.succ_ne_zero i), Nat.add_sub_cancel, List.getElem?_eq_getElem inside]
    rfl

/-- The node behind a position is the element there, or none if it is the tail. -/
theorem accessPtr_behind {i : ℕ} (inside : i < l.length) :
    accessPtr (some (getElem (nodes l) (i + 1 + 1) (by rw [length_nodes]; omega))) = .ok l[i + 1]? := by
  rcases Nat.lt_or_eq_of_le (Nat.succ_le_of_lt inside) with more | last
  · rw [nodes_succ more, List.getElem?_eq_getElem more]
    rfl
  · simp only [show i + 1 = l.length from last, nodes_last, List.getElem?_length]
    rfl

namespace Represents

variable (rep : Represents a l)
include rep

theorem index_of {i : ℕ} (inside : i < l.length) : (a.cell (.of l[i])).index = i := by
  have number := rep.number (i + 1) (by rw [length_nodes]; omega)
  rw [nodes_succ inside] at number
  omega

theorem index_head : (a.cell .head).index = -1 := rep.number 0 (by simp)

theorem index_tail : (a.cell .tail).index = l.length := by
  have number := rep.number (l.length + 1) (by simp)
  rw [nodes_last] at number
  omega

/-- Two neighbours. -/
theorem linked {i : ℕ} (inside : i + 1 < (nodes l).length) :
    (a.cell (nodes l)[i]).next = some (nodes l)[i + 1] ∧ (a.cell (nodes l)[i + 1]).prev = some (nodes l)[i] :=
  List.isChain_iff_getElem.mp rep.links i inside

theorem first_node : (a.cell .head).next = some (getElem (nodes l) 1 (by simp)) := (rep.linked (i := 0) (by simp)).1

theorem last_node : (a.cell .tail).prev = some (getElem (nodes l) l.length (by simp)) := by
  have linked := (rep.linked (i := l.length) (by simp)).2
  rwa [nodes_last] at linked

theorem size_pos : 0 < a.size := by
  obtain ⟨k, -, -, size⟩ := rep.size
  rw [size]
  exact Int.pow_pos (by decide)

theorem accessElt (member : e ∈ l) : accessElt a e = .ok (.of e) := by
  rw [Dllarr.accessElt, check_ok (rep.magic e member)]
  rfl

/-- Following the links from either end. -/
theorem walk_eq {fuel : ℕ} (enough : l.length + 2 ≤ fuel) :
    DoublyLinked.walk (fun c => (a.cell c).next) fuel (some .head) = nodes l ∧
      DoublyLinked.walk (fun c => (a.cell c).prev) fuel (some .tail) = (nodes l).reverse := by
  have back : (nodes l).reverse = .tail :: ((l.map .of).reverse ++ [.head]) := by simp [nodes]
  constructor
  · refine rep.links.walk ?_ (by rw [← length_nodes l] at enough; exact enough)
    simpa using rep.last
  · have links := rep.links.reverse
    rw [back] at links ⊢
    refine links.walk ?_ ?_
    · simpa using rep.first
    · simp only [List.length_append, List.length_reverse, List.length_map, List.length_cons, List.length_nil]
      omega

/-- What the array points at. -/
theorem load_eq {i : ℕ} (inside : i < l.length) : a.load i = .ok (some (.of l[i])) := by
  obtain ⟨slots, array, capacity, slot⟩ := rep.slotted
  have fits := rep.fits
  rw [Arr.load, array]
  dsimp only
  rw [if_pos ⟨by omega, by omega⟩, Int.toNat_natCast, slot i inside]

variable [DecidableEq ε]

theorem dllarrAssert : dllarrAssert a = .ok () := by
  obtain ⟨slots, array, -⟩ := rep.slotted
  have negative : ¬ (a.cell .head).index = 0 := by
    rw [rep.index_head]
    decide
  unfold Dllarr.dllarrAssert
  rw [check_ok ⟨rep.first, rep.last⟩, Except.ok_bind, if_pos negative, check_ok rep.index_head, Except.ok_bind,
    check_ok (by rw [array]; rfl), Except.ok_bind, check_ok rep.offset, Except.ok_bind, check_ok rep.size_pos,
    Except.ok_bind, check_ok (by rw [rep.index_tail]; exact rep.fits), Except.ok_bind, rep.index_tail]
  split
  · next empty =>
    obtain rfl : l = [] := List.length_eq_zero_iff.mp (by exact_mod_cast empty)
    exact check_ok ⟨rep.first_node, rep.last_node⟩
  · exact check_ok ⟨by rw [rep.first_node]; rfl, by rw [rep.last_node]; rfl⟩

theorem first_eq : Dllarr.first a = .ok l.head? := by
  rw [Dllarr.first, rep.dllarrAssert, Except.ok_bind, rep.first_node]
  cases l <;> rfl

theorem last_eq : Dllarr.last a = .ok l.getLast? := by
  rw [Dllarr.last, rep.dllarrAssert, Except.ok_bind, rep.last_node]
  rw [accessPtr_before le_rfl, List.getLast?_eq_getElem?]
  cases l <;> rfl

theorem next_eq {i : ℕ} (inside : i < l.length) : Dllarr.next a l[i] = .ok l[i + 1]? := by
  have linked := (rep.linked (i := i + 1) (by rw [length_nodes]; omega)).1
  rw [nodes_succ inside] at linked
  rw [Dllarr.next, rep.dllarrAssert, Except.ok_bind, rep.accessElt (List.getElem_mem inside), Except.ok_bind, linked]
  exact accessPtr_behind inside

theorem prev_eq {i : ℕ} (inside : i < l.length) : Dllarr.prev a l[i] = .ok (if i = 0 then none else l[i - 1]?) := by
  have linked := (rep.linked (i := i) (by rw [length_nodes]; omega)).2
  simp only [nodes_succ inside] at linked
  rw [Dllarr.prev, rep.dllarrAssert, Except.ok_bind, rep.accessElt (List.getElem_mem inside), Except.ok_bind, linked]
  exact accessPtr_before inside.le

theorem nth_eq {i : ℕ} (inside : i < l.length) : Dllarr.nth a i = .ok (some l[i]) := by
  rw [Dllarr.nth, rep.dllarrAssert, Except.ok_bind, check_ok (by rw [rep.index_tail]; omega), Except.ok_bind,
    rep.load_eq inside]
  rfl

theorem index_eq {i : ℕ} (inside : i < l.length) : Dllarr.index a l[i] = .ok i := by
  rw [Dllarr.index, rep.dllarrAssert, Except.ok_bind, rep.accessElt (List.getElem_mem inside), Except.ok_bind,
    rep.index_of inside]
  rfl

theorem count_eq : Dllarr.count a = .ok l.length := by
  rw [Dllarr.count, rep.dllarrAssert, Except.ok_bind, rep.index_tail]
  rfl

/-- The loop from the node behind position `i` on. -/
theorem iterateLoop_eq {σ ρ : Type} {func : ε → σ → Option ρ × σ} {fuel i : ℕ} {priv : σ} (inside : i ≤ l.length)
    (enough : l.length - i < fuel) :
    iterateLoop a func fuel (some (getElem (nodes l) (i + 1) (by rw [length_nodes]; omega))) priv =
      .ok (visit func (l.drop i) priv) := by
  induction fuel generalizing i priv with
  | zero => omega
  | succ fuel ih =>
    rw [iterateLoop]
    rcases Nat.lt_or_eq_of_le inside with more | rfl
    · have linked := (rep.linked (i := i + 1) (by rw [length_nodes]; omega)).1
      rw [nodes_succ more] at linked ⊢
      rw [if_neg (by simp), List.drop_eq_getElem_cons more, visit]
      simp only [accessPtr, Except.ok_bind]
      rcases func l[i] priv with ⟨_ | ret, priv⟩
      · rw [linked]
        exact ih more (by omega)
      · rfl
    · rw [nodes_last, if_pos rfl, List.drop_length]
      rfl

theorem iterate_eq {σ ρ : Type} (func : ε → σ → Option ρ × σ) {fuel : ℕ} (priv : σ) (enough : l.length < fuel) :
    Dllarr.iterate fuel a func priv = .ok (visit func l priv) := by
  rw [Dllarr.iterate, rep.dllarrAssert, Except.ok_bind, rep.first_node]
  exact rep.iterateLoop_eq (Nat.zero_le _) enough

end Represents

end Scubed3.Dllarr
