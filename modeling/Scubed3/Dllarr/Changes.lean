import Scubed3.Dllarr.Representation

/-! # What the functions do that change a doubly linked array

An insertion and a removal happen between two parts of the list. The array has a gap there for a moment; the links
change around three nodes; the nodes behind the place are renumbered.
-/

namespace Scubed3.Dllarr

open DoublyLinked (Links)

variable {ε : Type} {a b : Arr ε} {l l₁ l₂ : List ε} {e new : ε} {fuel : ℕ}

/-! ### The array -/

/-- There is a free place in the array between two parts of the list. -/
def Gap (a : Arr ε) (l₁ l₂ : List ε) : Prop :=
  ∃ slots, a.array = some slots ∧ (slots.capacity : ℤ) = a.size ∧ l₁.length + l₂.length < slots.capacity ∧
    (∀ i (inside : i < l₁.length), slots.slot i = some (.of l₁[i])) ∧
      ∀ i (inside : i < l₂.length), slots.slot (l₁.length + 1 + i) = some (.of l₂[i])

theorem Gap.store (gap : Gap a l₁ l₂) (new : ε) : ∃ b, a.store l₁.length (.of new) = .ok b ∧ b.cell = a.cell ∧
    b.size = a.size ∧ b.offset = a.offset ∧ Slotted b (l₁ ++ new :: l₂) := by
  obtain ⟨slots, array, capacity, room, low, high⟩ := gap
  have ran : a.store l₁.length (.of new) = .ok { a with
      array := some { slots with slot := Function.update slots.slot l₁.length (some (.of new)) } } := by
    rw [Arr.store, array]
    dsimp only
    rw [if_pos ⟨by omega, by omega⟩]
    rfl
  refine ⟨_, ran, rfl, rfl, rfl, _, rfl, capacity, fun i inside => ?_⟩
  · dsimp only
    rcases Nat.lt_trichotomy i l₁.length with before | rfl | behind
    · rw [Function.update_of_ne (by omega), low i before, List.getElem_append_left before]
    · rw [Function.update_self, List.getElem_append_right le_rfl]
      simp
    · obtain ⟨k, rfl⟩ : ∃ k, i = l₁.length + 1 + k := ⟨i - l₁.length - 1, by omega⟩
      rw [Function.update_of_ne (by omega), high k (by simp at inside; omega), List.getElem_append_right (by omega)]
      simp [show l₁.length + 1 + k - l₁.length = k + 1 by omega]

theorem Slotted.moveUp (slotted : Slotted a (l₁ ++ l₂)) (room : ((l₁ ++ l₂).length : ℤ) < a.size) :
    ∃ b, a.memmove (l₁.length + 1) l₁.length l₂.length = .ok b ∧ b.cell = a.cell ∧ b.size = a.size ∧
      b.offset = a.offset ∧ Gap b l₁ l₂ := by
  obtain ⟨slots, array, capacity, slot⟩ := slotted
  rw [List.length_append] at room
  have ran : a.memmove (l₁.length + 1) l₁.length l₂.length = .ok { a with
      array := some {
        slots with
        slot := Memory.blit slots.slot (l₁.length + 1) l₂.length fun k => slots.slot (l₁.length + k) } } := by
    rw [Arr.memmove, array]
    dsimp only
    rw [if_pos ⟨by omega, by omega, by omega, by omega, by omega⟩]
    rfl
  refine ⟨_, ran, rfl, rfl, rfl, _, rfl, capacity, (by omega : _ < slots.capacity), fun i inside => ?_, fun i inside => ?_⟩
  · dsimp only
    rw [Memory.blit_outside _ _ (by omega), slot i (by simp; omega), List.getElem_append_left inside]
  · dsimp only
    rw [Memory.blit_inside _ _ (by omega), slot (l₁.length + i) (by simp; omega), List.getElem_append_right (by omega)]
    simp

theorem Slotted.moveDown (slotted : Slotted a (l₁ ++ e :: l₂)) (fits : ((l₁ ++ e :: l₂).length : ℤ) ≤ a.size) :
    ∃ b, a.memmove l₁.length (l₁.length + 1) l₂.length = .ok b ∧ b.cell = a.cell ∧ b.size = a.size ∧
      b.offset = a.offset ∧ Slotted b (l₁ ++ l₂) := by
  obtain ⟨slots, array, capacity, slot⟩ := slotted
  rw [List.length_append, List.length_cons] at fits
  have ran : a.memmove l₁.length (l₁.length + 1) l₂.length = .ok { a with
      array := some {
        slots with
        slot := Memory.blit slots.slot l₁.length l₂.length fun k => slots.slot (l₁.length + 1 + k) } } := by
    rw [Arr.memmove, array]
    dsimp only
    rw [if_pos ⟨by omega, by omega, by omega, by omega, by omega⟩]
    rfl
  refine ⟨_, ran, rfl, rfl, rfl, _, rfl, capacity, fun i inside => ?_⟩
  · dsimp only
    rw [List.length_append] at inside
    by_cases before : i < l₁.length
    · rw [Memory.blit_outside _ _ (by omega), slot i (by simp; omega), List.getElem_append_left before,
        List.getElem_append_left before]
    · obtain ⟨k, rfl⟩ : ∃ k, i = l₁.length + k := ⟨i - l₁.length, by omega⟩
      rw [Memory.blit_inside _ _ (by omega), slot (l₁.length + 1 + k) (by simp; omega),
        List.getElem_append_right (by omega), List.getElem_append_right (by omega)]
      simp [show l₁.length + 1 + k - l₁.length = k + 1 by omega]

/-! ### The nodes around a place -/

/-- The nodes are numbered from `first` on. -/
def Numbered (a : Arr ε) : (first : ℤ) → List (Elt ε) → Prop
  | _, [] => True
  | first, c :: rest => (a.cell c).index = first ∧ Numbered a (first + 1) rest

theorem numbered_iff {first : ℤ} {rest : List (Elt ε)} : Numbered a first rest ↔
    ∀ i (inside : i < rest.length), (a.cell rest[i]).index = first + i := by
  induction rest generalizing first with
  | nil => exact iff_of_true trivial nofun
  | cons c rest ih =>
    rw [Numbered, ih]
    constructor
    · rintro ⟨here, behind⟩ (_ | i) inside
      · simpa using here
      · have number := behind i (Nat.lt_of_succ_lt_succ inside)
        rw [List.getElem_cons_succ, number]
        push_cast
        omega
    · intro all
      refine ⟨by simpa using all 0 (Nat.succ_pos _), fun i inside => ?_⟩
      have number := all (i + 1) (Nat.succ_lt_succ inside)
      rw [List.getElem_cons_succ] at number
      push_cast at number
      omega

theorem numbered_append {first : ℤ} {front rest : List (Elt ε)} :
    Numbered a first (front ++ rest) ↔ Numbered a first front ∧ Numbered a (first + front.length) rest := by
  induction front generalizing first with
  | nil => simp [Numbered]
  | cons c front ih =>
    rw [List.cons_append, Numbered, Numbered, ih, and_assoc, List.length_cons]
    push_cast
    rw [add_assoc, add_comm (1 : ℤ)]

/-- The numbers may be changed by the same amount everywhere. -/
theorem Numbered.add {first : ℤ} {rest : List (Elt ε)} (numbered : Numbered a first rest) (change : ℤ)
    (same : ∀ c ∈ rest, (b.cell c).index = (a.cell c).index + change) : Numbered b (first + change) rest := by
  rw [numbered_iff] at numbered ⊢
  intro i inside
  rw [same _ (List.getElem_mem inside), numbered i inside]
  omega

theorem Numbered.congr {first : ℤ} {rest : List (Elt ε)} (numbered : Numbered a first rest)
    (same : ∀ c ∈ rest, (b.cell c).index = (a.cell c).index) : Numbered b first rest := by
  simpa using numbered.add (b := b) 0 (by simpa using same)

theorem Represents.numbered (rep : Represents a l) : Numbered a (-1) (nodes l) :=
  numbered_iff.mpr fun i inside => by rw [rep.number i inside]; omega

/-- The nodes in front of a place, `x` the last of them, and those behind it, of the list with and without an element
at the place. -/
structure Between (l₁ l₂ : List ε) (new : ε) (before : List (Elt ε)) (x : Elt ε) (after : List (Elt ε)) : Prop where
  length : before.length = l₁.length
  old : nodes (l₁ ++ l₂) = before ++ x :: place l₂ :: after
  added : nodes (l₁ ++ new :: l₂) = before ++ x :: .of new :: place l₂ :: after
  nodup : (before ++ x :: .of new :: place l₂ :: after).Nodup

theorem exists_between (nodup : (l₁ ++ new :: l₂).Nodup) : ∃ before x after, Between l₁ l₂ new before x after := by
  obtain ⟨before, x, after, length, -, old, added⟩ := nodes_split l₁ l₂
  exact ⟨before, x, after, length, old, added new, added new ▸ nodup_nodes nodup⟩

namespace Between

variable {before after : List (Elt ε)} {x : Elt ε} (between : Between l₁ l₂ new before x after)
include between

theorem length_after : after.length = l₂.length := by
  have lengths := congrArg List.length between.old
  have length := between.length
  simp only [length_nodes, List.length_append, List.length_cons] at lengths
  omega

theorem apart : x ≠ .of new ∧ x ≠ place l₂ ∧ .of new ≠ place l₂ ∧ (place l₂ :: after).Nodup := by
  obtain ⟨-, nodup, -⟩ := List.nodup_append.mp between.nodup
  obtain ⟨xs, nodup⟩ := List.nodup_cons.mp nodup
  obtain ⟨news, nodup⟩ := List.nodup_cons.mp nodup
  simp only [List.mem_cons, not_or] at xs news
  exact ⟨xs.1, xs.2.1, news.1, nodup⟩

/-- The nodes in front, the new one and those behind are different. -/
theorem not_behind {c : Elt ε} (front : c ∈ before ++ [x]) : c ≠ .of new ∧ c ∉ place l₂ :: after := by
  have nodup : (before ++ [x] ++ .of new :: place l₂ :: after).Nodup := by
    rw [List.append_assoc, List.singleton_append]
    exact between.nodup
  have apart := (List.nodup_append.mp nodup).2.2 c front
  exact ⟨apart _ List.mem_cons_self, fun behind => apart c (List.mem_cons_of_mem _ behind) rfl⟩

theorem new_not_behind : .of new ∉ place l₂ :: after := by
  obtain ⟨-, nodup, -⟩ := List.nodup_append.mp between.nodup
  exact (List.nodup_cons.mp (List.nodup_cons.mp nodup).2).1

theorem split : nodes (l₁ ++ l₂) = (before ++ [x]) ++ place l₂ :: after ∧
    nodes (l₁ ++ new :: l₂) = (before ++ [x]) ++ .of new :: place l₂ :: after := by
  rw [between.old, between.added, List.append_assoc, List.append_assoc]
  exact ⟨rfl, rfl⟩

/-- The last node is the tail. -/
theorem getLast_behind : (place l₂ :: after).getLast (List.cons_ne_nil _ _) = .tail := by
  have last : (nodes (l₁ ++ l₂)).getLast (List.cons_ne_nil _ _) = .tail := by simp [nodes]
  simpa [between.old] using last

theorem ends : x ≠ .tail ∧ place l₂ ≠ .head := by
  refine ⟨fun same => ?_, by cases l₂ <;> exact nofun⟩
  refine (between.not_behind (c := x) (by simp)).2 ?_
  rw [same, ← between.getLast_behind]
  exact List.getLast_mem _

end Between

/-! ### The nodes -/

variable [DecidableEq ε]

omit [DecidableEq ε] in
theorem deref_some (elt : Elt ε) : deref (some elt) = .ok elt := rfl

@[simp] theorem Arr.modify_cell (a : Arr ε) (elt c : Elt ε) (f : Cell ε → Cell ε) :
    (a.modify elt f).cell c = if c = elt then f (a.cell elt) else a.cell c := by
  simp only [Arr.modify, Function.update_apply]

@[simp] theorem Arr.modify_array (a : Arr ε) (elt : Elt ε) (f : Cell ε → Cell ε) : (a.modify elt f).array = a.array := rfl

@[simp] theorem Arr.modify_size (a : Arr ε) (elt : Elt ε) (f : Cell ε → Cell ε) : (a.modify elt f).size = a.size := rfl

@[simp] theorem Arr.modify_offset (a : Arr ε) (elt : Elt ε) (f : Cell ε → Cell ε) :
    (a.modify elt f).offset = a.offset := rfl

/-- Two structures that only differ in their nodes. -/
structure SameArray (a b : Arr ε) : Prop where
  array : b.array = a.array
  size : b.size = a.size
  offset : b.offset = a.offset

theorem modify_next (a : Arr ε) (change : ℤ) (c d : Elt ε) :
    ((a.modify c fun cell => { cell with index := cell.index + change }).cell d).next = (a.cell d).next ∧
      ((a.modify c fun cell => { cell with index := cell.index + change }).cell d).prev = (a.cell d).prev := by
  rw [Arr.modify_cell]
  split
  · next same => rw [same]; exact ⟨rfl, rfl⟩
  · exact ⟨rfl, rfl⟩

/-- Every node of the list gets its number changed, and nothing else changes. -/
theorem renumber_eq (change : ℤ) {c : Elt ε} {rest : List (Elt ε)}
    (links : Links (fun c => (a.cell c).next) (fun c => (a.cell c).prev) (c :: rest))
    (ends : (a.cell ((c :: rest).getLast (List.cons_ne_nil _ _))).next = none) (nodup : (c :: rest).Nodup)
    (enough : rest.length < fuel) : ∃ b, renumber change fuel a (some c) = .ok b ∧ SameArray a b ∧
      ∀ d, b.cell d = if d ∈ c :: rest then { a.cell d with index := (a.cell d).index + change } else a.cell d := by
  obtain ⟨fuel, rfl⟩ : ∃ more, fuel = more + 1 := ⟨fuel - 1, by omega⟩
  induction rest generalizing a c fuel with
  | nil =>
    have ends : (a.cell c).next = none := ends
    refine ⟨a.modify c fun cell => { cell with index := cell.index + change }, ?_, ⟨rfl, rfl, rfl⟩, fun d => ?_⟩
    · rw [renumber, (modify_next a change c c).1, ends]
      cases fuel <;> rfl
    · rw [Arr.modify_cell]
      simp only [List.mem_singleton]
      split
      · next same => rw [same]
      · rfl
  | cons d rest ih =>
    obtain ⟨⟨right, -⟩, tail⟩ := DoublyLinked.links_cons_cons.mp links
    obtain ⟨new, nodup⟩ := List.nodup_cons.mp nodup
    rw [List.getLast_cons (List.cons_ne_nil _ _)] at ends
    rw [List.length_cons] at enough
    obtain ⟨fuel, rfl⟩ : ∃ more, fuel = more + 1 := ⟨fuel - 1, by omega⟩
    obtain ⟨b, ran, same, cells⟩ := ih (a := a.modify c fun cell => { cell with index := cell.index + change }) (c := d)
      (tail.congr (fun x _ => (modify_next a change c x).1) fun x _ => (modify_next a change c x).2)
      ((modify_next a change c _).1.trans ends) nodup fuel (by omega)
    refine ⟨b, ?_, ⟨same.array, same.size, same.offset⟩, fun x => ?_⟩
    · rw [renumber, (modify_next a change c c).1, right]
      exact ran
    · rw [cells, Arr.modify_cell]
      by_cases here : x = c
      · subst here
        rw [if_neg new, if_pos rfl, if_pos List.mem_cons_self]
      · simp only [List.mem_cons, here, false_or, if_false]

/-! ### Insertion -/

omit [DecidableEq ε] in
/-- There is room for one more pointer, and the nodes are not touched. -/
theorem makeRoom_spec (rep : Represents a l) (small : l.length + 1 < 2 ^ 30) : ∃ b, makeRoom a = .ok b ∧
    b.cell = a.cell ∧ b.offset = a.offset ∧ Slotted b l ∧ (l.length : ℤ) < b.size ∧
      ∃ k, 5 ≤ k ∧ k ≤ 30 ∧ b.size = 2 ^ k := by
  obtain ⟨slots, array, capacity, slot⟩ := rep.slotted
  obtain ⟨k, low, high, size⟩ := rep.size
  have fits := rep.fits
  rw [makeRoom, rep.index_tail]
  split
  · next full =>
    have less : k < 30 := by
      by_contra large
      obtain rfl : k = 30 := by omega
      rw [size] at full
      omega
    have bound : (2 : ℤ) ^ k ≤ 2 ^ 29 := by exact_mod_cast Nat.pow_le_pow_right (by decide) (Nat.le_of_lt_succ less)
    rw [grow, array]
    dsimp only
    rw [if_pos (by rw [size]; omega)]
    refine ⟨_, rfl, rfl, rfl, ⟨_, rfl, ?_, fun i inside => ?_⟩, ?_, k + 1, by omega, by omega, ?_⟩
    · have := rep.size_pos
      dsimp only
      omega
    · dsimp only
      rw [if_pos (by omega), slot i inside]
    · have := rep.size_pos
      dsimp only
      omega
    · dsimp only
      rw [size, pow_succ]
  · next room => exact ⟨a, rfl, rfl, rfl, rep.slotted, by omega, k, low, high, size⟩

/-- The part of `dllarr_insert` that links the new element, when the array has a gap for it: what becomes of the
nodes. -/
theorem link_spec (rep : Represents a (l₁ ++ l₂)) {before after : List (Elt ε)} {x : Elt ε}
    (between : Between l₁ l₂ new before x after) (cell : b.cell = a.cell) (gap : Gap b l₁ l₂)
    (enough : l₂.length < fuel) : ∃ c, link fuel b (.of new) (place l₂) = .ok c ∧ Slotted c (l₁ ++ new :: l₂) ∧
      c.size = b.size ∧ c.offset = b.offset ∧
      (∀ d, (c.cell d).next =
        if d = .of new then some (place l₂) else if d = x then some (.of new) else (a.cell d).next) ∧
      (∀ d, (c.cell d).prev =
        if d = .of new then some x else if d = place l₂ then some (.of new) else (a.cell d).prev) ∧
      (∀ d, (c.cell d).index = if d = .of new then (l₁.length : ℤ)
        else if d ∈ place l₂ :: after then (a.cell d).index + 1 else (a.cell d).index) ∧
      ∀ d, (c.cell d).magic = if d = .of new then magic else (a.cell d).magic := by
  obtain ⟨xNew, xPlace, newPlace, nodup⟩ := between.apart
  have links := rep.links
  rw [between.old] at links
  obtain ⟨right, left⟩ := links.at_
  have number : (a.cell (place l₂)).index = l₁.length := by
    have numbered := rep.numbered
    rw [between.old, ← List.singleton_append, ← List.append_assoc, numbered_append, Numbered, List.length_append,
      between.length] at numbered
    have := numbered.2.1
    simp at this
    omega
  obtain ⟨stored, store, cell', size', offset', slotted⟩ :=
    Gap.store (a := b.modify (.of new) fun c => { c with index := l₁.length }) gap new
  let linked := ((((stored.modify x fun c => { c with next := some (.of new) }).modify (.of new)
    fun c => { c with prev := some x }).modify (.of new) fun c => { c with next := some (place l₂) }).modify (place l₂)
    fun c => { c with prev := some (.of new) })
  have cells (d : Elt ε) : linked.cell d =
      if d = .of new then { a.cell d with index := l₁.length, prev := some x, next := some (place l₂) }
      else if d = place l₂ then { a.cell d with prev := some (.of new) }
      else if d = x then { a.cell d with next := some (.of new) }
      else a.cell d := by
    simp only [linked, Arr.modify_cell, cell', cell]
    by_cases dNew : d = .of new
    · subst dNew
      simp [newPlace, Ne.symm xNew]
    · by_cases dPlace : d = place l₂
      · subst dPlace
        simp [dNew, Ne.symm xPlace]
      · by_cases dX : d = x
        · subst dX
          simp [dNew, dPlace]
        · simp [dNew, dPlace, dX]
  have behind : ∀ d ∈ place l₂ :: after, d ≠ .of new ∧ d ≠ x := fun d member =>
    ⟨fun same => between.new_not_behind (same ▸ member), fun same => (between.not_behind (by simp)).2 (same ▸ member)⟩
  have next (d : Elt ε) (member : d ∈ place l₂ :: after) : (linked.cell d).next = (a.cell d).next := by
    rw [cells, if_neg (behind d member).1, if_neg (behind d member).2]
    split <;> rfl
  have prev (d : Elt ε) (member : d ∈ after) : (linked.cell d).prev = (a.cell d).prev := by
    have notNew := behind d (List.mem_cons_of_mem _ member)
    have notPlace : d ≠ place l₂ := fun same => (List.nodup_cons.mp nodup).1 (same ▸ member)
    rw [cells, if_neg notNew.1, if_neg notPlace, if_neg notNew.2]
  have linksBehind : Links (fun d => (linked.cell d).next) (fun d => (linked.cell d).prev) (place l₂ :: after) :=
    (DoublyLinked.links_cons_cons.mp (DoublyLinked.links_append.mp links).2).2.congr
      (fun d member => next d (List.dropLast_subset _ member)) prev
  have enoughBehind : after.length < fuel := by rwa [between.length_after]
  obtain ⟨renumbered, ran, same, numbers⟩ := renumber_eq 1 linksBehind
    (by rw [next _ (List.getLast_mem _), between.getLast_behind, rep.last]) nodup enoughBehind
  have final (d : Elt ε) : ((renumbered.modify (.of new) fun c => { c with magic }).cell d) = { linked.cell d with
      index := if d ∈ place l₂ :: after then (linked.cell d).index + 1 else (linked.cell d).index
      magic := if d = .of new then magic else (linked.cell d).magic } := by
    rw [Arr.modify_cell]
    simp only [numbers]
    split
    · next here =>
      subst here
      rw [if_neg between.new_not_behind, if_neg between.new_not_behind]
    · split <;> rfl
  refine ⟨renumbered.modify (.of new) fun c => { c with magic }, ?_, ?_, same.size.trans size', same.offset.trans offset',
    fun d => ?_, fun d => ?_, fun d => ?_, fun d => ?_⟩
  · have kept : ((stored.modify x fun c => { c with next := some (.of new) }).cell (place l₂)).prev = some x := by
      rw [Arr.modify_cell, if_neg (Ne.symm xPlace), cell', Arr.modify_cell, if_neg (Ne.symm newPlace), cell, left]
    rw [link, cell, left, check_ok Option.isSome_some, Except.ok_bind, deref_some, Except.ok_bind,
      check_ok right, Except.ok_bind, number]
    dsimp only
    rw [Arr.modify_cell, if_pos rfl, store, Except.ok_bind, cell', Arr.modify_cell, if_neg (Ne.symm newPlace), cell,
      left, deref_some, Except.ok_bind, kept, show renumber 1 fuel linked _ = _ from ran]
    rfl
  · obtain ⟨slots, array, capacity, slot⟩ := slotted
    exact ⟨slots, same.array.trans array, capacity.trans same.size.symm, slot⟩
  · rw [final, cells]
    by_cases dNew : d = .of new
    · simp [dNew]
    · by_cases dPlace : d = place l₂
      · simp [dPlace, Ne.symm xPlace, Ne.symm newPlace]
      · by_cases dX : d = x <;> simp [dNew, dPlace, dX, xNew, xPlace]
  · rw [final, cells]
    split
    · rfl
    · split
      · rfl
      · split <;> rfl
  · have kept (dNew : d ≠ .of new) : (linked.cell d).index = (a.cell d).index := by
      rw [cells, if_neg dNew]
      split
      · rfl
      · split <;> rfl
    rw [final]
    dsimp only
    by_cases dNew : d = .of new
    · subst dNew
      rw [if_neg between.new_not_behind, if_pos rfl, cells, if_pos rfl]
    · rw [if_neg dNew, kept dNew]
  · rw [final, cells]
    split
    · rfl
    · split
      · rfl
      · split <;> rfl

theorem link_represents (rep : Represents a (l₁ ++ l₂)) (notin : new ∉ l₁ ++ l₂) (cell : b.cell = a.cell)
    (gap : Gap b l₁ l₂) (room : ((l₁ ++ l₂).length : ℤ) < b.size) (size : ∃ k, 5 ≤ k ∧ k ≤ 30 ∧ b.size = 2 ^ k)
    (offset : 0 ≤ b.offset) (enough : l₂.length < fuel) : ∃ c, link fuel b (.of new) (place l₂) = .ok c ∧
      Represents c (l₁ ++ new :: l₂) ∧ ∀ e ∉ l₁ ++ new :: l₂, c.cell (.of e) = a.cell (.of e) := by
  have inserted : (l₁ ++ new :: l₂).Nodup := List.nodup_middle.mpr (List.nodup_cons.mpr ⟨notin, rep.nodup⟩)
  obtain ⟨before, x, after, between⟩ := exists_between inserted
  obtain ⟨xNew, xPlace, newPlace, nodup⟩ := between.apart
  obtain ⟨c, ran, slotted, size', offset', next, prev, index, magic⟩ := link_spec rep between cell gap enough
  refine ⟨c, ran, ⟨inserted, ?_, ?_, ?_, ?_, ?_, slotted, ?_, by rw [size']; exact size, by rw [offset']; exact offset⟩, ?_⟩
  · have links := rep.links
    rw [between.old] at links
    rw [between.added]
    refine links.insert between.nodup ?_ ?_ (fun d dX dNew => ?_) fun d dNew dPlace => ?_
    · simp [next, prev, xNew]
    · simp [next, prev, Ne.symm newPlace]
    · simp [next, dX, dNew]
    · simp [prev, dNew, dPlace]
  · rw [prev, if_neg nofun, if_neg (Ne.symm between.ends.2), rep.first]
  · rw [next, if_neg nofun, if_neg (Ne.symm between.ends.1), rep.last]
  · have numbered := rep.numbered
    rw [between.split.1, numbered_append] at numbered
    have counted : (-1 : ℤ) + (before ++ [x]).length = l₁.length := by
      rw [List.length_append, between.length, List.length_singleton]
      push_cast
      omega
    rw [counted] at numbered
    suffices Numbered c (-1) (nodes (l₁ ++ new :: l₂)) from fun i inside => by
      rw [numbered_iff.mp this i inside]
      omega
    rw [between.split.2, numbered_append, Numbered, counted]
    refine ⟨numbered.1.congr fun d member => ?_, by rw [index, if_pos rfl], numbered.2.add 1 fun d member => ?_⟩
    · rw [index, if_neg (between.not_behind member).1, if_neg (between.not_behind member).2]
    · rw [index, if_neg fun same : d = .of new => between.new_not_behind (same ▸ member), if_pos member]
  · intro e member
    rw [magic]
    split
    · rfl
    · next other =>
      refine rep.magic e ?_
      rw [List.mem_append, List.mem_cons] at member
      rw [List.mem_append]
      exact member.imp_right fun member => member.resolve_left fun same => other (congrArg Elt.of same)
  · rw [size']
    simp at room ⊢
    omega
  · intro e outside
    have notNode : Elt.of e ∉ nodes (l₁ ++ new :: l₂) := fun member => outside (of_mem_nodes.mp member)
    rw [between.added] at notNode
    simp only [List.mem_append, List.mem_cons, not_or] at notNode
    ext
    · rw [magic, if_neg notNode.2.2.1]
    · rw [prev, if_neg notNode.2.2.1, if_neg notNode.2.2.2.1]
    · rw [next, if_neg notNode.2.2.1, if_neg notNode.2.1]
    · rw [index, if_neg notNode.2.2.1, if_neg (by simp [notNode])]

/-- The part of `dllarr_insert` that moves the pointers. -/
theorem moveUp_spec (rep : Represents a (l₁ ++ l₂)) (cell : b.cell = a.cell) (slotted : Slotted b (l₁ ++ l₂))
    (room : ((l₁ ++ l₂).length : ℤ) < b.size) : ∃ c, moveUp b (l₂.head?.map .of) = .ok (c, place l₂) ∧
      c.cell = b.cell ∧ c.size = b.size ∧ c.offset = b.offset ∧ Gap c l₁ l₂ := by
  cases l₂ with
  | nil =>
    obtain ⟨slots, array, capacity, slot⟩ := slotted
    refine ⟨b, rfl, rfl, rfl, rfl, slots, array, capacity, ?_, fun i inside => ?_, nofun⟩
    · simp at room ⊢
      omega
    · rw [slot i (by simpa using inside)]
      simp
  | cons e l₂ =>
    obtain ⟨c, moved, cell', size', offset', gap⟩ := slotted.moveUp room
    refine ⟨c, ?_, cell', size', offset', gap⟩
    have inside : l₁.length < (l₁ ++ e :: l₂).length := by simp
    have member : (l₁ ++ e :: l₂)[l₁.length] = e := by simp
    have index := rep.index_of inside
    have next := rep.linked (i := l₁.length + 1) (by rw [length_nodes]; omega)
    rw [nodes_succ inside] at next
    rw [member] at index next
    have count : (b.cell .tail).index - (b.cell (.of e)).index = (e :: l₂).length := by
      rw [cell, rep.index_tail, index]
      simp
    rw [← cell] at index next
    rw [List.head?_cons, Option.map_some, moveUp, count, index, moved, Except.ok_bind, cell', next.1,
      check_ok Option.isSome_some, Except.ok_bind, deref_some, Except.ok_bind, check_ok next.2]
    rfl

/-- An insertion before the second part of the list. -/
theorem insert_represents (rep : Represents a (l₁ ++ l₂)) (notin : new ∉ l₁ ++ l₂) (unlinked : Unlinked a new)
    (small : (l₁ ++ l₂).length + 1 < 2 ^ 30) (enough : l₂.length < fuel) :
    ∃ b, insert fuel a new l₂.head? = .ok b ∧ Represents b (l₁ ++ new :: l₂) ∧
      ∀ e ∉ l₁ ++ new :: l₂, b.cell (.of e) = a.cell (.of e) := by
  obtain ⟨roomy, made, cell, offset, slotted, room, size⟩ := makeRoom_spec rep small
  obtain ⟨gapped, moved, cell', size', offset', gap⟩ := moveUp_spec rep cell slotted room
  obtain ⟨b, linked, represents, same⟩ := link_represents rep notin (cell'.trans cell) gap (by rw [size']; exact room)
    (by rw [size']; exact size) (by rw [offset', offset]; exact rep.offset) enough
  have access : l₂.head?.mapM (accessElt a) = .ok (l₂.head?.map .of) := by
    cases l₂ with
    | nil => rfl
    | cons e l₂ =>
      rw [List.head?_cons, Option.mapM_some, rep.accessElt (by simp)]
      rfl
  refine ⟨b, ?_, represents, same⟩
  have loose : (a.cell (.of new)).prev = none ∧ (a.cell (.of new)).next = none ∧ (a.cell (.of new)).index = 0 := unlinked
  rw [insert, rep.dllarrAssert, Except.ok_bind, access, Except.ok_bind, check_ok loose, Except.ok_bind, made,
    Except.ok_bind, moved]
  exact linked

theorem append_represents (rep : Represents a l) (notin : new ∉ l) (unlinked : Unlinked a new)
    (small : l.length + 1 < 2 ^ 30) (enough : 0 < fuel) : ∃ b, append fuel a new = .ok b ∧
      Represents b (l ++ [new]) ∧ ∀ e ∉ l ++ [new], b.cell (.of e) = a.cell (.of e) := by
  have whole : l ++ [] = l := List.append_nil l
  have rep : Represents a (l ++ []) := by rwa [whole]
  exact insert_represents rep (by rwa [whole]) unlinked (by rwa [whole]) enough

theorem prepend_represents (rep : Represents a l) (notin : new ∉ l) (unlinked : Unlinked a new)
    (small : l.length + 1 < 2 ^ 30) (enough : l.length < fuel) : ∃ b, prepend fuel a new = .ok b ∧
      Represents b (new :: l) ∧ ∀ e ∉ new :: l, b.cell (.of e) = a.cell (.of e) := by
  have whole : Represents a ([] ++ l) := rep
  rw [prepend, rep.first_eq]
  exact insert_represents whole notin unlinked small enough

end Scubed3.Dllarr
