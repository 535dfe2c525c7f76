import Scubed3.Dllarr.Changes

/-! # Removal from a doubly linked array

The nodes behind the element are renumbered, its neighbours are linked to each other, and the element is left as if it
had never been a member.
-/

namespace Scubed3.Dllarr

open DoublyLinked (Links)

variable {ε : Type} [DecidableEq ε] {a b : Arr ε} {l l₁ l₂ : List ε} {e : ε} {fuel : ℕ}

/-- The part of `dllarr_remove` that takes the element out of the list: what becomes of the nodes. -/
theorem unlink_spec (rep : Represents a (l₁ ++ e :: l₂)) {before after : List (Elt ε)} {x : Elt ε}
    (between : Between l₁ l₂ e before x after) (cell : b.cell = a.cell) (enough : l₂.length < fuel) :
    ∃ c, unlink fuel b (.of e) = .ok c ∧ SameArray b c ∧
      (∀ d, (c.cell d).next = if d = .of e then none else if d = x then some (place l₂) else (a.cell d).next) ∧
      (∀ d, (c.cell d).prev = if d = .of e then none else if d = place l₂ then some x else (a.cell d).prev) ∧
      (∀ d, (c.cell d).index = if d = .of e then 0
        else if d ∈ place l₂ :: after then (a.cell d).index - 1 else (a.cell d).index) ∧
      ∀ d, (c.cell d).magic = (a.cell d).magic := by
  obtain ⟨xNew, xPlace, newPlace, nodup⟩ := between.apart
  have links := rep.links
  rw [between.added] at links
  have left := links.at_.2
  obtain ⟨⟨right, -⟩, behind⟩ :=
    DoublyLinked.links_cons_cons.mp (DoublyLinked.links_cons_cons.mp (DoublyLinked.links_append.mp links).2).2
  rw [← cell] at behind
  have enoughBehind : after.length < fuel := by rwa [between.length_after]
  obtain ⟨renumbered, ran, same, numbers⟩ := renumber_eq (-1) behind (by rw [cell, between.getLast_behind, rep.last]) nodup
    enoughBehind
  have element : renumbered.cell (.of e) = a.cell (.of e) := by
    rw [numbers, if_neg between.new_not_behind, cell]
  let joined := ((((renumbered.modify (place l₂) fun c => { c with prev := some x }).modify x
    fun c => { c with next := some (place l₂) }).modify (.of e) fun c => { c with prev := none, next := none }).modify
    (.of e) fun c => { c with index := 0 })
  have cells (d : Elt ε) : joined.cell d =
      if d = .of e then { a.cell d with prev := none, next := none, index := 0 }
      else if d = x then { renumbered.cell d with next := some (place l₂) }
      else if d = place l₂ then { renumbered.cell d with prev := some x }
      else renumbered.cell d := by
    simp only [joined, Arr.modify_cell]
    by_cases dNew : d = .of e
    · subst dNew
      simp [newPlace, Ne.symm xNew, element]
    · by_cases dX : d = x
      · subst dX
        simp [dNew, xPlace]
      · by_cases dPlace : d = place l₂
        · subst dPlace
          simp [dNew, dX]
        · simp [dNew, dPlace, dX]
  refine ⟨joined, ?_, ⟨same.array, same.size, same.offset⟩, fun d => ?_, fun d => ?_, fun d => ?_, fun d => ?_⟩
  · have first : ((renumbered.modify (place l₂) fun c => { c with prev := some x }).cell (.of e)) = a.cell (.of e) := by
      rw [Arr.modify_cell, if_neg newPlace, element]
    rw [unlink, cell, right, ran, Except.ok_bind, element, right, deref_some, Except.ok_bind, left]
    dsimp only
    rw [first, left, deref_some, Except.ok_bind, right]
    rfl
  · rw [cells, numbers, cell]
    split
    · rfl
    · split
      · rfl
      · split <;> split <;> rfl
  · rw [cells, numbers, cell]
    by_cases dNew : d = .of e
    · simp only [dNew, if_true]
    · by_cases dX : d = x
      · subst dX
        simp only [dNew, if_false, if_true, xPlace]
        split <;> rfl
      · simp only [dNew, dX, if_false]
        split
        · rfl
        · split <;> rfl
  · rw [cells, numbers, cell]
    split
    · rfl
    · split
      · split <;> rfl
      · split <;> split <;> rfl
  · rw [cells, numbers, cell]
    split
    · rfl
    · split
      · split <;> rfl
      · split <;> split <;> rfl

/-- What is left of a removed element. -/
theorem unlink_represents (rep : Represents a (l₁ ++ e :: l₂)) (cell : b.cell = a.cell) (size : b.size = a.size)
    (offset : b.offset = a.offset) (slotted : Slotted b (l₁ ++ l₂)) (enough : l₂.length < fuel) :
    ∃ c, unlink fuel b (.of e) = .ok c ∧ Represents c (l₁ ++ l₂) ∧ Unlinked c e ∧
      ∀ f ∉ l₁ ++ e :: l₂, c.cell (.of f) = a.cell (.of f) := by
  obtain ⟨before, x, after, between⟩ := exists_between rep.nodup
  obtain ⟨xNew, xPlace, newPlace, -⟩ := between.apart
  obtain ⟨c, ran, same, next, prev, index, magic⟩ := unlink_spec rep between cell enough
  have subset : ∀ f ∈ l₁ ++ l₂, f ∈ l₁ ++ e :: l₂ := fun f member => by
    rw [List.mem_append] at member ⊢
    exact member.imp_right (List.mem_cons_of_mem e)
  have unlinked : Unlinked c e := ⟨by rw [prev, if_pos rfl], by rw [next, if_pos rfl], by rw [index, if_pos rfl]⟩
  have sizes : c.size = a.size := same.size.trans size
  refine ⟨c, ran, ⟨?_, ?_, ?_, ?_, ?_, ?_, ?_, ?_, ?_, ?_⟩, unlinked, ?_⟩
  · exact (List.nodup_cons.mp (List.nodup_middle.mp rep.nodup)).2
  · have links := rep.links
    rw [between.added] at links
    rw [between.old]
    refine links.remove between.nodup ?_ (fun d dX dNew => ?_) fun d dNew dPlace => ?_
    · simp [next, prev, xNew, Ne.symm newPlace]
    · simp [next, dX, dNew]
    · simp [prev, dNew, dPlace]
  · rw [prev, if_neg nofun, if_neg (Ne.symm between.ends.2), rep.first]
  · rw [next, if_neg nofun, if_neg (Ne.symm between.ends.1), rep.last]
  · have numbered := rep.numbered
    rw [between.split.2, numbered_append, Numbered] at numbered
    obtain ⟨front, -, behind⟩ := numbered
    suffices Numbered c (-1) (nodes (l₁ ++ l₂)) from fun i inside => by
      rw [numbered_iff.mp this i inside]
      omega
    rw [between.split.1, numbered_append]
    refine ⟨front.congr fun d member => ?_, ?_⟩
    · rw [index, if_neg (between.not_behind member).1, if_neg (between.not_behind member).2]
    · have moved : Numbered c (-1 + ((before ++ [x]).length : ℤ) + 1 + -1) (place l₂ :: after) :=
        behind.add (-1) fun d member => by
          rw [index, if_neg fun same : d = .of e => between.new_not_behind (same ▸ member), if_pos member]
          rfl
      rwa [add_neg_cancel_right] at moved
  · intro f member
    rw [magic, rep.magic f (subset f member)]
  · obtain ⟨slots, array, capacity, slot⟩ := slotted
    exact ⟨slots, same.array.trans array, capacity.trans same.size.symm, slot⟩
  · have fits := rep.fits
    rw [sizes]
    simp only [List.length_append, List.length_cons] at fits ⊢
    push_cast at fits ⊢
    omega
  · rw [sizes]
    exact rep.size
  · rw [same.offset, offset]
    exact rep.offset
  · intro f outside
    have notNode : Elt.of f ∉ nodes (l₁ ++ e :: l₂) := fun member => outside (of_mem_nodes.mp member)
    rw [between.added] at notNode
    simp only [List.mem_append, List.mem_cons, not_or] at notNode
    ext
    · rw [magic]
    · rw [prev, if_neg notNode.2.2.1, if_neg notNode.2.2.2.1]
    · rw [next, if_neg notNode.2.2.1, if_neg notNode.2.1]
    · rw [index, if_neg notNode.2.2.1, if_neg (by simp [notNode])]

/-- The part of `dllarr_remove` that moves the pointers. -/
theorem moveDown_spec (rep : Represents a (l₁ ++ e :: l₂)) : ∃ b, moveDown a (.of e) = .ok b ∧ b.cell = a.cell ∧
    b.size = a.size ∧ b.offset = a.offset ∧ Slotted b (l₁ ++ l₂) := by
  have inside : l₁.length < (l₁ ++ e :: l₂).length := by simp
  have member : (l₁ ++ e :: l₂)[l₁.length] = e := by simp
  have index : (a.cell (.of e)).index = l₁.length := by
    have index := rep.index_of inside
    rwa [member] at index
  have next := (rep.linked (i := l₁.length + 1) (by rw [length_nodes]; omega)).1
  rw [nodes_succ inside, member] at next
  rw [moveDown, next]
  cases l₂ with
  | nil =>
    have tail := nodes_last (l₁ ++ [e])
    simp only [List.length_append, List.length_singleton] at tail
    rw [if_neg (by rw [tail]; exact fun differs => differs rfl)]
    obtain ⟨slots, array, capacity, slot⟩ := rep.slotted
    refine ⟨a, rfl, rfl, rfl, rfl, slots, array, capacity, fun i inside => ?_⟩
    rw [List.append_nil] at inside
    rw [slot i (by rw [List.length_append]; exact Nat.lt_add_right _ inside), List.getElem_append_left inside]
    simp
  | cons f l₂ =>
    have behind : l₁.length + 1 < (l₁ ++ e :: f :: l₂).length := by simp
    have count : (a.cell .tail).index - (a.cell (.of e)).index - 1 = (f :: l₂).length := by
      rw [rep.index_tail, index]
      simp
    rw [if_pos (by rw [nodes_succ behind]; exact nofun), count, index]
    exact rep.slotted.moveDown rep.fits

/-- A removal of the element between two parts of the list. -/
theorem remove_represents (rep : Represents a (l₁ ++ e :: l₂)) (enough : l₂.length < fuel) :
    ∃ b, remove fuel a e = .ok b ∧ Represents b (l₁ ++ l₂) ∧ Unlinked b e ∧
      ∀ f ∉ l₁ ++ e :: l₂, b.cell (.of f) = a.cell (.of f) := by
  obtain ⟨moved, down, cell, size, offset, slotted⟩ := moveDown_spec rep
  obtain ⟨b, unlinked, represents, loose, same⟩ := unlink_represents rep cell size offset slotted enough
  refine ⟨b, ?_, represents, loose, same⟩
  obtain ⟨before, x, after, between⟩ := exists_between rep.nodup
  have links := rep.links
  rw [between.added] at links
  obtain ⟨linked, second⟩ := DoublyLinked.links_cons_cons.mp (DoublyLinked.links_append.mp links).2
  obtain ⟨behind, -⟩ := DoublyLinked.links_cons_cons.mp second
  rw [remove, rep.dllarrAssert, Except.ok_bind, rep.accessElt (by simp), Except.ok_bind, linked.2,
    check_ok Option.isSome_some, Except.ok_bind, deref_some, Except.ok_bind, check_ok linked.1, Except.ok_bind, behind.1,
    deref_some, Except.ok_bind, check_ok behind.2, Except.ok_bind, down]
  exact unlinked

/-- `dllarr_shift`. -/
theorem shift_represents (rep : Represents a (e :: l)) (enough : l.length < fuel) :
    ∃ b, shift fuel a = .ok (some e, b) ∧ Represents b l ∧ Unlinked b e ∧
      ∀ f ∉ e :: l, b.cell (.of f) = a.cell (.of f) := by
  have whole : Represents a ([] ++ e :: l) := rep
  obtain ⟨b, ran, represents, loose, same⟩ := remove_represents whole enough
  refine ⟨b, ?_, represents, loose, same⟩
  rw [shift, rep.first_eq, List.head?_cons, Except.ok_bind]
  dsimp only
  rw [ran]
  rfl

/-- `dllarr_pop`. -/
theorem pop_represents (rep : Represents a (l ++ [e])) (enough : 0 < fuel) :
    ∃ b, pop fuel a = .ok (some e, b) ∧ Represents b l ∧ Unlinked b e ∧
      ∀ f ∉ l ++ [e], b.cell (.of f) = a.cell (.of f) := by
  have room : ([] : List ε).length < fuel := enough
  obtain ⟨b, ran, represents, loose, same⟩ := remove_represents rep room
  rw [List.append_nil] at represents
  refine ⟨b, ?_, represents, loose, same⟩
  rw [pop, rep.last_eq, List.getLast?_concat, Except.ok_bind]
  dsimp only
  rw [ran]
  rfl

/-- There is nothing to take from an empty list. -/
theorem shift_empty (rep : Represents a []) : shift fuel a = .ok (none, a) := by
  rw [shift, rep.first_eq]
  rfl

theorem pop_empty (rep : Represents a []) : pop fuel a = .ok (none, a) := by
  rw [pop, rep.last_eq]
  rfl

end Scubed3.Dllarr
