import Mathlib.Data.Finset.Basic
import Mathlib.Data.List.InsertIdx
import Scubed3.Dllarr.Removal

/-! # Runs of a doubly linked array

The caller allocates elements and calls the functions; a plain list goes through the same operations. After every run
the structure represents the list, and the elements that are in no list may be inserted.
-/

namespace Scubed3.Dllarr

variable {ε : Type} [DecidableEq ε] {a : Arr ε} {e : ε} {fuel : ℕ}

/-- What the caller does: it allocates an element, of zeroed memory, or it calls a function. -/
inductive Op (ε : Type) where
  | alloc (e : ε)
  | insert (new at_ : ε)
  | append (new : ε)
  | prepend (new : ε)
  | remove (at_ : ε)
  | shift
  | pop
deriving DecidableEq, Repr

/-- The pointer that is returned, and the structure. -/
def Op.run (fuel : ℕ) (a : Arr ε) : Op ε → Except Fault (Option ε × Arr ε)
  | .alloc e => return (some e, a.modify (.of e) fun _ => {})
  | .insert new at_ => return (some new, ← Dllarr.insert fuel a new (some at_))
  | .append new => return (some new, ← Dllarr.append fuel a new)
  | .prepend new => return (some new, ← Dllarr.prepend fuel a new)
  | .remove at_ => return (some at_, ← Dllarr.remove fuel a at_)
  | .shift => Dllarr.shift fuel a
  | .pop => Dllarr.pop fuel a

/-- A sequence of calls: all the pointers that are returned, and the structure in the end. -/
def run (fuel : ℕ) (a : Arr ε) : List (Op ε) → Except Fault (List (Option ε) × Arr ε)
  | [] => return ([], a)
  | op :: ops => do
    let (result, a) ← op.run fuel a
    let (results, a) ← run fuel a ops
    return (result :: results, a)

/-- A plain list, and the elements that may be inserted: they are fresh, or they were removed. -/
structure Plain (ε : Type) where
  list : List ε
  loose : Finset ε

namespace Plain

variable {s s' : Plain ε} {op : Op ε} {ops : List (Op ε)} {result : Option ε} {results : List (Option ε)}

omit [DecidableEq ε] in
theorem insertIdx_append (l₁ l₂ : List ε) (new : ε) : (l₁ ++ l₂).insertIdx l₁.length new = l₁ ++ new :: l₂ := by
  induction l₁ with
  | nil => rfl
  | cons e l₁ ih => rw [List.cons_append, List.length_cons, List.insertIdx_succ_cons, ih, List.cons_append]

/-- Nothing is in the list, and nothing may be inserted. -/
def empty : Plain ε := { list := [], loose := ∅ }

/-- The same operation on a plain list, if the caller may do it. -/
def step (s : Plain ε) : Op ε → Option (Option ε × Plain ε)
  | .alloc e => if e ∈ s.list then none else some (some e, { s with loose := s.loose ∪ {e} })
  | .insert new at_ =>
    if new ∈ s.loose ∧ at_ ∈ s.list ∧ s.list.length + 1 < 2 ^ 30 then
      some (some new, { list := s.list.insertIdx (s.list.idxOf at_) new, loose := s.loose.erase new })
    else none
  | .append new =>
    if new ∈ s.loose ∧ s.list.length + 1 < 2 ^ 30 then
      some (some new, { list := s.list ++ [new], loose := s.loose.erase new })
    else none
  | .prepend new =>
    if new ∈ s.loose ∧ s.list.length + 1 < 2 ^ 30 then
      some (some new, { list := new :: s.list, loose := s.loose.erase new })
    else none
  | .remove at_ =>
    if at_ ∈ s.list then some (some at_, { list := s.list.erase at_, loose := s.loose ∪ {at_} }) else none
  | .shift =>
    match s.list with
    | [] => some (none, s)
    | e :: l => some (some e, { list := l, loose := s.loose ∪ {e} })
  | .pop =>
    match s.list.getLast? with
    | none => some (none, s)
    | some e => some (some e, { list := s.list.dropLast, loose := s.loose ∪ {e} })

def run (s : Plain ε) : List (Op ε) → Option (List (Option ε) × Plain ε)
  | [] => some ([], s)
  | op :: ops => do
    let (result, s) ← s.step op
    let (results, s) ← s.run ops
    return (result :: results, s)

/-- The structure represents the list, and what may be inserted is unlinked. -/
structure Sound (a : Arr ε) (s : Plain ε) : Prop where
  represents : Represents a s.list
  unlinked : ∀ e ∈ s.loose, e ∉ s.list ∧ Unlinked a e

namespace Sound

variable {b : Arr ε} {l l₁ l₂ : List ε} {new : ε} {loose : Finset ε}

omit [DecidableEq ε] in
/-- The list is not longer than the array can get. -/
theorem bounded (sound : Sound a s) : s.list.length ≤ 2 ^ 30 := by
  obtain ⟨k, -, high, size⟩ := sound.represents.size
  have fits := sound.represents.fits
  have bound : (2 : ℤ) ^ k ≤ 2 ^ 30 := by exact_mod_cast Nat.pow_le_pow_right (by decide) high
  rw [size] at fits
  omega

/-- An element is inserted; only the members change. -/
theorem inserted (sound : Sound a { list := l₁ ++ l₂, loose }) (rep : Represents b (l₁ ++ new :: l₂))
    (same : ∀ e ∉ l₁ ++ new :: l₂, b.cell (.of e) = a.cell (.of e)) :
    Sound b { list := l₁ ++ new :: l₂, loose := loose.erase new } := by
  refine ⟨rep, fun e free => ?_⟩
  obtain ⟨other, free⟩ := Finset.mem_erase.mp free
  obtain ⟨outside, unlinked⟩ := sound.unlinked e free
  have outside : e ∉ l₁ ++ new :: l₂ := by
    simp only [List.mem_append, List.mem_cons, not_or] at outside ⊢
    exact ⟨outside.1, other, outside.2⟩
  refine ⟨outside, ?_⟩
  rwa [Unlinked, same e outside]

/-- A member is removed. -/
theorem removed (sound : Sound a { list := l₁ ++ e :: l₂, loose }) (rep : Represents b (l₁ ++ l₂))
    (unlinked : Unlinked b e) (same : ∀ f ∉ l₁ ++ e :: l₂, b.cell (.of f) = a.cell (.of f)) :
    Sound b { list := l₁ ++ l₂, loose := loose ∪ {e} } := by
  refine ⟨rep, fun f free => ?_⟩
  rcases Finset.mem_union.mp free with free | here
  · obtain ⟨outside, free⟩ := sound.unlinked f free
    refine ⟨fun member => outside ?_, ?_⟩
    · rw [List.mem_append] at member ⊢
      exact member.imp_right (List.mem_cons_of_mem e)
    · rwa [Unlinked, same f outside]
  · rw [Finset.mem_singleton.mp here]
    exact ⟨(List.nodup_cons.mp (List.nodup_middle.mp sound.represents.nodup)).1, unlinked⟩

/-- An element is allocated. -/
theorem alloc (sound : Sound a s) (outside : e ∉ s.list) :
    Sound (a.modify (.of e) fun _ => {}) { s with loose := s.loose ∪ {e} } := by
  have others (c : Elt ε) (other : c ≠ .of e) : (a.modify (.of e) fun _ => {}).cell c = a.cell c := by
    rw [Arr.modify_cell, if_neg other]
  have node (c : Elt ε) (member : c ∈ nodes s.list) : (a.modify (.of e) fun _ => {}).cell c = a.cell c :=
    others c fun same => outside (of_mem_nodes.mp (same ▸ member))
  obtain ⟨rep, unlinked⟩ := sound
  refine ⟨⟨rep.nodup, ?_, ?_, ?_, fun i inside => ?_, fun f member => ?_, rep.slotted, rep.fits, rep.size, rep.offset⟩,
    fun f free => ?_⟩
  · refine rep.links.congr (fun c member => ?_) fun c member => ?_
    · rw [node c (List.dropLast_subset _ member)]
    · rw [node c (List.mem_of_mem_tail member)]
  · rw [others .head (by simp), rep.first]
  · rw [others .tail (by simp), rep.last]
  · rw [node _ (List.getElem_mem inside), rep.number i inside]
  · rw [node _ (of_mem_nodes.mpr member), rep.magic f member]
  · by_cases here : f = e
    · rw [here]
      refine ⟨outside, ?_⟩
      simp [Unlinked]
    · obtain free | same := Finset.mem_union.mp free
      · rw [Unlinked, others _ fun same => here (Elt.of.inj same)]
        exact unlinked f free
      · exact absurd (Finset.mem_singleton.mp same) here

theorem insert (sound : Sound a s) (enough : 2 ^ 30 ≤ fuel) {at_ : ε} (free : new ∈ s.loose) (member : at_ ∈ s.list)
    (small : s.list.length + 1 < 2 ^ 30) : ∃ b, Dllarr.insert fuel a new (some at_) = .ok b ∧
      Sound b { list := s.list.insertIdx (s.list.idxOf at_) new, loose := s.loose.erase new } := by
  obtain ⟨list, loose⟩ := s
  obtain ⟨l₁, l₂, rfl, outside⟩ := List.eq_append_cons_of_mem member
  obtain ⟨notin, unlinked⟩ := sound.unlinked new free
  have room : (at_ :: l₂).length < fuel := by
    simp only [List.length_append] at small
    omega
  obtain ⟨b, ran, rep, same⟩ := insert_represents sound.represents notin unlinked small room
  have place : (l₁ ++ at_ :: l₂).insertIdx ((l₁ ++ at_ :: l₂).idxOf at_) new = l₁ ++ new :: at_ :: l₂ := by
    rw [List.idxOf_append_of_notMem outside, List.idxOf_cons_self, Nat.add_zero, insertIdx_append]
  dsimp only
  rw [place]
  exact ⟨b, ran, sound.inserted rep same⟩

theorem append (sound : Sound a s) (enough : 2 ^ 30 ≤ fuel) (free : new ∈ s.loose)
    (small : s.list.length + 1 < 2 ^ 30) : ∃ b, Dllarr.append fuel a new = .ok b ∧
      Sound b { list := s.list ++ [new], loose := s.loose.erase new } := by
  obtain ⟨list, loose⟩ := s
  obtain ⟨notin, unlinked⟩ := sound.unlinked new free
  have room : 0 < fuel := by omega
  obtain ⟨b, ran, rep, same⟩ := append_represents sound.represents notin unlinked small room
  have whole : Sound a { list := list ++ [], loose } := by rwa [List.append_nil]
  exact ⟨b, ran, whole.inserted rep same⟩

theorem prepend (sound : Sound a s) (enough : 2 ^ 30 ≤ fuel) (free : new ∈ s.loose)
    (small : s.list.length + 1 < 2 ^ 30) : ∃ b, Dllarr.prepend fuel a new = .ok b ∧
      Sound b { list := new :: s.list, loose := s.loose.erase new } := by
  obtain ⟨notin, unlinked⟩ := sound.unlinked new free
  have room : s.list.length < fuel := by omega
  obtain ⟨b, ran, rep, same⟩ := prepend_represents sound.represents notin unlinked small room
  have whole : Sound a { list := [] ++ s.list, loose := s.loose } := sound
  exact ⟨b, ran, whole.inserted rep same⟩

theorem remove (sound : Sound a s) (enough : 2 ^ 30 ≤ fuel) (member : e ∈ s.list) :
    ∃ b, Dllarr.remove fuel a e = .ok b ∧ Sound b { list := s.list.erase e, loose := s.loose ∪ {e} } := by
  have bounded := sound.bounded
  obtain ⟨list, loose⟩ := s
  obtain ⟨l₁, l₂, rfl, outside⟩ := List.eq_append_cons_of_mem member
  simp only [List.length_append, List.length_cons] at bounded
  have room : l₂.length < fuel := by omega
  obtain ⟨b, ran, rep, unlinked, same⟩ := remove_represents sound.represents room
  dsimp only
  rw [List.erase_append_right _ outside, List.erase_cons_head]
  exact ⟨b, ran, sound.removed rep unlinked same⟩

theorem shift (sound : Sound a s) (enough : 2 ^ 30 ≤ fuel) (ran : s.step .shift = some (result, s')) :
    ∃ b, Dllarr.shift fuel a = .ok (result, b) ∧ Sound b s' := by
  have bounded := sound.bounded
  obtain ⟨list, loose⟩ := s
  cases list with
  | nil =>
    obtain ⟨rfl, rfl⟩ := Prod.mk.inj (Option.some.inj ran)
    exact ⟨a, shift_empty sound.represents, sound⟩
  | cons e l =>
    obtain ⟨rfl, rfl⟩ := Prod.mk.inj (Option.some.inj ran)
    rw [List.length_cons] at bounded
    have room : l.length < fuel := by omega
    obtain ⟨b, ran, rep, unlinked, same⟩ := shift_represents sound.represents room
    have whole : Sound a { list := [] ++ e :: l, loose } := sound
    exact ⟨b, ran, whole.removed rep unlinked same⟩

theorem pop (sound : Sound a s) (enough : 2 ^ 30 ≤ fuel) (ran : s.step .pop = some (result, s')) :
    ∃ b, Dllarr.pop fuel a = .ok (result, b) ∧ Sound b s' := by
  obtain ⟨list, loose⟩ := s
  cases list using List.reverseRecOn with
  | nil =>
    obtain ⟨rfl, rfl⟩ := Prod.mk.inj (Option.some.inj ran)
    exact ⟨a, pop_empty sound.represents, sound⟩
  | append_singleton l e =>
    simp only [step, List.getLast?_concat, List.dropLast_concat] at ran
    obtain ⟨rfl, rfl⟩ := Prod.mk.inj (Option.some.inj ran)
    have room : 0 < fuel := by omega
    obtain ⟨b, ran, rep, unlinked, same⟩ := pop_represents sound.represents room
    have whole : Represents b (l ++ []) := by rwa [List.append_nil]
    have sound := sound.removed whole unlinked same
    rw [List.append_nil] at sound
    exact ⟨b, ran, sound⟩

/-- One operation. -/
theorem step (sound : Sound a s) (enough : 2 ^ 30 ≤ fuel) (ran : s.step op = some (result, s')) :
    ∃ b, op.run fuel a = .ok (result, b) ∧ Sound b s' := by
  cases op with
  | alloc e =>
    obtain ⟨outside, same⟩ := Option.ite_none_left_eq_some.mp ran
    obtain ⟨rfl, rfl⟩ := Prod.mk.inj (Option.some.inj same)
    exact ⟨_, rfl, sound.alloc outside⟩
  | insert new at_ =>
    obtain ⟨⟨free, member, small⟩, same⟩ := Option.ite_none_right_eq_some.mp ran
    obtain ⟨rfl, rfl⟩ := Prod.mk.inj (Option.some.inj same)
    obtain ⟨b, ran, sound⟩ := sound.insert enough free member small
    exact ⟨b, by rw [Op.run, ran]; rfl, sound⟩
  | append new =>
    obtain ⟨⟨free, small⟩, same⟩ := Option.ite_none_right_eq_some.mp ran
    obtain ⟨rfl, rfl⟩ := Prod.mk.inj (Option.some.inj same)
    obtain ⟨b, ran, sound⟩ := sound.append enough free small
    exact ⟨b, by rw [Op.run, ran]; rfl, sound⟩
  | prepend new =>
    obtain ⟨⟨free, small⟩, same⟩ := Option.ite_none_right_eq_some.mp ran
    obtain ⟨rfl, rfl⟩ := Prod.mk.inj (Option.some.inj same)
    obtain ⟨b, ran, sound⟩ := sound.prepend enough free small
    exact ⟨b, by rw [Op.run, ran]; rfl, sound⟩
  | remove at_ =>
    obtain ⟨member, same⟩ := Option.ite_none_right_eq_some.mp ran
    obtain ⟨rfl, rfl⟩ := Prod.mk.inj (Option.some.inj same)
    obtain ⟨b, ran, sound⟩ := sound.remove enough member
    exact ⟨b, by rw [Op.run, ran]; rfl, sound⟩
  | shift => exact sound.shift enough ran
  | pop => exact sound.pop enough ran

/-- A run. -/
theorem run (sound : Sound a s) (enough : 2 ^ 30 ≤ fuel) (ran : s.run ops = some (results, s')) :
    ∃ b, Dllarr.run fuel a ops = .ok (results, b) ∧ Sound b s' := by
  induction ops generalizing a s results with
  | nil =>
    obtain ⟨rfl, rfl⟩ := Prod.mk.inj (Option.some.inj ran)
    exact ⟨a, rfl, sound⟩
  | cons op ops ih =>
    rw [Plain.run] at ran
    obtain ⟨⟨result, between⟩, stepped, rest⟩ := Option.bind_eq_some_iff.mp ran
    obtain ⟨⟨more, final⟩, remaining, same⟩ := Option.bind_eq_some_iff.mp rest
    obtain ⟨rfl, rfl⟩ := Prod.mk.inj (Option.some.inj same)
    obtain ⟨b, here, sound⟩ := sound.step enough stepped
    obtain ⟨c, later, sound⟩ := ih sound remaining
    refine ⟨c, ?_, sound⟩
    rw [Dllarr.run, here, Except.ok_bind]
    dsimp only
    rw [later]
    rfl

end Sound

end Plain

/-- `dllarr_init` leaves the elements alone. -/
theorem init_sound {offset : ℤ} (fresh : (a.cell .head).prev = none ∧ (a.cell .tail).next = none) (sane : 0 ≤ offset) :
    ∃ b, init a offset = .ok b ∧ Plain.Sound b .empty := by
  let ends := (a.modify .head fun c => { c with next := some .tail, magic, index := -1 }).modify .tail
    fun c => { c with prev := some .head, magic, index := 0 }
  let made : Arr ε := { ends with
    size := startSize, array := some { capacity := startSize, slot := fun _ => none }, offset }
  have head : made.cell .head = { a.cell .head with next := some .tail, magic, index := -1 } := by
    simp [made, ends]
  have tail : made.cell .tail = { a.cell .tail with prev := some .head, magic, index := 0 } := by
    simp [made, ends]
  have rep : Represents made [] := by
    refine ⟨List.nodup_nil, ?_, ?_, ?_, fun i inside => ?_, nofun, ⟨_, rfl, rfl, nofun⟩, Int.natCast_nonneg _,
      ⟨5, le_rfl, by decide, rfl⟩, sane⟩
    · refine DoublyLinked.links_cons_cons.mpr ⟨⟨?_, ?_⟩, .singleton _⟩
      · rw [head]
      · rw [tail]
    · rw [head]
      exact fresh.1
    · rw [tail]
      exact fresh.2
    · match i, inside with
      | 0, _ => exact congrArg Cell.index head
      | 1, _ => exact congrArg Cell.index tail
  refine ⟨made, ?_, rep, fun e free => absurd free (Finset.notMem_empty e)⟩
  rw [init, check_ok sane, Except.ok_bind, check_ok fresh, Except.ok_bind]
  dsimp only
  rw [show dllarrAssert _ = _ from rep.dllarrAssert]
  rfl

/-- The structure is the list, in whichever way it is read. -/
structure Agrees (a : Arr ε) (l : List ε) : Prop where
  forward : ∀ fuel, l.length + 2 ≤ fuel → DoublyLinked.walk (fun c => (a.cell c).next) fuel (some .head) = nodes l
  backward : ∀ fuel, l.length + 2 ≤ fuel →
    DoublyLinked.walk (fun c => (a.cell c).prev) fuel (some .tail) = (nodes l).reverse
  array : ∀ i (inside : i < l.length), a.load i = .ok (some (.of l[i]))
  number : ∀ e ∈ l, ∀ i : ℕ, (a.cell (.of e)).index = i ↔ l[i]? = some e
  first : Dllarr.first a = .ok l.head?
  last : Dllarr.last a = .ok l.getLast?
  next : ∀ i (inside : i < l.length), Dllarr.next a l[i] = .ok l[i + 1]?
  prev : ∀ i (inside : i < l.length), Dllarr.prev a l[i] = .ok (if i = 0 then none else l[i - 1]?)
  nth : ∀ i (inside : i < l.length), Dllarr.nth a i = .ok (some l[i])
  index : ∀ i (inside : i < l.length), Dllarr.index a l[i] = .ok i
  count : Dllarr.count a = .ok l.length
  iterate : ∀ {σ ρ : Type} (func : ε → σ → Option ρ × σ) (priv : σ) (fuel : ℕ), l.length < fuel →
    Dllarr.iterate fuel a func priv = .ok (visit func l priv)

theorem Represents.agrees {l : List ε} (rep : Represents a l) : Agrees a l where
  forward _ enough := (rep.walk_eq enough).1
  backward _ enough := (rep.walk_eq enough).2
  array _ inside := rep.load_eq inside
  number e member i := by
    obtain ⟨k, inside, rfl⟩ := List.mem_iff_getElem.mp member
    rw [rep.index_of inside, List.getElem?_eq_some_iff]
    constructor
    · intro same
      obtain rfl : k = i := by exact_mod_cast same
      exact ⟨inside, rfl⟩
    · rintro ⟨bound, same⟩
      exact_mod_cast (rep.nodup.getElem_inj_iff.mp same).symm
  first := rep.first_eq
  last := rep.last_eq
  next _ inside := rep.next_eq inside
  prev _ inside := rep.prev_eq inside
  nth _ inside := rep.nth_eq inside
  index _ inside := rep.index_eq inside
  count := rep.count_eq
  iterate func priv _ enough := rep.iterate_eq func priv enough

/-- After every run the structure is the list that the same run makes of a plain list, every pointer that was
returned is the plain list's, and what is in no list is unlinked. -/
theorem dllarr_is_list {offset : ℤ} {ops : List (Op ε)} {results : List (Option ε)} {s : Plain ε}
    (fresh : (a.cell .head).prev = none ∧ (a.cell .tail).next = none) (sane : 0 ≤ offset) (enough : 2 ^ 30 ≤ fuel)
    (allowed : Plain.empty.run ops = some (results, s)) :
    ∃ b c, init a offset = .ok b ∧ run fuel b ops = .ok (results, c) ∧ Agrees c s.list ∧
      ∀ e ∈ s.loose, Unlinked c e := by
  obtain ⟨b, made, sound⟩ := init_sound fresh sane
  obtain ⟨c, ran, sound⟩ := sound.run enough allowed
  exact ⟨b, c, made, ran, sound.represents.agrees, fun e free => (sound.unlinked e free).2⟩

/-- A list of which the first member is removed. -/
theorem dllarr_is_list_three : ∃ b c, init ({ cell := fun _ => {} } : Arr ℕ) 8 = .ok b ∧
    run (2 ^ 30) b [.alloc 1, .alloc 2, .alloc 3, .append 1, .prepend 2, .insert 3 1, .shift] =
      .ok ([some 1, some 2, some 3, some 1, some 2, some 3, some 2], c) ∧ Agrees c [3, 1] ∧ Unlinked c 2 := by
  obtain ⟨b, c, made, ran, agrees, unlinked⟩ := @dllarr_is_list ℕ _ { cell := fun _ => {} } (2 ^ 30) 8
    [.alloc 1, .alloc 2, .alloc 3, .append 1, .prepend 2, .insert 3 1, .shift] _ _ ⟨rfl, rfl⟩ (by decide) le_rfl rfl
  exact ⟨b, c, made, ran, agrees, unlinked 2 (by decide)⟩

end Scubed3.Dllarr
