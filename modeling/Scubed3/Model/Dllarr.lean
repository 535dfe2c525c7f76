import Mathlib.Logic.Function.Basic
import Scubed3.ToMathlib.Except
import Scubed3.ToMathlib.Memory

/-! # The doubly linked array

`dllarr.c`. The elements belong to the caller; each has a `dllarr_elt_t` at `offset`, so that a pointer to an
element and the pointer to its `dllarr_elt_t` stand for each other. The list is linked between `head` and
`tail`, the index of `tail` is the number of members, and `array` points at the members by their index.
Memory can always be allocated. A loop over the list takes at most `fuel` turns.
-/

namespace Scubed3.Dllarr

inductive Fault where
  | assertion (text : String)
  | fatal (message : String)
  /-- A null pointer is dereferenced. -/
  | null
  /-- An access beyond the bounds of `array`. -/
  | outOfBounds
  /-- An `int` overflows. -/
  | overflow
  | starved
deriving DecidableEq, Repr

/-- `dllarr_elt_t*`: the two ends of the list, or the one in an element. -/
inductive Elt (ε : Type) where
  | head
  | tail
  | of (e : ε)
deriving DecidableEq, Repr

/-- `DLLARR_MAGIC`. -/
def magic : UInt64 := 0x37B82A6074110287

/-- `dllarr_elt_t`. -/
@[ext] structure Cell (ε : Type) where
  magic : UInt64 := 0
  prev : Option (Elt ε) := none
  next : Option (Elt ε) := none
  index : ℤ := 0

/-- What `array` points at. -/
structure Slots (ε : Type) where
  capacity : ℕ
  slot : ℕ → Option (Elt ε)

/-- `dllarr_t`, and the `dllarr_elt_t` of the elements. -/
structure Arr (ε : Type) where
  cell : Elt ε → Cell ε
  array : Option (Slots ε) := none
  size : ℤ := 0
  offset : ℤ := 0

/-- `DLLARR_START_SIZE`. -/
def startSize : ℕ := 32

/-- `assert`. -/
def check (condition : Prop) [Decidable condition] (text : String) : Except Fault Unit :=
  if condition then .ok () else .error (.assertion text)

/-- The pointer is dereferenced. -/
def deref {ε : Type} (elt : Option (Elt ε)) : Except Fault (Elt ε) :=
  match elt with
  | some elt => .ok elt
  | none => .error .null

variable {ε : Type} [DecidableEq ε]

namespace Arr

variable (a : Arr ε)

/-- Change what a pointer points at. -/
def modify (elt : Elt ε) (f : Cell ε → Cell ε) : Arr ε :=
  { a with cell := Function.update a.cell elt (f (a.cell elt)) }

/-- `a->array[i]`. -/
def load (i : ℤ) : Except Fault (Option (Elt ε)) :=
  match a.array with
  | none => .error .null
  | some slots => if 0 ≤ i ∧ i < slots.capacity then .ok (slots.slot i.toNat) else .error .outOfBounds

/-- `a->array[i] = elt`. -/
def store (i : ℤ) (elt : Elt ε) : Except Fault (Arr ε) :=
  match a.array with
  | none => .error .null
  | some slots =>
    if 0 ≤ i ∧ i < slots.capacity then
      .ok { a with array := some { slots with slot := Function.update slots.slot i.toNat (some elt) } }
    else .error .outOfBounds

/-- `memmove(&a->array[dest], &a->array[src], n*sizeof(*a->array))`. -/
def memmove (dest src n : ℤ) : Except Fault (Arr ε) :=
  match a.array with
  | none => .error .null
  | some slots =>
    if 0 ≤ n ∧ 0 ≤ dest ∧ 0 ≤ src ∧ dest + n ≤ slots.capacity ∧ src + n ≤ slots.capacity then
      let slot := Memory.blit slots.slot dest.toNat n.toNat fun k => slots.slot (src.toNat + k)
      .ok { a with array := some { slots with slot } }
    else .error .outOfBounds

end Arr

/-- `dllarr_assert`. -/
def dllarrAssert (a : Arr ε) : Except Fault Unit := do
  check ((a.cell .head).prev = none ∧ (a.cell .tail).next = none) "a && !a->head.prev && !a->tail.next"
  if (a.cell .head).index ≠ 0 then
    check ((a.cell .head).index = -1) "a->head.index == -1"
    check a.array.isSome "a->array"
    check (a.offset ≥ 0) "a->offset >= 0"
    check (a.size > 0) "a->size > 0"
    check (a.size ≥ (a.cell .tail).index) "a->size >= a->tail.index"
    if (a.cell .tail).index = 0 then
      check ((a.cell .head).next = some .tail ∧ (a.cell .tail).prev = some .head)
        "a->head.next == &a->tail && a->tail.prev == &a->head"
    else check ((a.cell .head).next.isSome ∧ (a.cell .tail).prev.isSome) "a->head.next && a->tail.prev"

omit [DecidableEq ε] in
/-- `access_ptr`. -/
def accessPtr (elt : Option (Elt ε)) : Except Fault (Option ε) :=
  match elt with
  | none => .error (.assertion "a && elt")
  | some .head => .ok none
  | some .tail => .ok none
  | some (.of e) => .ok (some e)

/-- `access_elt`. -/
def accessElt (a : Arr ε) (at_ : ε) : Except Fault (Elt ε) := do
  check ((a.cell (.of at_)).magic = magic) "at_elt->magic == DLLARR_MAGIC"
  return .of at_

/-- `dllarr_init`. -/
def init (a : Arr ε) (offset : ℤ) : Except Fault (Arr ε) := do
  check (offset ≥ 0) "a && offset >= 0"
  check ((a.cell .head).prev = none ∧ (a.cell .tail).next = none) "!a->head.prev && !a->tail.next"
  let a := a.modify .head fun c => { c with next := some .tail, magic, index := -1 }
  let a := a.modify .tail fun c => { c with prev := some .head, magic, index := 0 }
  let a := { a with size := startSize, array := some { capacity := startSize, slot := fun _ => none }, offset }
  dllarrAssert a
  return a

/-- `dllarr_first`. -/
def first (a : Arr ε) : Except Fault (Option ε) := do
  dllarrAssert a
  accessPtr (a.cell .head).next

/-- `dllarr_next`. -/
def next (a : Arr ε) (at_ : ε) : Except Fault (Option ε) := do
  dllarrAssert a
  accessPtr (a.cell (← accessElt a at_)).next

/-- `dllarr_last`. -/
def last (a : Arr ε) : Except Fault (Option ε) := do
  dllarrAssert a
  accessPtr (a.cell .tail).prev

/-- `dllarr_prev`. -/
def prev (a : Arr ε) (at_ : ε) : Except Fault (Option ε) := do
  dllarrAssert a
  accessPtr (a.cell (← accessElt a at_)).prev

/-- The loop of `dllarr_iterate`; `func` also changes what `priv` points at. -/
def iterateLoop {σ ρ : Type} (a : Arr ε) (func : ε → σ → Option ρ × σ) :
    (fuel : ℕ) → (elt : Option (Elt ε)) → (priv : σ) → Except Fault (Option ρ × σ)
  | 0, _, _ => .error .starved
  | fuel + 1, elt, priv =>
    if elt = some .tail then return (none, priv)
    else do
      match ← accessPtr elt with
      | none => .error .null
      | some e =>
        match func e priv with
        | (some ret, priv) => return (some ret, priv)
        | (none, priv) => iterateLoop a func fuel (a.cell (.of e)).next priv

/-- `dllarr_iterate`. -/
def iterate {σ ρ : Type} (fuel : ℕ) (a : Arr ε) (func : ε → σ → Option ρ × σ) (priv : σ) :
    Except Fault (Option ρ × σ) := do
  dllarrAssert a
  iterateLoop a func fuel (a.cell .head).next priv

/-- `while (elt) { elt->index += change; elt = elt->next; }`. -/
def renumber (change : ℤ) : (fuel : ℕ) → (a : Arr ε) → (elt : Option (Elt ε)) → Except Fault (Arr ε)
  | _, a, none => return a
  | 0, _, some _ => .error .starved
  | fuel + 1, a, some elt =>
    let a := a.modify elt fun c => { c with index := c.index + change }
    renumber change fuel a (a.cell elt).next

/-- The array is doubled. -/
def grow (a : Arr ε) : Except Fault (Arr ε) :=
  match a.array with
  | none => .error .null
  | some slots =>
    if a.size * 2 < 2 ^ 31 then
      .ok { a with
        size := a.size * 2
        array := some {
          capacity := (a.size * 2).toNat
          slot := fun i => if i < slots.capacity then slots.slot i else none } }
    else .error .overflow

/-- The part of `dllarr_insert` that makes room for one more pointer. -/
def makeRoom (a : Arr ε) : Except Fault (Arr ε) :=
  if (a.cell .tail).index = a.size then grow a else pure a

/-- The part of `dllarr_insert` that moves the pointers from `at` on; it also finds out what is at the place. -/
def moveUp (a : Arr ε) (atElt : Option (Elt ε)) : Except Fault (Arr ε × Elt ε) :=
  match atElt with
  -- insert at NULL means append (insert at tail)
  | none => return (a, .tail)
  | some atElt => do
    let a ← a.memmove ((a.cell atElt).index + 1) (a.cell atElt).index ((a.cell .tail).index - (a.cell atElt).index)
    check (a.cell atElt).next.isSome "at_elt->next"
    check ((a.cell (← deref (a.cell atElt).next)).prev = some atElt) "at_elt->next->prev == at_elt"
    return (a, atElt)

/-- The part of `dllarr_insert` that links the new element. -/
def link (fuel : ℕ) (a : Arr ε) (newElt atElt : Elt ε) : Except Fault (Arr ε) := do
  check (a.cell atElt).prev.isSome "at_elt->prev"
  check ((a.cell (← deref (a.cell atElt).prev)).next = some atElt) "at_elt->prev->next == at_elt"
  let a := a.modify newElt fun c => { c with index := (a.cell atElt).index }
  let a ← a.store (a.cell newElt).index newElt
  let a := a.modify (← deref (a.cell atElt).prev) fun c => { c with next := some newElt }
  let a := a.modify newElt fun c => { c with prev := (a.cell atElt).prev }
  let a := a.modify newElt fun c => { c with next := some atElt }
  let a := a.modify atElt fun c => { c with prev := some newElt }
  -- all elements (including tail), must have their index updated
  let a ← renumber 1 fuel a (some atElt)
  return a.modify newElt fun c => { c with magic }

/-- `dllarr_insert`; without `at` it appends. -/
def insert (fuel : ℕ) (a : Arr ε) (new : ε) (at_ : Option ε) : Except Fault (Arr ε) := do
  dllarrAssert a
  let newElt : Elt ε := .of new
  let atElt ← at_.mapM (accessElt a)
  check ((a.cell newElt).prev = none ∧ (a.cell newElt).next = none ∧ (a.cell newElt).index = 0)
    "!new_elt->prev && !new_elt->next && !new_elt->index"
  let a ← makeRoom a
  let (a, atElt) ← moveUp a atElt
  link fuel a newElt atElt

/-- `dllarr_append`. -/
def append (fuel : ℕ) (a : Arr ε) (new : ε) : Except Fault (Arr ε) := insert fuel a new none

/-- `dllarr_prepend`. -/
def prepend (fuel : ℕ) (a : Arr ε) (new : ε) : Except Fault (Arr ε) := do insert fuel a new (← first a)

/-- The part of `dllarr_remove` that moves the pointers behind `at`. -/
def moveDown (a : Arr ε) (atElt : Elt ε) : Except Fault (Arr ε) :=
  if (a.cell atElt).next ≠ some .tail then
    a.memmove (a.cell atElt).index ((a.cell atElt).index + 1) ((a.cell .tail).index - (a.cell atElt).index - 1)
  else pure a

/-- The part of `dllarr_remove` that takes the element out of the list. -/
def unlink (fuel : ℕ) (a : Arr ε) (atElt : Elt ε) : Except Fault (Arr ε) := do
  let a ← renumber (-1) fuel a (a.cell atElt).next
  let a := a.modify (← deref (a.cell atElt).next) fun c => { c with prev := (a.cell atElt).prev }
  let a := a.modify (← deref (a.cell atElt).prev) fun c => { c with next := (a.cell atElt).next }
  let a := a.modify atElt fun c => { c with prev := none, next := none }
  return a.modify atElt fun c => { c with index := 0 }

/-- `dllarr_remove`. -/
def remove (fuel : ℕ) (a : Arr ε) (at_ : ε) : Except Fault (Arr ε) := do
  dllarrAssert a
  let atElt ← accessElt a at_
  check (a.cell atElt).prev.isSome "at_elt->prev"
  check ((a.cell (← deref (a.cell atElt).prev)).next = some atElt) "at_elt->prev->next == at_elt"
  check ((a.cell (← deref (a.cell atElt).next)).prev = some atElt) "at_elt->next->prev == at_elt"
  let a ← moveDown a atElt
  unlink fuel a atElt

/-- The loop of `dllarr_free`. -/
def freeLoop : (fuel : ℕ) → (a : Arr ε) → (elt : Option (Elt ε)) → Except Fault (Arr ε)
  | 0, _, _ => .error .starved
  | fuel + 1, a, del =>
    if del = some .head then return a
    else do
      let elt := (a.cell (← deref del)).prev
      match ← accessPtr del with
      | none => .error .null
      | some e => freeLoop fuel (← remove (fuel + 1) a e) elt

/-- `dllarr_free`. -/
def free (fuel : ℕ) (a : Arr ε) : Except Fault (Arr ε) := do
  dllarrAssert a
  -- nothing to do
  if (a.cell .head).index = 0 then return a
  else
    -- remove backwards to avoid array copying
    let a ← freeLoop fuel a (a.cell .tail).prev
    return { a with array := none }

/-- `dllarr_shift`. -/
def shift (fuel : ℕ) (a : Arr ε) : Except Fault (Option ε × Arr ε) := do
  match ← first a with
  | none => return (none, a)
  | some e => return (some e, ← remove fuel a e)

/-- `dllarr_pop`. -/
def pop (fuel : ℕ) (a : Arr ε) : Except Fault (Option ε × Arr ε) := do
  match ← last a with
  | none => return (none, a)
  | some e => return (some e, ← remove fuel a e)

/-- `dllarr_nth`. -/
def nth (a : Arr ε) (n : ℤ) : Except Fault (Option ε) := do
  dllarrAssert a
  check (n ≥ 0 ∧ n < (a.cell .tail).index) "n >= 0 && n < a->tail.index"
  accessPtr (← a.load n)

/-- `dllarr_index`. -/
def index (a : Arr ε) (at_ : ε) : Except Fault ℤ := do
  dllarrAssert a
  return (a.cell (← accessElt a at_)).index

/-- `dllarr_count`. -/
def count (a : Arr ε) : Except Fault ℤ := do
  dllarrAssert a
  return (a.cell .tail).index

end Scubed3.Dllarr
