import Scubed3.Model.Daemon
import Scubed3.Model.Hashtbl

/-! # The functions of the hash table

`hashtbl.c` as one thread runs it, for a table of any kind: with strings or with bytes as keys, thread-safe or not,
unique or not. The elements, their pointers and the mutexes are those of the table of the threads. A loop over a list
takes at most `fuel` turns.
-/

namespace Scubed3.HashtblCalls

open Hashtbl

/-- What does not change of `hashtbl_t`, as the assertions of `hashtbl_init_default` let it pass. Some bits of a key
are used for the bucket. -/
structure Conf where
  keySize : ℤ
  keyBits : ℕ
  threadSafe : Bool
  unique : Bool
  /-- There is a function that is called on every element that is deleted. -/
  freer : Bool
  keyBits_pos : 0 < keyBits
  keyBits_le : keyBits ≤ 16
  keySize_ge : -128 ≤ keySize
  binary : 0 ≤ keySize → keyBits ≤ 8 * keySize ∧ keySize < 128

/-- What `key` of an element points to: a string, here without the zero that ends it, or `key_size` bytes. -/
structure Key (h : Conf) where
  bytes : List UInt8
  string : h.keySize < 0 → 0 ∉ bytes
  binary : 0 ≤ h.keySize → bytes.length = h.keySize
deriving DecidableEq

variable (h : Conf)

/-- A number from its bytes, the lowest first. -/
def littleEndian (bytes : List UInt8) : ℕ := bytes.foldr (fun byte n => byte.toNat + n <<< 8) 0

/-- `get_bucket` before it takes the lowest bits. -/
def hash (key : Key h) : ℕ :=
  if h.keySize < 0 then hashSdbm key.bytes
  else littleEndian (key.bytes.take (if h.keySize > 4 then 4 else h.keySize.toNat))

/-- The buckets of the table. -/
def Conf.buckets : Hashtbl (Key h) where
  keyBits := h.keyBits
  hash := hash h
  keyBits_pos := h.keyBits_pos
  keyBits_le := h.keyBits_le

/-- What changes of `hashtbl_t`, and the elements that it points to. -/
structure Table where
  /-- The pointers `first` and `next`. -/
  next : Cell (Key h) → Option (Elt (Key h)) := fun _ => none
  mutexes : Mutex (Key h) → MutexState
  count : ℤ := 0
  /-- The elements that `freer` was called on, the latest first. -/
  freed : List (Elt (Key h)) := []

variable {h}

/-! ## Mutexes -/

def Table.setMutex (t : Table h) (mutex : Mutex (Key h)) (state : MutexState) : Table h :=
  { t with mutexes := Function.update t.mutexes mutex state }

/-- `pthd_mutex_lock`. -/
def Table.lock (t : Table h) (mutex : Mutex (Key h)) : Except Failure (Table h) :=
  match t.mutexes mutex with
  | .uninitialized => .error (.fatal "trying to lock uninitialized mutex")
  | .locked _ => .error (.fatal "trying to doubly lock an own mutex")
  | .unlocked => return t.setMutex mutex (.locked 0)

/-- `pthd_mutex_unlock`. -/
def Table.unlock (t : Table h) (mutex : Mutex (Key h)) : Except Failure (Table h) :=
  match t.mutexes mutex with
  | .uninitialized => .error (.fatal "trying to unlock uninitialized mutex")
  | .unlocked => .error (.fatal "trying to unlock mutex we do not own")
  | .locked _ => return t.setMutex mutex .unlocked

/-- `pthd_mutex_destroy`. -/
def Table.destroy (t : Table h) (mutex : Mutex (Key h)) : Except Failure (Table h) :=
  match t.mutexes mutex with
  | .uninitialized => .error (.fatal "unknown error trying to destroy mutex")
  | .locked _ => .error (.fatal "trying to destroy locked mutex")
  | .unlocked => return t.setMutex mutex .uninitialized

/-- Something that is only done when the table is thread-safe. -/
def Table.ts (t : Table h) (action : Table h → Except Failure (Table h)) : Except Failure (Table h) :=
  if h.threadSafe then action t else return t

/-- `hashtbl_unlock_element_byptr`. -/
def hashtblUnlockElementByptr (t : Table h) (elt : Elt (Key h)) : Except Failure (Table h) := t.unlock (.data elt)

/-! ## Deleting -/

/-- `hashtbl_delete_element`. -/
def hashtblDeleteElement (t : Table h) (eltp : Cell (Key h)) (ptrMutex : Option (Mutex (Key h))) :
    Except Failure (Table h) :=
  match t.next eltp with
  | none => .error (.null "*eltp")
  | some elt => do
    let t ← t.ts (·.lock (.ptr (.elt elt)))
    let t := { t with next := Function.update t.next eltp (t.next (.elt elt)) }
    let t ← t.ts fun t => do
      let t ← t.unlock (.ptr (.elt elt))
      let t ← t.unlock (.data elt)
      let t ← t.destroy (.ptr (.elt elt))
      let t ← t.destroy (.data elt)
      match ptrMutex with
      | some last => t.unlock last
      | none => return t
    return if h.freer then { t with freed := elt :: t.freed } else t

/-- The inner loop of `hashtbl_empty`. -/
def emptyBucket (bucket : ℕ) : (fuel : ℕ) → Table h → Draw Failure (Table h)
  | 0, _ => .starve
  | fuel + 1, t =>
    match t.next (.bucket bucket) with
    | none => return t
    | some elt => do
      let t ← t.ts (·.lock (.data elt))
      let t ← hashtblDeleteElement t (.bucket bucket) none
      emptyBucket bucket fuel t

/-- The loop of `hashtbl_empty`, for `turns` buckets from `bucket` on. -/
def emptyBuckets (fuel : ℕ) : (turns bucket : ℕ) → Table h → Draw Failure (Table h)
  | 0, _, t => return t
  | turns + 1, bucket, t => do
    let t ← t.ts (·.lock (.ptr (.bucket bucket)))
    let t ← emptyBucket bucket fuel t
    let t ← t.ts (·.unlock (.ptr (.bucket bucket)))
    emptyBuckets fuel turns (bucket + 1) t

/-- `hashtbl_empty`. -/
def hashtblEmpty (fuel : ℕ) (t : Table h) : Draw Failure (Table h) := do
  let t ← t.ts (·.lock .count)
  let t ← emptyBuckets fuel h.buckets.noBuckets 0 { t with count := 0 }
  t.ts (·.unlock .count)

/-- `hashtbl_init_default`. -/
def hashtblInitDefault (h : Conf) : Table h where
  mutexes
    | .count => if h.threadSafe then .unlocked else .uninitialized
    | .uniq bucket =>
      if h.threadSafe ∧ h.unique ∧ bucket < h.buckets.noBuckets then .unlocked else .uninitialized
    | .ptr (.bucket bucket) => if h.threadSafe ∧ bucket < h.buckets.noBuckets then .unlocked else .uninitialized
    | .ptr (.elt _) | .data _ => .uninitialized

/-! ## Searching -/

/-- `compare_key`. -/
def compareKey (key : Key h) (elt : Elt (Key h)) : Except Failure Bool := do
  check (h.keySize ≠ 0) "h->key_size != 0"
  if h.keySize < 0 ∧ key.bytes = elt.key.bytes then return true
  if h.keySize > 0 ∧ key.bytes.take h.keySize.toNat = elt.key.bytes.take h.keySize.toNat then return true
  return false

/-- `compare_ptr`. -/
def comparePtr (ptr elt : Elt (Key h)) : Except Failure Bool := return ptr.addr = elt.addr

/-- `compare_true`. -/
def compareTrue (_ : Elt (Key h)) : Except Failure Bool := return true

/-- `hashtbl_find_elementp_starting_at`: the pointer to the element that was found, with `*ptr_mutex`. -/
def findElementpStartingAt (compare : Elt (Key h) → Except Failure Bool) :
    (fuel : ℕ) → Table h → (ptrMutex : Mutex (Key h)) → (next : Cell (Key h)) →
      Draw Failure (Table h × Option (Cell (Key h) × Mutex (Key h)))
  | 0, _, _, _ => .starve
  | fuel + 1, t, ptrMutex, next =>
    match t.next next with
    | none => do
      let t ← t.ts (·.unlock ptrMutex)
      return (t, none)
    | some elt => do
      if ← compare elt then
        let t ← t.ts (·.lock (.data elt))
        return (t, some (next, ptrMutex))
      else
        let t ← t.ts fun t => do
          let t ← t.lock (.ptr (.elt elt))
          t.unlock ptrMutex
        findElementpStartingAt compare fuel t (.ptr (.elt elt)) (.elt elt)

/-- `hashtbl_find_elementp_in_bucket`. -/
def findElementpInBucket (compare : Elt (Key h) → Except Failure Bool) (fuel : ℕ) (t : Table h) (bucket : ℕ) :
    Draw Failure (Table h × Option (Cell (Key h) × Mutex (Key h))) := do
  check (bucket < h.buckets.noBuckets) "bucket >= 0 && bucket < NO_BUCKETS"
  let t ← t.ts (·.lock (.ptr (.bucket bucket)))
  findElementpStartingAt compare fuel t (.ptr (.bucket bucket)) (.bucket bucket)

/-- `hashtbl_find_elementp_from_bucket`, for `turns` buckets. -/
def findElementpFromBucket (compare : Elt (Key h) → Except Failure Bool) (fuel : ℕ) :
    (turns : ℕ) → Table h → (bucket : ℕ) → Draw Failure (Table h × Option (Cell (Key h) × Mutex (Key h)))
  | 0, t, _ => return (t, none)
  | turns + 1, t, bucket => do
    match ← findElementpInBucket compare fuel t bucket with
    | (t, some found) => return (t, some found)
    | (t, none) => findElementpFromBucket compare fuel turns t (bucket + 1)

/-- The last part of `hashtbl_find_element_*`: the element that a pointer points to. -/
def handOver (t : Table h) : Option (Cell (Key h) × Mutex (Key h)) → Except Failure (Table h × Option (Elt (Key h)))
  | none => return (t, none)
  | some (eltp, last) => do
    let elt := t.next eltp
    let t ← t.ts (·.unlock last)
    return (t, elt)

/-- `hashtbl_find_element_starting_at`. -/
def findElementStartingAt (compare : Elt (Key h) → Except Failure Bool) (fuel : ℕ) (t : Table h) (start : Elt (Key h)) :
    Draw Failure (Table h × Option (Elt (Key h))) := do
  let t ← t.ts fun t => do
    let t ← t.lock (.ptr (.elt start))
    t.unlock (.data start)
  let (t, found) ← findElementpStartingAt compare fuel t (.ptr (.elt start)) (.elt start)
  handOver t found

/-- `hashtbl_find_element_in_bucket`. -/
def findElementInBucket (compare : Elt (Key h) → Except Failure Bool) (fuel : ℕ) (t : Table h) (bucket : ℕ) :
    Draw Failure (Table h × Option (Elt (Key h))) := do
  let (t, found) ← findElementpInBucket compare fuel t bucket
  handOver t found

/-- `hashtbl_find_element_from_bucket`. -/
def findElementFromBucket (compare : Elt (Key h) → Except Failure Bool) (fuel : ℕ) (t : Table h) (start : ℕ) :
    Draw Failure (Table h × Option (Elt (Key h))) := do
  let (t, found) ← findElementpFromBucket compare fuel (h.buckets.noBuckets - start) t start
  handOver t found

/-- `hashtbl_find_element_bykey`. -/
def hashtblFindElementBykey (fuel : ℕ) (t : Table h) (key : Key h) : Draw Failure (Table h × Option (Elt (Key h))) :=
  findElementInBucket (compareKey key) fuel t (h.buckets.getBucket key)

/-- `hashtbl_delete_element_from_bucket`. -/
def deleteElementFromBucket (compare : Elt (Key h) → Except Failure Bool) (fuel : ℕ) (t : Table h) (bucket : ℕ) :
    Draw Failure (Table h) := do
  match ← findElementpInBucket compare fuel t bucket with
  | (t, none) => return t -- the element has already been deleted
  | (t, some (eltp, last)) =>
    let t ← t.ts (·.lock .count)
    let t := { t with count := t.count - 1 }
    check (t.count ≥ 0) "h->count >= 0"
    let t ← t.ts (·.unlock .count)
    hashtblDeleteElement t eltp (some last)

/-- `hashtbl_delete_element_bykey`. -/
def hashtblDeleteElementBykey (fuel : ℕ) (t : Table h) (key : Key h) : Draw Failure (Table h) :=
  deleteElementFromBucket (compareKey key) fuel t (h.buckets.getBucket key)

/-- `hashtbl_delete_element_byptr`. -/
def hashtblDeleteElementByptr (fuel : ℕ) (t : Table h) (elt : Elt (Key h)) : Draw Failure (Table h) :=
  deleteElementFromBucket (comparePtr elt) fuel t (h.buckets.getBucket elt.key)

/-! ## Adding -/

/-- `unique_key`. -/
def uniqueKey (fuel : ℕ) (t : Table h) (elt : Elt (Key h)) (bucket : ℕ) : Draw Failure (Table h × Bool) := do
  match ← findElementInBucket (compareKey elt.key) fuel t bucket with
  | (t, some elt2) =>
    let t ← t.ts fun t => hashtblUnlockElementByptr t elt2
    return (t, false)
  | (t, none) => return (t, true)

/-- The part of `hashtbl_add_element` for an element whose key is present already. -/
def refuseElement (t : Table h) (bucket : ℕ) : Except Failure (Table h) := do
  let t ← t.ts fun t => do
    let t ← (if h.unique then t.unlock (.uniq bucket) else return t)
    t.lock .count
  { t with count := t.count - 1 }.ts (·.unlock .count)

/-- The last part of `hashtbl_add_element`: the element becomes the first one of its bucket. -/
def linkElement (t : Table h) (elt : Elt (Key h)) (bucket : ℕ) : Except Failure (Table h) := do
  let t ← t.ts fun t => ((t.setMutex (.ptr (.elt elt)) .unlocked).setMutex (.data elt) .unlocked).lock
    (.ptr (.bucket bucket))
  let t := { t with next := Function.update t.next (.elt elt) (t.next (.bucket bucket)) }
  let t := { t with next := Function.update t.next (.bucket bucket) (some elt) }
  t.ts fun t => do
    let t ← t.lock (.data elt)
    let t ← t.unlock (.ptr (.bucket bucket))
    if h.unique then t.unlock (.uniq bucket) else return t

/-- `hashtbl_add_element`. -/
def hashtblAddElement (fuel : ℕ) (t : Table h) (elt : Elt (Key h)) : Draw Failure (Table h × Option (Elt (Key h))) := do
  check (elt.addr ≠ 0) "elt"
  let bucket := h.buckets.getBucket elt.key
  let t ← t.ts (·.lock .count)
  let t ← { t with count := t.count + 1 }.ts (·.unlock .count)
  let t ← t.ts fun t => if h.unique then t.lock (.uniq bucket) else return t
  let (t, isUnique) ← (if h.unique then uniqueKey fuel t elt bucket else pure (t, true))
  if isUnique then
    let t ← linkElement t elt bucket
    return (t, some elt)
  else
    let t ← refuseElement t bucket
    return (t, none)

/-! ## All elements -/

/-- `hashtbl_get_count`. -/
def hashtblGetCount (t : Table h) : Except Failure (Table h × ℤ) := do
  let t ← t.ts (·.lock .count)
  let count := t.count
  let t ← t.ts (·.unlock .count)
  return (t, count)

/-- `hashtbl_first_element`. -/
def hashtblFirstElement (fuel : ℕ) (t : Table h) : Draw Failure (Table h × Option (Elt (Key h))) :=
  findElementFromBucket compareTrue fuel t 0

/-- `hashtbl_next_element_byptr`. -/
def hashtblNextElementByptr (fuel : ℕ) (t : Table h) (prev : Elt (Key h)) :
    Draw Failure (Table h × Option (Elt (Key h))) := do
  let bucket := h.buckets.getBucket prev.key
  match ← findElementStartingAt compareTrue fuel t prev with
  | (t, some elt) => return (t, some elt)
  | (t, none) => findElementFromBucket compareTrue fuel t (bucket + 1)

section Traverse

variable {σ : Type} (rep : σ → Elt (Key h) → σ × ℤ)

/-- The loop of `hashtbl_ts_traverse`. -/
def traverseLoop (fuel : ℕ) : (turns : ℕ) → Table h → σ → Option (Elt (Key h)) → Draw Failure (Table h × σ × ℤ)
  | 0, _, _, _ => .starve
  | _ + 1, t, arg, none => return (t, arg, 0)
  | turns + 1, t, arg, some elt => do
    let (arg, result) := rep arg elt
    if result = -1 then
      let t ← hashtblUnlockElementByptr t elt
      return (t, arg, -1)
    else
      let (t, elt) ← hashtblNextElementByptr fuel t elt
      traverseLoop fuel turns t arg elt

/-- `hashtbl_ts_traverse`, for a function `rep` that works on `arg`. -/
def hashtblTsTraverse (fuel : ℕ) (t : Table h) (arg : σ) : Draw Failure (Table h × σ × ℤ) := do
  let (t, elt) ← hashtblFirstElement fuel t
  traverseLoop rep fuel fuel t arg elt

end Traverse

/-! ## One thread -/

/-- What a thread does with a table. -/
inductive Op (h : Conf) where
  | addElement (elt : Elt (Key h))
  | findElementBykey (key : Key h)
  | deleteElementBykey (key : Key h)
  | deleteElementByptr (elt : Elt (Key h))
  | empty
  | getCount
  | tsTraverse

/-- What it gets back. -/
inductive Answer (h : Conf) where
  | void
  | elt (elt : Option (Elt (Key h)))
  | count (count : ℤ)
  | visited (elts : List (Elt (Key h)))
deriving DecidableEq

/-- The thread unlocks the element that it is handed. -/
def release (t : Table h) : Option (Elt (Key h)) → Except Failure (Table h)
  | none => return t
  | some elt => t.ts fun t => hashtblUnlockElementByptr t elt

/-- Every element that is handed over is unlocked before the next operation. -/
def Op.run (fuel : ℕ) (t : Table h) : Op h → Draw Failure (Table h × Answer h)
  | .addElement elt => do
    let (t, added) ← hashtblAddElement fuel t elt
    let t ← release t added
    return (t, .elt added)
  | .findElementBykey key => do
    let (t, found) ← hashtblFindElementBykey fuel t key
    let t ← release t found
    return (t, .elt found)
  | .deleteElementBykey key => do
    let t ← hashtblDeleteElementBykey fuel t key
    return (t, .void)
  | .deleteElementByptr elt => do
    let t ← hashtblDeleteElementByptr fuel t elt
    return (t, .void)
  | .empty => do
    let t ← hashtblEmpty fuel t
    return (t, .void)
  | .getCount => do
    let (t, count) ← hashtblGetCount t
    return (t, .count count)
  | .tsTraverse => do
    let (t, visited, _) ← hashtblTsTraverse (fun visited elt => (visited ++ [elt], 0)) fuel t []
    return (t, .visited visited)

/-- One operation after the other: the table and the answer after each of them. -/
def runAll (fuel : ℕ) : Table h → List (Op h) → Draw Failure (List (Table h × Answer h))
  | _, [] => return []
  | t, op :: ops => do
    let (t, answer) ← op.run fuel t
    let history ← runAll fuel t ops
    return (t, answer) :: history

end Scubed3.HashtblCalls
