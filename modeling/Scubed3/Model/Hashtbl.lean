import Scubed3.ToMathlib.Interleaving
import Scubed3.ToMathlib.LinkedCells
import Scubed3.ToMathlib.Mutexes
import Scubed3.Model.BlockioInfo
import Mathlib.Data.Int.Notation
import Mathlib.Data.Nat.Notation

/-! # The hash table of the threads

A table that is thread-safe and unique. Every bucket and every element has a pointer to the next element and
a mutex for this pointer, and every element a mutex for its data. An element that is found is handed to the caller
with its data mutex locked. A thread walks along a list hand over hand.

A thread is at a point between two accesses to what the threads share. At most points it is clear what it does
next; a thread that is idle, or that was handed an element, can call a function of the table. A step is one lock or
unlock of a mutex, or one access to a pointer or to the count.
-/

namespace Scubed3

/-- What does not change of `hashtbl_t`. `hash` is what `get_bucket` makes of a key before it takes the lowest bits. -/
structure Hashtbl (κ : Type) where
  keyBits : ℕ
  hash : κ → ℕ
  keyBits_pos : 0 < keyBits
  keyBits_le : keyBits ≤ 16

namespace Hashtbl

/-- `hashtbl_elt_t`: an element that a caller allocated, with a key that does not change. -/
structure Elt (κ : Type) where
  addr : ℕ
  key : κ
deriving DecidableEq

/-- A pointer to an element: `first` of a bucket, or `next` of an element. -/
inductive Cell (κ : Type) where
  | bucket (bucket : ℕ)
  | elt (elt : Elt κ)
deriving DecidableEq

/-- `count_mutex`, `uniq_mutex` of a bucket, the `ptr_mutex` of a pointer and `data_mutex` of an element. -/
inductive Mutex (κ : Type) where
  | count
  | uniq (bucket : ℕ)
  | ptr (eltp : Cell κ)
  | data (elt : Elt κ)
deriving DecidableEq

/-- What a list is searched for, and on whose behalf. -/
inductive Seek (κ : Type) where
  /-- `hashtbl_find_element_bykey`. -/
  | find (key : κ)
  /-- `hashtbl_delete_element_bykey`. -/
  | delete (key : κ)
  /-- `unique_key` for an element that is added. -/
  | unique (elt : Elt κ)
  /-- `hashtbl_first_element` and `hashtbl_next_element_byptr`. -/
  | next
deriving DecidableEq

/-- Who called `hashtbl_delete_element`: `hashtbl_delete_element_from_bucket` with the pointer to the element,
or `hashtbl_empty` for a bucket. -/
inductive Deleter (κ : Type) where
  | bykey (eltp : Cell κ)
  | empty (bucket : ℕ)
deriving DecidableEq

/-- Where a thread is: the constructor names what it does next. -/
inductive Pc (κ : Type) where
  | idle
  /-- The caller has an element, with its data mutex locked. -/
  | handed (elt : Elt κ)
  | unlockElement (elt : Elt κ)
  -- `hashtbl_find_elementp_in_bucket` and `hashtbl_find_elementp_starting_at`
  | findInBucket (seek : Seek κ) (bucket : ℕ)
  | search (seek : Seek κ) (bucket : ℕ) (eltp : Cell κ)
  | found (seek : Seek κ) (bucket : ℕ) (eltp : Cell κ) (elt : Elt κ)
  | advance (seek : Seek κ) (bucket : ℕ) (eltp : Cell κ) (elt : Elt κ)
  | advanced (seek : Seek κ) (bucket : ℕ) (eltp : Cell κ) (elt : Elt κ)
  | missed (seek : Seek κ) (bucket : ℕ) (eltp : Cell κ)
  -- `hashtbl_find_element_*`
  | unlockLast (seek : Seek κ) (bucket : ℕ) (eltp : Cell κ) (elt : Elt κ)
  | nextPtr (elt : Elt κ)
  | nextData (elt : Elt κ)
  -- `hashtbl_delete_element_from_bucket`
  | deleteCount (eltp : Cell κ) (elt : Elt κ)
  | deleteDecrement (eltp : Cell κ) (elt : Elt κ)
  | deleteUncount (eltp : Cell κ) (elt : Elt κ)
  -- `hashtbl_delete_element`
  | deletePtr (deleter : Deleter κ) (elt : Elt κ)
  | unlink (deleter : Deleter κ) (elt : Elt κ)
  | unlockPtr (deleter : Deleter κ) (elt : Elt κ)
  | unlockData (deleter : Deleter κ) (elt : Elt κ)
  | destroyPtr (deleter : Deleter κ) (elt : Elt κ)
  | destroyData (deleter : Deleter κ) (elt : Elt κ)
  | deletedLast (eltp : Cell κ) (elt : Elt κ)
  | freeDeleted (elt : Elt κ)
  | freeEmptied (bucket : ℕ) (elt : Elt κ)
  -- `hashtbl_add_element`
  | addCount (elt : Elt κ)
  | addIncrement (elt : Elt κ)
  | addUncount (elt : Elt κ)
  | addUniq (elt : Elt κ)
  | duplicate (elt elt2 : Elt κ)
  | duplicateUniq (elt : Elt κ)
  | duplicateCount (elt : Elt κ)
  | duplicateDecrement (elt : Elt κ)
  | duplicateUncount (elt : Elt κ)
  | refused (elt : Elt κ)
  | addInitPtr (elt : Elt κ)
  | addInitData (elt : Elt κ)
  | addBucket (elt : Elt κ)
  | addNext (elt : Elt κ)
  | addFirst (elt : Elt κ)
  | addData (elt : Elt κ)
  | addUnlockBucket (elt : Elt κ)
  | addUnlockUniq (elt : Elt κ)
  -- `hashtbl_empty`
  | emptyCount
  | emptyZero
  | emptyBucket (bucket : ℕ)
  | emptyFirst (bucket : ℕ)
  | emptyData (bucket : ℕ) (elt : Elt κ)
  | emptyUnlock (bucket : ℕ)
  -- `hashtbl_get_count`
  | getCount
  | readCount
  | gotCount (count : ℤ)
deriving DecidableEq

/-- What the threads share, and where they are. -/
structure System (κ : Type) where
  /-- The pointers `first` and `next`. -/
  next : Cell κ → Option (Elt κ) := fun _ => none
  mutexes : Mutex κ → MutexState
  count : ℤ := 0
  /-- The elements that callers allocated and that were not freed. -/
  allocated : Elt κ → Bool := fun _ => false
  pc : ℕ → Pc κ := fun _ => .idle

/-- What a thread does at a point, and where it is then. -/
inductive Instr (κ : Type) where
  | lock (mutex : Mutex κ) (pc : Pc κ)
  | unlock (mutex : Mutex κ) (pc : Pc κ)
  | init (mutex : Mutex κ) (pc : Pc κ)
  | destroy (mutex : Mutex κ) (pc : Pc κ)
  /-- An assignment to a pointer. -/
  | store (eltp : Cell κ) (elt : Option (Elt κ)) (pc : Pc κ)
  | setCount (count : ℤ) (pc : Pc κ)
  | free (elt : Elt κ) (pc : Pc κ)
  /-- Only data of its own changes. -/
  | goto (pc : Pc κ)
deriving DecidableEq

variable {κ : Type}

/-- `NO_BUCKETS`. -/
def noBuckets (h : Hashtbl κ) : ℕ := 1 <<< h.keyBits

/-- `get_bucket`. -/
def getBucket (h : Hashtbl κ) (key : κ) : ℕ := h.hash key &&& (0xffffffff >>> (32 - h.keyBits))

/-- `hashtbl_init_default`; before that `h` is zero. -/
def hashtblInitDefault (h : Hashtbl κ) : System κ where
  mutexes
    | .count => .unlocked
    | .uniq bucket | .ptr (.bucket bucket) => if bucket < h.noBuckets then .unlocked else .uninitialized
    | .ptr (.elt _) | .data _ => .uninitialized

/-- The pointer that `hashtbl_delete_element` changes. -/
def Deleter.eltp : Deleter κ → Cell κ
  | .bykey eltp => eltp
  | .empty bucket => .bucket bucket

variable [DecidableEq κ]

/-- `compare_key` and `compare_true`. -/
def Seek.compare : Seek κ → Elt κ → Bool
  | .find key, elt | .delete key, elt => key = elt.key
  | .unique elt2, elt => elt2.key = elt.key
  | .next, _ => true

section

variable (h : Hashtbl κ)

/-- The thread returns from a search that found nothing in a bucket. -/
def notFound (bucket : ℕ) : Seek κ → Pc κ
  | .find _ | .delete _ => .idle
  | .unique elt => .addInitPtr elt
  | .next => .findInBucket .next (bucket + 1)

/-- What the thread does next. -/
def code (s : System κ) : Pc κ → Except Failure (Instr κ)
  | .idle => return .goto .idle
  | .handed elt => return .goto (.handed elt)
  | .unlockElement elt => return .unlock (.data elt) .idle
  | .findInBucket .next bucket =>
    -- the loop of `hashtbl_find_elementp_from_bucket`
    if bucket < h.noBuckets then
      return .lock (.ptr (.bucket bucket)) (.search .next bucket (.bucket bucket))
    else return .goto .idle
  | .findInBucket seek bucket => do
    check (bucket < h.noBuckets) "bucket >= 0 && bucket < NO_BUCKETS"
    return .lock (.ptr (.bucket bucket)) (.search seek bucket (.bucket bucket))
  | .search seek bucket eltp =>
    match s.next eltp with
    | none => return .goto (.missed seek bucket eltp)
    | some elt => return .goto (if seek.compare elt then .found seek bucket eltp elt else .advance seek bucket eltp elt)
  | .found (.delete _) _ eltp elt => return .lock (.data elt) (.deleteCount eltp elt)
  | .found seek bucket eltp elt => return .lock (.data elt) (.unlockLast seek bucket eltp elt)
  | .advance seek bucket eltp elt => return .lock (.ptr (.elt elt)) (.advanced seek bucket eltp elt)
  | .advanced seek bucket eltp elt => return .unlock (.ptr eltp) (.search seek bucket (.elt elt))
  | .missed seek bucket eltp => return .unlock (.ptr eltp) (notFound bucket seek)
  | .unlockLast (.unique elt2) _ eltp elt => return .unlock (.ptr eltp) (.duplicate elt2 elt)
  | .unlockLast _ _ eltp elt => return .unlock (.ptr eltp) (.handed elt)
  | .nextPtr elt => return .lock (.ptr (.elt elt)) (.nextData elt)
  | .nextData elt => return .unlock (.data elt) (.search .next (h.getBucket elt.key) (.elt elt))
  | .deleteCount eltp elt => return .lock .count (.deleteDecrement eltp elt)
  | .deleteDecrement eltp elt => do
    check (s.count - 1 ≥ 0) "h->count >= 0"
    return .setCount (s.count - 1) (.deleteUncount eltp elt)
  | .deleteUncount eltp elt => return .unlock .count (.deletePtr (.bykey eltp) elt)
  | .deletePtr deleter elt => return .lock (.ptr (.elt elt)) (.unlink deleter elt)
  | .unlink deleter elt => return .store deleter.eltp (s.next (.elt elt)) (.unlockPtr deleter elt)
  | .unlockPtr deleter elt => return .unlock (.ptr (.elt elt)) (.unlockData deleter elt)
  | .unlockData deleter elt => return .unlock (.data elt) (.destroyPtr deleter elt)
  | .destroyPtr deleter elt => return .destroy (.ptr (.elt elt)) (.destroyData deleter elt)
  | .destroyData (.bykey eltp) elt => return .destroy (.data elt) (.deletedLast eltp elt)
  | .destroyData (.empty bucket) elt => return .destroy (.data elt) (.freeEmptied bucket elt)
  | .deletedLast eltp elt => return .unlock (.ptr eltp) (.freeDeleted elt)
  | .freeDeleted elt => return .free elt .idle
  | .freeEmptied bucket elt => return .free elt (.emptyFirst bucket)
  | .addCount elt => return .lock .count (.addIncrement elt)
  | .addIncrement elt => return .setCount (s.count + 1) (.addUncount elt)
  | .addUncount elt => return .unlock .count (.addUniq elt)
  | .addUniq elt => return .lock (.uniq (h.getBucket elt.key)) (.findInBucket (.unique elt) (h.getBucket elt.key))
  | .duplicate elt elt2 => return .unlock (.data elt2) (.duplicateUniq elt)
  | .duplicateUniq elt => return .unlock (.uniq (h.getBucket elt.key)) (.duplicateCount elt)
  | .duplicateCount elt => return .lock .count (.duplicateDecrement elt)
  | .duplicateDecrement elt => return .setCount (s.count - 1) (.duplicateUncount elt)
  | .duplicateUncount elt => return .unlock .count (.refused elt)
  -- the caller has the element back
  | .refused elt => return .free elt .idle
  | .addInitPtr elt => return .init (.ptr (.elt elt)) (.addInitData elt)
  | .addInitData elt => return .init (.data elt) (.addBucket elt)
  | .addBucket elt => return .lock (.ptr (.bucket (h.getBucket elt.key))) (.addNext elt)
  | .addNext elt => return .store (.elt elt) (s.next (.bucket (h.getBucket elt.key))) (.addFirst elt)
  | .addFirst elt => return .store (.bucket (h.getBucket elt.key)) (some elt) (.addData elt)
  | .addData elt => return .lock (.data elt) (.addUnlockBucket elt)
  | .addUnlockBucket elt => return .unlock (.ptr (.bucket (h.getBucket elt.key))) (.addUnlockUniq elt)
  | .addUnlockUniq elt => return .unlock (.uniq (h.getBucket elt.key)) (.handed elt)
  | .emptyCount => return .lock .count .emptyZero
  | .emptyZero => return .setCount 0 (.emptyBucket 0)
  | .emptyBucket bucket =>
    if bucket < h.noBuckets then return .lock (.ptr (.bucket bucket)) (.emptyFirst bucket)
    else return .unlock .count .idle
  | .emptyFirst bucket =>
    match s.next (.bucket bucket) with
    | none => return .goto (.emptyUnlock bucket)
    | some elt => return .goto (.emptyData bucket elt)
  | .emptyData bucket elt => return .lock (.data elt) (.deletePtr (.empty bucket) elt)
  | .emptyUnlock bucket => return .unlock (.ptr (.bucket bucket)) (.emptyBucket (bucket + 1))
  | .getCount => return .lock .count .readCount
  | .readCount => return .goto (.gotCount s.count)
  | .gotCount _ => return .unlock .count .idle

/-- The mutex that a thread is about to lock. -/
def wanted (s : System κ) (t : ℕ) : Option (Mutex κ) :=
  match code h s (s.pc t) with
  | .ok (.lock mutex _) => some mutex
  | _ => none

end

/-- A thread goes on. -/
def System.move (s : System κ) (t : ℕ) (pc : Pc κ) : System κ := { s with pc := Function.update s.pc t pc }

def System.setMutex (s : System κ) (mutex : Mutex κ) (state : MutexState) : System κ :=
  { s with mutexes := Function.update s.mutexes mutex state }

/-- A thread executes an instruction. The mutexes are those of `pthd.c`, which check for errors. -/
def exec (s : System κ) (t : ℕ) : Instr κ → Except Failure (System κ)
  | .lock mutex pc =>
    match s.mutexes mutex with
    | .uninitialized => .error (.fatal "trying to lock uninitialized mutex")
    | .locked _ => .error (.fatal "trying to doubly lock an own mutex") -- a thread that waits takes no steps
    | .unlocked => return (s.setMutex mutex (.locked t)).move t pc
  | .unlock mutex pc =>
    match s.mutexes mutex with
    | .uninitialized => .error (.fatal "trying to unlock uninitialized mutex")
    | .unlocked => .error (.fatal "trying to unlock mutex we do not own")
    | .locked owner =>
      if owner = t then return (s.setMutex mutex .unlocked).move t pc
      else .error (.fatal "trying to unlock mutex we do not own")
  | .init mutex pc => return (s.setMutex mutex .unlocked).move t pc
  | .destroy mutex pc =>
    match s.mutexes mutex with
    | .uninitialized => .error (.fatal "unknown error trying to destroy mutex")
    | .locked _ => .error (.fatal "trying to destroy locked mutex")
    | .unlocked => return (s.setMutex mutex .uninitialized).move t pc
  | .store eltp elt pc => return { s with next := Function.update s.next eltp elt }.move t pc
  | .setCount count pc => return { s with count }.move t pc
  | .free elt pc => return { s with allocated := Function.update s.allocated elt false }.move t pc
  | .goto pc => return s.move t pc

/-- The functions of the table. -/
inductive Call (κ : Type) where
  | addElement (elt : Elt κ)
  | findElementBykey (key : κ)
  | firstElement
  | nextElementByptr
  | deleteElementBykey (key : κ)
  | empty
  | getCount
  | unlockElementByptr
deriving DecidableEq

/-- A thread that was handed an element goes to the next one or unlocks it, before it does something else. -/
def Pc.admits : Pc κ → Call κ → Bool
  | .idle, .nextElementByptr | .idle, .unlockElementByptr => false
  | .idle, _ => true
  | .handed _, .nextElementByptr | .handed _, .unlockElementByptr => true
  | _, _ => false

/-- Where a thread is that was at `pc` and called a function. -/
def Call.entry (h : Hashtbl κ) (pc : Pc κ) : Call κ → Pc κ
  | .addElement elt => .addCount elt
  | .findElementBykey key => .findInBucket (.find key) (h.getBucket key)
  | .firstElement => .findInBucket .next 0
  | .deleteElementBykey key => .findInBucket (.delete key) (h.getBucket key)
  | .empty => .emptyCount
  | .getCount => .getCount
  | .nextElementByptr =>
    match pc with
    | .handed elt => .nextPtr elt
    | pc => pc
  | .unlockElementByptr =>
    match pc with
    | .handed elt => .unlockElement elt
    | pc => pc

/-- The element that is added was allocated for it. -/
def Call.allocate (allocated : Elt κ → Bool) : Call κ → Elt κ → Bool
  | .addElement elt => Function.update allocated elt true
  | _ => allocated

/-- A thread calls a function, or it does what it does next. -/
inductive Action (κ : Type) where
  | call (thread : ℕ) (call : Call κ)
  | step (thread : ℕ)
deriving DecidableEq

/-- The mutex is held by another thread. -/
def System.heldByOther (s : System κ) (t : ℕ) (mutex : Mutex κ) : Bool :=
  match s.mutexes mutex with
  | .locked owner => owner ≠ t
  | _ => false

/-- A thread that wants a mutex of another thread waits. Elements that are added are new. -/
def enabled (h : Hashtbl κ) (s : System κ) : Action κ → Bool
  | .call t (.addElement elt) => (s.pc t).admits (.addElement elt) && !s.allocated elt
  | .call t call => (s.pc t).admits call
  | .step t => (wanted h s t).all fun mutex => !s.heldByOther t mutex

/-- The state after an action. -/
def step (h : Hashtbl κ) (s : System κ) : Action κ → Except Failure (System κ)
  | .call t call => return { s with allocated := call.allocate s.allocated }.move t (call.entry h (s.pc t))
  | .step t => do
    let instr ← code h s (s.pc t)
    exec s t instr

/-- The threads that use a table. -/
def threads (h : Hashtbl κ) : StepSystem (System κ) (Action κ) Failure where
  start := hashtblInitDefault h
  enabled s action := enabled h s action
  step := step h

end Hashtbl

end Scubed3
