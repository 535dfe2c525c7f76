import Scubed3.Hashtbl.Locking
import Scubed3.ToMathlib.Linearizable

/-! # The table as an atomic object

Whatever the threads do at the same time, adding an element, finding one and deleting one take effect at one moment between
the call and the return. An element is added when the pointer of the bucket is set to it, and deleted when it is unlinked. A
search by key that finds nothing took place at a moment when no element had the key: at the end of the list, or just before
such an element was added behind the back of the search. `hashtbl_empty` deletes one element after the other, a traversal
visits elements that are in the table at that moment, and nothing is said about the count, in which elements are counted
before it is known whether they are unique.
-/

namespace Scubed3.Hashtbl

open LinkedCells AtomicObject

variable {κ : Type}

/-- What the functions return. -/
inductive Answer (κ : Type) where
  | elt (elt : Option (Elt κ))
  | count (count : ℤ)
  | done

/-- The functions that go from element to element. -/
inductive Call.Walks : Call κ → Prop
  | first : Walks .firstElement
  | next : Walks .nextElementByptr

/-- What the functions do to the elements in the table. -/
inductive Effect : Call κ → Set (Elt κ) → Answer κ → Set (Elt κ) → Prop
  | added {table : Set (Elt κ)} {elt : Elt κ} (new : ∀ elt2 ∈ table, elt2.key ≠ elt.key) :
      Effect (.addElement elt) table (.elt (some elt)) (insert elt table)
  | refused {table : Set (Elt κ)} {elt elt2 : Elt κ} (mem : elt2 ∈ table) (same : elt2.key = elt.key) :
      Effect (.addElement elt) table (.elt none) table
  | found {table : Set (Elt κ)} {elt : Elt κ} (mem : elt ∈ table) :
      Effect (.findElementBykey elt.key) table (.elt (some elt)) table
  | missed {table : Set (Elt κ)} {key : κ} (absent : ∀ elt ∈ table, elt.key ≠ key) :
      Effect (.findElementBykey key) table (.elt none) table
  | deleted {table : Set (Elt κ)} {key : κ} : Effect (.deleteElementBykey key) table .done { elt ∈ table | elt.key ≠ key }
  | visited {table : Set (Elt κ)} {call : Call κ} {elt : Elt κ} (walks : call.Walks) (mem : elt ∈ table) :
      Effect call table (.elt (some elt)) table
  | visitedAll {table : Set (Elt κ)} {call : Call κ} (walks : call.Walks) : Effect call table (.elt none) table
  | emptied {table : Set (Elt κ)} : Effect .empty table .done table
  | counted {table : Set (Elt κ)} {count : ℤ} : Effect .getCount table (.count count) table
  | unlocked {table : Set (Elt κ)} : Effect .unlockElementByptr table .done table

/-- An element that `hashtbl_empty` deletes. -/
inductive Part : Call κ → Set (Elt κ) → Set (Elt κ) → Prop
  | emptied {table : Set (Elt κ)} {elt : Elt κ} (mem : elt ∈ table) : Part .empty table (table \ {elt})

/-- A table whose functions are executed at once. -/
def atomicTable (κ : Type) : AtomicObject (Set (Elt κ)) (Call κ) (Answer κ) where
  start := ∅
  effect := Effect
  part := Part

/-- The elements in the table. -/
def contents (h : Hashtbl κ) (s : System κ) : Set (Elt κ) := { elt | IsLinked h s.next elt }

/-- What a thread returns when it leaves a point. -/
def answer (h : Hashtbl κ) : Pc κ → Option (Answer κ)
  | .unlockElement _ | .freeDeleted _ | .missed (.delete _) _ _ => some .done
  | .missed (.find _) _ _ | .refused _ => some (.elt none)
  | .unlockLast (.unique _) _ _ _ => none
  | .unlockLast _ _ _ elt | .addUnlockUniq elt => some (.elt (some elt))
  | .findInBucket .next bucket => if bucket < h.noBuckets then none else some (.elt none)
  | .emptyBucket bucket => if bucket < h.noBuckets then none else some .done
  | .gotCount count => some (.count count)
  | _ => none

/-- The caller is not in a function of the table. -/
def Pc.rests : Pc κ → Bool
  | .idle | .handed _ => true
  | _ => false

/-- What is seen of a step. -/
def observe (h : Hashtbl κ) (s : System κ) : Action κ → Option (Event ℕ (Call κ) (Answer κ))
  | .call t call => some (.call t call)
  | .step t => (answer h (s.pc t)).map (.answer t)

/-! ## How far a call is -/

/-- A search by key, for which function, and what that returns if there is no such element. -/
inductive Seek.Looks : Seek κ → Call κ → Answer κ → κ → Prop
  | find {key : κ} : Looks (.find key) (.findElementBykey key) (.elt none) key
  | delete {key : κ} : Looks (.delete key) (.deleteElementBykey key) .done key

inductive Seek.Starts (h : Hashtbl κ) (bucket : ℕ) : Seek κ → Progress (Call κ) (Answer κ) → Prop
  | unique {elt : Elt κ} : Starts h bucket (.unique elt) (.pending (.addElement elt))
  | next {call : Call κ} (walks : call.Walks) : Starts h bucket .next (.pending call)
  | looks {seek : Seek κ} {call : Call κ} {missing : Answer κ} {key : κ} (looks : seek.Looks call missing key)
      (here : bucket = h.getBucket key) : Starts h bucket seek (.pending call)

/-- A search came to a pointer. Either the elements with the key are further on, or there was a moment without such an
element and there is none further on. -/
inductive Seek.Continues (h : Hashtbl κ) (next : Cell κ → Option (Elt κ)) (eltp : Cell κ) :
    Seek κ → Progress (Call κ) (Answer κ) → Prop
  | unique {elt : Elt κ} : Continues h next eltp (.unique elt) (.pending (.addElement elt))
  | next {call : Call κ} (walks : call.Walks) : Continues h next eltp .next (.pending call)
  | ahead {seek : Seek κ} {call : Call κ} {missing : Answer κ} {key : κ} (looks : seek.Looks call missing key)
      (ahead : ∀ elt, IsLinked h next elt → elt.key = key → Reach .elt next eltp elt) :
      Continues h next eltp seek (.pending call)
  | beyond {seek : Seek κ} {call : Call κ} {missing : Answer κ} {key : κ} (looks : seek.Looks call missing key)
      (beyond : ∀ elt, Reach .elt next eltp elt → elt.key ≠ key) : Continues h next eltp seek (.done missing)

inductive Seek.Misses : Seek κ → Progress (Call κ) (Answer κ) → Prop
  | unique {elt : Elt κ} : Misses (.unique elt) (.pending (.addElement elt))
  | next {call : Call κ} (walks : call.Walks) : Misses .next (.pending call)
  | looks {seek : Seek κ} {call : Call κ} {missing : Answer κ} {key : κ} (looks : seek.Looks call missing key) :
      Misses seek (.done missing)

inductive Seek.Finds (elt : Elt κ) : Seek κ → Progress (Call κ) (Answer κ) → Prop
  | unique {elt2 : Elt κ} : Finds elt (.unique elt2) (.done (.elt none))
  | next : Finds elt .next (.done (.elt (some elt)))
  | find {key : κ} : Finds elt (.find key) (.done (.elt (some elt)))

/-- Before the element is unlinked. -/
def Deleter.before (elt : Elt κ) : Deleter κ → Progress (Call κ) (Answer κ)
  | .bykey _ => .pending (.deleteElementBykey elt.key)
  | .empty _ => .pending .empty

def Deleter.after : Deleter κ → Progress (Call κ) (Answer κ)
  | .bykey _ => .done .done
  | .empty _ => .pending .empty

/-- How far the call of a thread is, at a point. -/
def Fits (h : Hashtbl κ) (next : Cell κ → Option (Elt κ)) : Pc κ → Progress (Call κ) (Answer κ) → Prop
  | .idle, p | .handed _, p => p = .idle
  | .unlockElement _, p => p = .pending .unlockElementByptr
  | .findInBucket seek bucket, p => seek.Starts h bucket p
  | .search seek _ eltp, p | .advance seek _ eltp _, p | .advanced seek _ eltp _, p => seek.Continues h next eltp p
  | .missed seek _ _, p => seek.Misses p
  | .found (.delete _) _ _ elt, p => p = .pending (.deleteElementBykey elt.key)
  | .found seek _ _ elt, p | .unlockLast seek _ _ elt, p => seek.Finds elt p
  | .nextPtr _, p | .nextData _, p => p = .pending .nextElementByptr
  | .deleteCount _ elt, p | .deleteDecrement _ elt, p | .deleteUncount _ elt, p => p = .pending (.deleteElementBykey elt.key)
  | .deletePtr deleter elt, p | .unlink deleter elt, p => p = deleter.before elt
  | .unlockPtr deleter _, p | .unlockData deleter _, p | .destroyPtr deleter _, p | .destroyData deleter _, p =>
    p = deleter.after
  | .deletedLast _ _, p | .freeDeleted _, p => p = .done .done
  | .freeEmptied _ _, p | .emptyCount, p | .emptyZero, p | .emptyBucket _, p | .emptyFirst _, p | .emptyData _ _, p
  | .emptyUnlock _, p => p = .pending .empty
  | .addCount elt, p | .addIncrement elt, p | .addUncount elt, p | .addUniq elt, p | .addInitPtr elt, p
  | .addInitData elt, p | .addBucket elt, p | .addNext elt, p | .addFirst elt, p => p = .pending (.addElement elt)
  | .duplicate _ _, p | .duplicateUniq _, p | .duplicateCount _, p | .duplicateDecrement _, p | .duplicateUncount _, p
  | .refused _, p => p = .done (.elt none)
  | .addData elt, p | .addUnlockBucket elt, p | .addUnlockUniq elt, p => p = .done (.elt (some elt))
  | .getCount, p | .readCount, p | .gotCount _, p => p = .pending .getCount

variable {h : Hashtbl κ} {s s' : System κ} {next next' : Cell κ → Option (Elt κ)} {chain : ℕ → List (Elt κ)} {pc : Pc κ}
  {elt elt2 : Elt κ} {key : κ} {bucket : ℕ} {eltp : Cell κ} {seek : Seek κ} {call : Call κ} {table : Set (Elt κ)}
  {missing : Answer κ} {p : Progress (Call κ) (Answer κ)} {instr : Instr κ}

theorem Seek.Looks.effect (looks : seek.Looks call missing key) (absent : ∀ elt ∈ table, elt.key ≠ key) :
    Effect call table missing table := by
  cases looks with
  | find => exact .missed absent
  | delete =>
    have same : { elt ∈ table | elt.key ≠ key } = table := Set.sep_eq_self_iff_mem_true.mpr absent
    have deleted : Effect (.deleteElementBykey key) table .done { elt ∈ table | elt.key ≠ key } := .deleted
    rwa [same] at deleted

variable [DecidableEq κ]

/-- A function returns when the thread goes back to its caller. -/
theorem answer_isSome (ran : code h s pc = .ok instr) : (answer h pc).isSome = (!pc.rests && instr.after.rests) := by
  cases pc with
  | findInBucket seek bucket =>
    cases seek with
    | next =>
      rw [code] at ran
      rw [answer]
      split at ran
      · next small =>
        cases ran
        rw [if_pos small]
        rfl
      · next last =>
        cases ran
        rw [if_neg last]
        rfl
    | _ => rcases code_findInBucket h ran with ⟨-, rfl⟩ | ⟨same, -⟩ <;> first | rfl | cases same
  | search => rcases code_search h ran with ⟨-, rfl⟩ | ⟨_, -, ⟨-, rfl⟩ | ⟨-, rfl⟩⟩ <;> rfl
  | found seek => cases seek <;> (cases ran; rfl)
  | missed seek => cases seek <;> (cases ran; rfl)
  | unlockLast seek => cases seek <;> (cases ran; rfl)
  | deleteDecrement => rw [code_deleteDecrement h ran]; rfl
  | destroyData deleter => cases deleter <;> (cases ran; rfl)
  | emptyBucket bucket =>
    rw [code] at ran
    rw [answer]
    split at ran
    · next small =>
      cases ran
      rw [if_pos small]
      rfl
    · next last =>
      cases ran
      rw [if_neg last]
      rfl
  | emptyFirst => rcases code_emptyFirst h ran with ⟨-, rfl⟩ | ⟨_, -, rfl⟩ <;> rfl
  | _ => cases ran; rfl

/-! ## Steps that change no pointer -/

theorem Seek.Looks.compare (looks : seek.Looks call missing key) : seek.compare elt = true ↔ elt.key = key := by
  cases looks <;> exact decide_eq_true_iff.trans eq_comm

omit [DecidableEq κ] in
/-- What a pointer of a bucket points to is further on. -/
theorem Chains.reach_pointee (chains : Chains h next chain) (inBucket : InBucket next bucket eltp)
    (points : next eltp = some elt) : Reach .elt next eltp elt := by
  obtain ⟨after, linked, -⟩ := (chains.linked _).suffix (chains.inBucket_iff.mp inBucket)
  cases after with
  | nil => exact absurd (linked.symm.trans points) nofun
  | cons elt2 after =>
    obtain rfl := Option.some.inj (linked.1.symm.trans points)
    exact ⟨_, linked, List.mem_cons_self⟩

omit [DecidableEq κ] in
/-- A search starts at a bucket. -/
theorem Seek.Starts.continues (starts : seek.Starts h bucket p) : seek.Continues h next (.bucket bucket) p := by
  cases starts with
  | unique => exact .unique
  | next walks => exact .next walks
  | looks looks here =>
    refine .ahead looks fun elt linked same => ?_
    rwa [here, ← same]

omit [DecidableEq κ] in
/-- At the end of a list there is nothing further on. -/
theorem Seek.Continues.misses (continues : seek.Continues h next eltp p) (last : next eltp = none) :
    ∃ p', Moves (atomicTable κ) { elt | IsLinked h next elt } p none p' ∧ seek.Misses p' := by
  cases continues with
  | unique => exact ⟨_, .stay, .unique⟩
  | next walks => exact ⟨_, .stay, .next walks⟩
  | ahead looks ahead =>
    exact ⟨_, .read (looks.effect fun elt linked same => (ahead elt linked same).next_ne_none last), .looks looks⟩
  | beyond looks => exact ⟨_, .stay, .looks looks⟩

theorem Seek.Continues.finds (continues : seek.Continues h next eltp p)
    (linked : IsLinked h next elt) (reach : Reach .elt next eltp elt) (same : seek.compare elt = true) (bucket : ℕ) :
    ∃ p', Moves (atomicTable κ) { elt | IsLinked h next elt } p none p' ∧ Fits h next (.found seek bucket eltp elt) p' := by
  cases continues with
  | unique => exact ⟨_, .read (.refused linked (of_decide_eq_true same).symm), .unique⟩
  | next walks => exact ⟨_, .read (.visited walks linked), .next⟩
  | ahead looks =>
    obtain rfl := looks.compare.mp same
    cases looks with
    | find => exact ⟨_, .read (.found linked), .find⟩
    | delete => exact ⟨_, .stay, rfl⟩
  | beyond looks beyond => exact absurd (looks.compare.mp same) (beyond elt reach)

/-- A search goes on behind an element with another key. -/
theorem Seek.Continues.advance (continues : seek.Continues h next eltp p) (points : next eltp = some elt)
    (other : seek.compare elt = false) : seek.Continues h next (.elt elt) p := by
  cases continues with
  | unique => exact .unique
  | next walks => exact .next walks
  | ahead looks ahead =>
    refine .ahead looks fun elt2 linked same => ?_
    rcases (ahead elt2 linked same).tail_of_next points with rfl | further
    · exact absurd (looks.compare.mpr same) (by simp [other])
    · exact further
  | beyond looks beyond => exact .beyond looks fun elt2 reach => beyond elt2 (reach.cons points)

/-- What a step that changes no pointer is in the atomic table. -/
theorem Fits.moves (chains : Chains h s.next chain) (knows : Knows h s.next pc) (fits : Fits h s.next pc p)
    (ran : code h s pc = .ok instr) (stays : ∀ eltp elt pc', instr ≠ .store eltp elt pc') :
    ∃ p', Moves (atomicTable κ) { elt | IsLinked h s.next elt } p (answer h pc) p' ∧ Fits h s.next instr.after p' := by
  cases pc with
  | unlockElement => cases fits; cases ran; exact ⟨_, .finish .unlocked, rfl⟩
  | findInBucket seek bucket =>
    rcases code_findInBucket h ran with ⟨small, rfl⟩ | ⟨rfl, rfl⟩
    · have goesOn : answer h (.findInBucket seek bucket) = none := by
        cases seek with
        | next => exact if_pos small
        | _ => rfl
      rw [goesOn]
      exact ⟨_, .stay, Seek.Starts.continues fits⟩
    · have last : answer h (.findInBucket (.next : Seek κ) bucket) = some (.elt none) := by
        refine if_neg fun small => ?_
        rw [code, if_pos small] at ran
        cases ran
      obtain ⟨walks⟩ | walks | ⟨⟨⟩⟩ := fits
      rw [last]
      exact ⟨_, .finish (.visitedAll walks), rfl⟩
  | search seek bucket eltp =>
    rcases code_search h ran with ⟨last, rfl⟩ | ⟨elt, points, ⟨same, rfl⟩ | ⟨-, rfl⟩⟩
    · exact Seek.Continues.misses fits last
    · exact Seek.Continues.finds fits (chains.isLinked_of_next knows.inBucket points).2
        (chains.reach_pointee knows.inBucket points) same bucket
    · exact ⟨_, .stay, fits⟩
  | found seek =>
    cases seek <;> (cases ran; exact ⟨_, .stay, fits⟩)
  | advanced =>
    cases ran
    exact ⟨_, .stay, Seek.Continues.advance fits knows.2.1 knows.2.2⟩
  | missed seek =>
    cases fits with
    | unique => cases ran; exact ⟨_, .stay, rfl⟩
    | next walks => cases ran; exact ⟨_, .stay, .next walks⟩
    | looks looks => cases looks <;> (cases ran; exact ⟨_, .answer, rfl⟩)
  | unlockLast seek =>
    cases fits with
    | unique => cases ran; exact ⟨_, .stay, rfl⟩
    | next | find => cases ran; exact ⟨_, .answer, rfl⟩
  | nextData =>
    cases fits
    cases ran
    exact ⟨_, .stay, .next .next⟩
  | deleteDecrement =>
    rw [code_deleteDecrement h ran]
    exact ⟨_, .stay, fits⟩
  | destroyData deleter => cases deleter <;> (cases ran; exact ⟨_, .stay, fits⟩)
  | freeDeleted | refused | addUnlockUniq =>
    cases fits
    cases ran
    exact ⟨_, .answer, rfl⟩
  | emptyBucket bucket =>
    cases fits
    rw [answer]
    rw [code] at ran
    split at ran
    · next small =>
      cases ran
      rw [if_pos small]
      exact ⟨_, .stay, rfl⟩
    · next last =>
      cases ran
      rw [if_neg last]
      exact ⟨_, .finish .emptied, rfl⟩
  | emptyFirst =>
    rcases code_emptyFirst h ran with ⟨-, rfl⟩ | ⟨_, -, rfl⟩ <;> exact ⟨_, .stay, fits⟩
  | gotCount =>
    cases fits
    cases ran
    exact ⟨_, .finish .counted, rfl⟩
  | addUniq =>
    cases fits
    cases ran
    exact ⟨_, .stay, .unique⟩
  | addNext | addFirst | unlink =>
    cases ran
    exact absurd rfl (stays _ _ _)
  | _ =>
    cases ran
    exact ⟨_, .stay, fits⟩

/-! ## Steps that change a pointer -/

/-- Only a search depends on the pointers, and it holds the mutex of one of them. -/
theorem Fits.frame (related : Progress (Call κ) (Answer κ) → Progress (Call κ) (Answer κ) → Prop) (refl : ∀ p, related p p)
    (knows : Knows h next pc) (fits : Fits h next pc p)
    (keeps : ∀ bucket eltp (seek : Seek κ), .ptr eltp ∈ held h pc → InBucket next bucket eltp → seek.Continues h next eltp p →
      ∃ p', related p p' ∧ seek.Continues h next' eltp p') : ∃ p', related p p' ∧ Fits h next' pc p' := by
  cases pc with
  | search seek bucket eltp => exact keeps bucket eltp seek List.mem_cons_self knows.inBucket fits
  | advance seek bucket eltp => exact keeps bucket eltp seek List.mem_cons_self knows.1.inBucket fits
  | advanced seek bucket eltp =>
    exact keeps bucket eltp seek (List.mem_cons_of_mem _ List.mem_cons_self) knows.1.inBucket fits
  | found seek => cases seek <;> exact ⟨p, refl p, fits⟩
  | _ => exact ⟨p, refl p, fits⟩

omit [DecidableEq κ] in
/-- Nothing changes for a search if the same elements are in the table and further on. -/
theorem Seek.Continues.congr (continues : seek.Continues h next eltp p)
    (linked : ∀ elt, IsLinked h next' elt → IsLinked h next elt)
    (further : ∀ elt, IsLinked h next' elt → Reach .elt next eltp elt → Reach .elt next' eltp elt)
    (beyond : ∀ elt, Reach .elt next' eltp elt → Reach .elt next eltp elt) : seek.Continues h next' eltp p := by
  cases continues with
  | unique => exact .unique
  | next walks => exact .next walks
  | ahead looks ahead =>
    exact .ahead looks fun elt isLinked same => further elt isLinked (ahead elt (linked elt isLinked) same)
  | beyond looks absent => exact .beyond looks fun elt reach => absent elt (beyond elt reach)

section

variable (chains : Chains h next chain)

include chains

/-- An element that is not linked gets a successor. -/
theorem Chains.continues_prepare {elt' : Option (Elt κ)} (unlinked : ¬ IsLinked h next elt) (inBucket : InBucket next bucket eltp)
    (continues : seek.Continues h next eltp p) : seek.Continues h (Function.update next (.elt elt) elt') eltp p := by
  have chains' : Chains h (Function.update next (.elt elt) elt') chain := chains.prepare unlinked
  have same (bucket : ℕ) (eltp : Cell κ) (on : InBucket next bucket eltp) :
      Function.update next (.elt elt) elt' eltp = next eltp := chains.outside unlinked on
  have still : InBucket (Function.update next (.elt elt) elt') bucket eltp :=
    chains'.inBucket_iff.mpr (chains.inBucket_iff.mp inBucket)
  refine continues.congr (fun elt2 => (chains.reach_prepare_iff unlinked).mp) (fun elt2 _ reach => ?_) fun elt2 reach => ?_
  · exact chains.reach_frame inBucket reach (same bucket)
  · refine chains'.reach_frame still reach fun eltp' on => (same bucket eltp' ?_).symm
    exact chains.inBucket_iff.mpr (chains'.inBucket_iff.mp on)

/-- An element is unlinked that is behind other pointers. -/
theorem Chains.continues_remove {eltp' : Cell κ} (pointsTo : PointsTo h next eltp' elt) (inBucket : InBucket next bucket eltp)
    (continues : seek.Continues h next eltp p) : seek.Continues h (Function.update next eltp' (next (.elt elt))) eltp p := by
  refine continues.congr (fun elt2 linked => ((chains.reach_remove_iff pointsTo).mp linked).1) (fun elt2 linked reach => ?_)
    fun elt2 reach => ?_
  · exact chains.reach_remove pointsTo inBucket reach ((chains.reach_remove_iff pointsTo).mp linked).2
  · obtain ⟨after, linked, -⟩ := (chains.linked bucket).suffix (chains.inBucket_iff.mp inBucket)
    have mem := (chains.linked_remove pointsTo inBucket linked).reach_iff.mp reach
    exact linked.reach_iff.mpr (List.mem_of_mem_filter mem)

/-- An element becomes the first one of a bucket. A search for its key that is already in the bucket finds nothing. -/
theorem Chains.continues_insert (absent : Absent h next elt.key)
    (ready : next (.elt elt) = next (.bucket (h.getBucket elt.key))) (other : eltp ≠ .bucket (h.getBucket elt.key))
    (inBucket : InBucket next bucket eltp) (continues : seek.Continues h next eltp p) :
    ∃ p', Reads (atomicTable κ) { elt | IsLinked h next elt } p p' ∧
      seek.Continues h (Function.update next (.bucket (h.getBucket elt.key)) (some elt)) eltp p' := by
  obtain ⟨after, linked, part⟩ := (chains.linked bucket).suffix (chains.inBucket_iff.mp inBucket)
  have linked' : Linked .elt (Function.update next (.bucket (h.getBucket elt.key)) (some elt)) eltp after := by
    refine linked.frame fun eltp' on => Function.update_of_ne ?_ _ _
    rcases on with rfl | ⟨_, _, rfl⟩
    · exact other
    · nofun
  have further (elt2 : Elt κ) : Reach .elt (Function.update next (.bucket (h.getBucket elt.key)) (some elt)) eltp elt2 ↔
      Reach .elt next eltp elt2 := linked'.reach_iff.trans linked.reach_iff.symm
  cases continues with
  | unique => exact ⟨_, .inl rfl, .unique⟩
  | next walks => exact ⟨_, .inl rfl, .next walks⟩
  | beyond looks beyond => exact ⟨_, .inl rfl, .beyond looks fun elt2 reach => beyond elt2 ((further elt2).mp reach)⟩
  | @ahead _ call missing key looks ahead =>
    by_cases same : elt.key = key
    · subst same
      have none (elt2 : Elt κ) (isLinked : IsLinked h next elt2) : elt2.key ≠ elt.key := fun equal =>
        absent elt2 (equal ▸ isLinked) equal
      refine ⟨_, .inr ⟨call, missing, rfl, rfl, looks.effect none⟩, .beyond looks fun elt2 reach => ?_⟩
      exact none elt2 (chains.isLinked (chains.reach_bucket inBucket ((further elt2).mp reach))).2
    · refine ⟨_, .inl rfl, .ahead looks fun elt2 isLinked equal => (further elt2).mpr ?_⟩
      rcases (chains.reach_insert_iff absent ready).mp isLinked with before | ⟨rfl, -⟩
      · exact ahead elt2 before equal
      · exact absurd equal same

end

/-! ## Every step -/

/-- The calls of the threads. -/
def AllFit (h : Hashtbl κ) (s : System κ) (progress : ℕ → Progress (Call κ) (Answer κ)) : Prop :=
  ∀ t, Fits h s.next (s.pc t) (progress t)

variable {progress progress' : ℕ → Progress (Call κ) (Answer κ)} {t : ℕ}

omit [DecidableEq κ] in
/-- One thread goes on, and the others stay where they are. -/
theorem AllFit.update (moved : s'.pc = Function.update s.pc t pc) (others : ∀ u, u ≠ t → Fits h s'.next (s.pc u) (progress u))
    (fits : Fits h s'.next pc p) : AllFit h s' (Function.update progress t p) := by
  intro u
  rw [moved]
  by_cases here : u = t
  · rw [here, Function.update_self, Function.update_self]
    exact fits
  · rw [Function.update_of_ne here, Function.update_of_ne here]
    exact others u here

/-- A thread calls a function. -/
theorem AllFit.calls (fits : AllFit h s progress) (call : Call κ) (enabled : enabled h s (.call t call) = true)
    (ran : step h s (.call t call) = .ok s') : AllFit h s' (Function.update progress t (.pending call)) ∧
      Steps (atomicTable κ) ⟨contents h s, progress⟩ [.call t call] ⟨contents h s', Function.update progress t (.pending call)⟩ := by
  cases ran
  have admits := admits_of_enabled enabled
  have here := fits t
  rcases Pc.admits_cases admits with idle | ⟨elt, handed, rfl | rfl⟩
  · rw [idle] at here admits
    refine ⟨AllFit.update rfl (fun u _ => fits u) ?_, (Step.call here).steps⟩
    rw [idle]
    cases call with
    | nextElementByptr | unlockElementByptr => cases admits
    | addElement | empty | getCount => rfl
    | findElementBykey => exact .looks .find rfl
    | deleteElementBykey => exact .looks .delete rfl
    | firstElement => exact .next .first
  all_goals
    rw [handed] at here
    refine ⟨AllFit.update rfl (fun u _ => fits u) ?_, (Step.call here).steps⟩
    rw [handed]
    rfl

theorem AllFit.addNext (inv : Invariant h s) (fits : AllFit h s progress) (here : s.pc t = .addNext elt)
    (elt' : Option (Elt κ)) (moved : s'.pc = Function.update s.pc t (.addFirst elt))
    (stored : s'.next = Function.update s.next (.elt elt) elt') : AllFit h s' progress ∧ contents h s' = contents h s := by
  obtain ⟨chain, chains⟩ := inv.chains
  obtain ⟨unlinked, -⟩ := inv.apart t elt (by rw [here]; rfl)
  have mine := fits t
  rw [here] at mine
  constructor
  · rw [← Function.update_eq_self t progress]
    refine AllFit.update moved (fun u _ => ?_) mine
    obtain ⟨p', rfl, fits'⟩ := Fits.frame Eq (fun _ => rfl) (inv.knows u) (fits u)
      fun bucket eltp seek _ inBucket continues => ⟨_, rfl, chains.continues_prepare unlinked inBucket continues⟩
    rw [stored]
    exact fits'
  · unfold contents
    rw [stored]
    exact Set.ext fun elt2 => chains.reach_prepare_iff unlinked

theorem AllFit.addFirst (inv : Invariant h s) (fits : AllFit h s progress) (here : s.pc t = .addFirst elt)
    (moved : s'.pc = Function.update s.pc t (.addData elt))
    (stored : s'.next = Function.update s.next (.bucket (h.getBucket elt.key)) (some elt)) :
    ∃ progress', AllFit h s' progress' ∧ Steps (atomicTable κ) ⟨contents h s, progress⟩ [] ⟨contents h s', progress'⟩ := by
  obtain ⟨chain, chains⟩ := inv.chains
  obtain ⟨absent, ready⟩ := inv.knows_at here
  have holds : .ptr (.bucket (h.getBucket elt.key)) ∈ held h (s.pc t) := by
    rw [here]
    exact List.mem_cons_self
  have mine : progress t = .pending (.addElement elt) := by
    have mine := fits t
    rwa [here] at mine
  have others (u : ℕ) : ∃ p', Reads (atomicTable κ) (contents h s) (progress u) p' ∧
      (u ≠ t → Fits h s'.next (s.pc u) p') ∧ (u = t → p' = progress u) := by
    by_cases same : u = t
    · exact ⟨_, .inl rfl, fun other => absurd same other, fun _ => rfl⟩
    · obtain ⟨p', reads, fits'⟩ := Fits.frame (Reads (atomicTable κ) (contents h s)) (fun _ => .inl rfl) (inv.knows u) (fits u)
        fun bucket eltp seek mem inBucket continues => chains.continues_insert absent ready
          (fun equal => inv.not_held holds same (equal ▸ mem)) inBucket continues
      rw [← stored] at fits'
      exact ⟨p', reads, fun _ => fits', fun equal => absurd equal same⟩
  choose progress' reads fits' kept using others
  have table : contents h s' = insert elt (contents h s) := by
    unfold contents
    rw [stored]
    refine Set.ext fun elt2 => (chains.reach_insert_iff absent ready).trans ?_
    rw [Set.mem_insert_iff, or_comm]
    exact or_congr_left (and_iff_left_of_imp fun same => same ▸ rfl)
  have new : ∀ elt2 ∈ contents h s, elt2.key ≠ elt.key := fun elt2 linked equal =>
    absent elt2 (equal ▸ linked) equal
  refine ⟨Function.update progress' t (.done (.elt (some elt))), AllFit.update moved fits' rfl, ?_⟩
  rw [table]
  exact (Step.reads reads).steps.trans (Step.effect ((kept t rfl).trans mine) (Effect.added new)).steps

theorem AllFit.unlink {deleter : Deleter κ} (inv : Invariant h s) (fits : AllFit h s progress)
    (here : s.pc t = .unlink deleter elt) (moved : s'.pc = Function.update s.pc t (.unlockPtr deleter elt))
    (stored : s'.next = Function.update s.next deleter.eltp (s.next (.elt elt))) :
    ∃ progress', AllFit h s' progress' ∧ Steps (atomicTable κ) ⟨contents h s, progress⟩ [] ⟨contents h s', progress'⟩ := by
  obtain ⟨chain, chains⟩ := inv.chains
  have pointsTo : PointsTo h s.next deleter.eltp elt := inv.knows_at here
  have linked := (chains.isLinked_of_next pointsTo.inBucket pointsTo.points).2
  have mine := fits t
  rw [here] at mine
  have others (u : ℕ) (_ : u ≠ t) : Fits h s'.next (s.pc u) (progress u) := by
    obtain ⟨p', rfl, fits'⟩ := Fits.frame Eq (fun _ => rfl) (inv.knows u) (fits u)
      fun bucket eltp seek _ inBucket continues => ⟨_, rfl, chains.continues_remove pointsTo inBucket continues⟩
    rw [stored]
    exact fits'
  have table : contents h s' = contents h s \ {elt} := by
    unfold contents
    rw [stored]
    exact Set.ext fun elt2 => chains.reach_remove_iff pointsTo
  refine ⟨Function.update progress t deleter.after, AllFit.update moved others rfl, ?_⟩
  cases deleter with
  | bykey eltp =>
    have deleted : contents h s \ {elt} = { elt2 ∈ contents h s | elt2.key ≠ elt.key } := by
      refine Set.ext fun elt2 => and_congr_right fun linked2 => not_congr ⟨fun same => same ▸ rfl, fun same => ?_⟩
      exact chains.eq_of_key linked2 linked same
    rw [table, deleted]
    exact (Step.effect mine Effect.deleted).steps
  | empty bucket =>
    have same : Function.update progress t (.pending .empty) = progress := by
      rw [← show progress t = .pending .empty from mine, Function.update_eq_self]
    rw [table, Deleter.after, same]
    exact (Step.part mine (Part.emptied linked)).steps

/-- Most instructions change no pointer. -/
theorem exec_next (stays : ∀ eltp elt pc, instr ≠ .store eltp elt pc) (done : exec s t instr = .ok s') :
    s'.next = s.next := by
  cases instr with
  | lock | destroy =>
    rw [exec] at done
    split at done <;> cases done
    rfl
  | unlock =>
    rw [exec] at done
    split at done
    · cases done
    · cases done
    · split at done <;> cases done
      rfl
  | store => exact absurd rfl (stays _ _ _)
  | _ => cases done; rfl

/-- A thread goes on. -/
theorem AllFit.goes (inv : Invariant h s) (fits : AllFit h s progress) (ran : code h s (s.pc t) = .ok instr)
    (done : exec s t instr = .ok s') : ∃ progress', AllFit h s' progress' ∧
      Steps (atomicTable κ) ⟨contents h s, progress⟩ (observe h s (.step t)).toList ⟨contents h s', progress'⟩ := by
  have moved := exec_pc done
  by_cases stays : ∀ eltp elt pc, instr ≠ .store eltp elt pc
  · obtain ⟨chain, chains⟩ := inv.chains
    obtain ⟨p', moves, fits'⟩ := (fits t).moves chains (inv.knows t) ran stays
    have same := exec_next stays done
    refine ⟨Function.update progress t p', AllFit.update moved (fun u _ => ?_) ?_, ?_⟩
    · rw [same]
      exact fits u
    · rw [same]
      exact fits'
    · rw [contents, contents, same]
      exact moves.steps
  · push Not at stays
    obtain ⟨eltp, elt', pc, rfl⟩ := stays
    cases done
    rcases code_store ran with ⟨elt, here, rfl, rfl, rfl⟩ | ⟨elt, here, rfl, rfl, rfl⟩ | ⟨deleter, elt, here, rfl, rfl, rfl⟩
    · obtain ⟨fits', same⟩ := fits.addNext inv here _ moved rfl
      refine ⟨progress, fits', ?_⟩
      rw [same, observe, here]
      exact .refl
    · rw [observe, here]
      exact fits.addFirst inv here moved rfl
    · rw [observe, here]
      exact fits.unlink inv here moved rfl

/-- In every run of any number of threads, the functions return what an atomic table returns. -/
theorem hashtbl_linearizable (h : Hashtbl κ) :
    (threads h).Linearizable (observe h) (contents h) (atomicTable κ) := by
  have empty : contents h (hashtblInitDefault h) = ∅ :=
    Set.eq_empty_of_forall_notMem fun elt (linked : IsLinked h _ elt) => linked.next_ne_none rfl
  have idle : AllFit h (hashtblInitDefault h) fun _ => .idle := fun _ => rfl
  refine StepSystem.Linearizable.of_simulation empty idle fun s s' action progress reaches fits enabled ran => ?_
  have inv : Invariant h s :=
    reaches.invariant hashtblInitDefault_invariant fun _ _ _ before enabled _ ran => before.step enabled ran
  cases action with
  | call t call => exact ⟨_, AllFit.calls fits call enabled ran⟩
  | step t =>
    obtain ⟨instr, next, done⟩ := Except.bind_eq_ok_iff.mp ran
    exact AllFit.goes inv fits next done

/-- The element that a caller has is in the table and is not freed. Nobody else has it, and nobody deletes it. -/
theorem handed_element_safe (h : Hashtbl κ) (t : ℕ) (elt : Elt κ) (reaches : (threads h).Reaches (fun _ _ => True) s)
    (handed : s.pc t = .handed elt) : elt ∈ contents h s ∧ s.allocated elt = true ∧ s.mutexes (.data elt) = .locked t ∧
      ∀ u, u ≠ t → s.pc u ≠ .handed elt ∧ (∀ deleter, s.pc u ≠ .unlink deleter elt) ∧ own (s.pc u) ≠ some elt := by
  have inv : Invariant h s :=
    reaches.invariant hashtblInitDefault_invariant fun _ _ _ before enabled _ ran => before.step enabled ran
  have linked : IsLinked h s.next elt := inv.knows_at handed
  have holds : .data elt ∈ held h (s.pc t) := by
    rw [handed]
    exact List.mem_singleton_self _
  refine ⟨linked, inv.allocated elt (.inl linked), (inv.owned.locked_iff _ t).mpr holds, fun u other => ?_⟩
  have unheld := inv.not_held holds other
  refine ⟨fun theirs => unheld ?_, fun deleter theirs => unheld ?_, fun owns => (inv.apart u elt owns).1 linked⟩
  · rw [theirs]
    exact List.mem_singleton_self _
  · rw [theirs]
    exact List.mem_cons_of_mem _ List.mem_cons_self

theorem handed_element_safe_eltP : ∃ s : System (List UInt8), s.pc 0 = .handed eltP ∧ eltP ∈ contents entries s ∧
    s.allocated eltP = true ∧ ∀ u, u ≠ 0 → s.pc u ≠ .handed eltP := by
  have computed : ((threads entries).attempt (enabled entries) (hashtblInitDefault entries)
      (.call 0 (.addElement eltP) :: List.replicate 15 (.step 0))).any (fun s => s.pc 0 = .handed eltP) = true := by
    decide +kernel
  obtain ⟨s, ran, state⟩ := (Option.any_eq_true _ _).mp computed
  have reaches : (threads entries).Reaches (fun _ _ => True) s :=
    StepSystem.Reaches.start.of_attempt (fun _ _ good => ⟨good, True.intro⟩) ran
  have handed := of_decide_eq_true state
  obtain ⟨mem, allocated, -, others⟩ := handed_element_safe entries 0 eltP reaches handed
  exact ⟨s, handed, mem, allocated, fun u other => (others u other).1⟩

end Scubed3.Hashtbl
