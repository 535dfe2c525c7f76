import Scubed3.Hashtbl.Lists
import Mathlib.Data.List.Perm.Basic

/-! # What a thread has at a point

At every point of the functions of the hash table it is clear which mutexes a thread holds (`held`), whether there
is an element that is its own because it is not linked (`own`), which mutexes of this element are initialised
(`live`), and what it knows about the lists (`Knows`). What it knows depends on pointers that only change under
mutexes that it holds, so that it stays true while other threads work (`Knows.frame`).
-/

namespace Scubed3.Hashtbl

open LinkedCells

variable {κ : Type} (h : Hashtbl κ)

/-- What is held during a search: an element is added under the mutex for uniqueness. -/
def Seek.held : Seek κ → List (Mutex κ)
  | .unique elt => [.uniq (h.getBucket elt.key)]
  | _ => []

/-- What is held while an element is deleted. -/
def Deleter.held : Deleter κ → List (Mutex κ)
  | .bykey eltp => [.ptr eltp]
  | .empty bucket => [.ptr (.bucket bucket), .count]

/-- The mutexes that the thread holds. -/
def held : Pc κ → List (Mutex κ)
  | .handed elt | .unlockElement elt | .nextPtr elt => [.data elt]
  | .nextData elt => [.ptr (.elt elt), .data elt]
  | .findInBucket seek _ => seek.held h
  | .search seek _ eltp | .found seek _ eltp _ | .advance seek _ eltp _ | .missed seek _ eltp => .ptr eltp :: seek.held h
  | .advanced seek _ eltp elt => .ptr (.elt elt) :: .ptr eltp :: seek.held h
  | .unlockLast seek _ eltp elt => .data elt :: .ptr eltp :: seek.held h
  | .deleteCount eltp elt => [.data elt, .ptr eltp]
  | .deleteDecrement eltp elt | .deleteUncount eltp elt => [.count, .data elt, .ptr eltp]
  | .deletePtr deleter elt | .unlockData deleter elt => .data elt :: deleter.held
  | .unlink deleter elt | .unlockPtr deleter elt => .ptr (.elt elt) :: .data elt :: deleter.held
  | .destroyPtr deleter _ | .destroyData deleter _ => deleter.held
  | .deletedLast eltp _ => [.ptr eltp]
  | .freeEmptied bucket _ | .emptyFirst bucket | .emptyData bucket _ | .emptyUnlock bucket =>
    [.ptr (.bucket bucket), .count]
  | .addIncrement _ | .addUncount _ | .duplicateDecrement _ | .duplicateUncount _ => [.count]
  | .duplicate elt elt2 => [.data elt2, .uniq (h.getBucket elt.key)]
  | .duplicateUniq elt | .addInitPtr elt | .addInitData elt | .addBucket elt => [.uniq (h.getBucket elt.key)]
  | .addNext elt | .addFirst elt | .addData elt =>
    [.ptr (.bucket (h.getBucket elt.key)), .uniq (h.getBucket elt.key)]
  | .addUnlockBucket elt => [.data elt, .ptr (.bucket (h.getBucket elt.key)), .uniq (h.getBucket elt.key)]
  | .addUnlockUniq elt => [.data elt, .uniq (h.getBucket elt.key)]
  | .emptyZero | .emptyBucket _ | .readCount | .gotCount _ => [.count]
  | .idle | .freeDeleted _ | .addCount _ | .addUniq _ | .duplicateCount _ | .refused _ | .emptyCount | .getCount => []

def Seek.own : Seek κ → Option (Elt κ)
  | .unique elt => some elt
  | _ => none

/-- The element that the thread is going to link, or that it unlinked. -/
def own : Pc κ → Option (Elt κ)
  | .findInBucket seek _ | .search seek _ _ | .found seek _ _ _ | .advance seek _ _ _ | .advanced seek _ _ _
  | .missed seek _ _ | .unlockLast seek _ _ _ => seek.own
  | .unlockPtr _ elt | .unlockData _ elt | .destroyPtr _ elt | .destroyData _ elt | .deletedLast _ elt
  | .freeDeleted elt | .freeEmptied _ elt => some elt
  | .addCount elt | .addIncrement elt | .addUncount elt | .addUniq elt | .duplicate elt _ | .duplicateUniq elt
  | .duplicateCount elt | .duplicateDecrement elt | .duplicateUncount elt | .refused elt | .addInitPtr elt
  | .addInitData elt | .addBucket elt | .addNext elt | .addFirst elt => some elt
  | _ => none

/-- The mutexes of its own element that it still uses and does not hold. -/
def live : Pc κ → List (Mutex κ)
  | .unlockData _ elt | .addInitData elt => [.ptr (.elt elt)]
  | .destroyPtr _ elt | .addBucket elt | .addNext elt | .addFirst elt => [.ptr (.elt elt), .data elt]
  | .destroyData _ elt => [.data elt]
  | _ => []

/-! ## What a thread knows -/

variable {h} {s : System κ} {next next' : Cell κ → Option (Elt κ)} {chain : ℕ → List (Elt κ)} {pc : Pc κ}
  {instr : Instr κ} {elt elt2 : Elt κ} {bucket : ℕ} {eltp eltp' : Cell κ} {seek : Seek κ}

/-- A search that came to this pointer. An element with the key of an element that is added is further on. -/
structure Searching (h : Hashtbl κ) (next : Cell κ → Option (Elt κ)) (seek : Seek κ) (bucket : ℕ) (eltp : Cell κ) :
    Prop where
  inBucket : InBucket next bucket eltp
  unique : ∀ elt, seek = .unique elt → bucket = h.getBucket elt.key ∧
    ∀ elt2, Reach .elt next (.bucket bucket) elt2 → elt2.key = elt.key → Reach .elt next eltp elt2

/-- What does not change of the pointers for a thread that holds these mutexes and has this element for its own. -/
structure Keeps (held : List (Mutex κ)) (own : Option (Elt κ)) (next next' : Cell κ → Option (Elt κ)) : Prop where
  cell : ∀ eltp, .ptr eltp ∈ held → next' eltp = next eltp
  own : ∀ elt, own = some elt → next' (.elt elt) = next (.elt elt)
  linked : ∀ elt bucket, .data elt ∈ held ∨ .ptr (.elt elt) ∈ held → Reach .elt next (.bucket bucket) elt →
    Reach .elt next' (.bucket bucket) elt
  unique : ∀ elt bucket, .uniq bucket ∈ held → Reach .elt next' (.bucket bucket) elt →
    Reach .elt next (.bucket bucket) elt ∧
      ∀ eltp, InBucket next bucket eltp → Reach .elt next eltp elt → Reach .elt next' eltp elt

namespace Keeps

variable {mutexes : List (Mutex κ)} {owned : Option (Elt κ)} (keeps : Keeps mutexes owned next next')

include keeps

theorem inBucket (inBucket : InBucket next bucket eltp) (mem : .ptr eltp ∈ mutexes) : InBucket next' bucket eltp := by
  rcases inBucket with first | ⟨elt, reach, rfl⟩
  · exact .inl first
  · exact .inr ⟨elt, keeps.linked elt bucket (.inr mem) reach, rfl⟩

theorem pointsTo (pointsTo : PointsTo h next eltp elt) (mem : .ptr eltp ∈ mutexes) : PointsTo h next' eltp elt where
  inBucket := keeps.inBucket pointsTo.inBucket mem
  points := (keeps.cell eltp mem).trans pointsTo.points

theorem searching (searching : Searching h next seek bucket eltp) (mem : .ptr eltp ∈ mutexes)
    (uniq : ∀ m ∈ seek.held h, m ∈ mutexes) : Searching h next' seek bucket eltp where
  inBucket := keeps.inBucket searching.inBucket mem
  unique := by
    rintro elt rfl
    obtain ⟨rfl, further⟩ := searching.unique elt rfl
    refine ⟨rfl, fun elt2 reach same => ?_⟩
    obtain ⟨before, later⟩ := keeps.unique elt2 _ (uniq _ List.mem_cons_self) reach
    exact later eltp searching.inBucket (further elt2 before same)

theorem absent {key : κ} (absent : Absent h next key) (mem : .uniq (h.getBucket key) ∈ mutexes) : Absent h next' key :=
  fun elt reach => absent elt (keeps.unique elt _ mem reach).1

end Keeps

section

variable [DecidableEq κ] {mutexes : List (Mutex κ)} {owned : Option (Elt κ)} (chains : Chains h next chain)

include chains

/-- An element that is not linked gets a successor; the other threads do not have it. -/
theorem Chains.keeps_prepare (unlinked : ¬ IsLinked h next elt) (unheld : .ptr (.elt elt) ∉ mutexes)
    (other : owned ≠ some elt) (elt' : Option (Elt κ)) :
    Keeps mutexes owned next (Function.update next (.elt elt) elt') := by
  refine ⟨fun eltp mem => Function.update_of_ne ?_ _ _, fun elt2 own => Function.update_of_ne ?_ _ _,
    fun elt2 bucket _ => (chains.reach_prepare_iff unlinked).mpr, fun elt2 bucket _ reach => ?_⟩
  · rintro rfl
    exact unheld mem
  · rintro ⟨⟩
    exact other own
  · refine ⟨(chains.reach_prepare_iff unlinked).mp reach, fun eltp inBucket reach' => ?_⟩
    exact chains.reach_frame inBucket reach' fun _ => chains.outside unlinked

/-- An element becomes the first one of a bucket, under both mutexes of the bucket. -/
theorem Chains.keeps_insert (absent : Absent h next elt.key)
    (ready : next (.elt elt) = next (.bucket (h.getBucket elt.key)))
    (unheld : .ptr (.bucket (h.getBucket elt.key)) ∉ mutexes) (unheldUniq : .uniq (h.getBucket elt.key) ∉ mutexes) :
    Keeps mutexes owned next (Function.update next (.bucket (h.getBucket elt.key)) (some elt)) := by
  refine ⟨fun eltp mem => Function.update_of_ne ?_ _ _, fun elt2 own => Function.update_of_ne ?_ _ _,
    fun elt2 bucket _ reach => (chains.reach_insert_iff absent ready).mpr (.inl reach), fun elt2 bucket mem reach => ?_⟩
  · rintro rfl
    exact unheld mem
  · nofun
  · have other : bucket ≠ h.getBucket elt.key := by
      rintro rfl
      exact unheldUniq mem
    rcases (chains.reach_insert_iff absent ready).mp reach with before | ⟨-, here⟩
    · refine ⟨before, fun eltp inBucket reach' => chains.reach_frame inBucket reach' fun eltp' inBucket' => ?_⟩
      refine Function.update_of_ne ?_ _ _
      rintro rfl
      rcases inBucket' with same | ⟨_, _, same⟩
      · cases same
        exact other rfl
      · cases same
    · exact absurd here other

/-- An element is unlinked, under the mutexes of the pointer to it and of the element. -/
theorem Chains.keeps_remove (pointsTo : PointsTo h next eltp elt) (unheld : .ptr eltp ∉ mutexes)
    (unheldElt : ∀ m : Mutex κ, m = .data elt ∨ m = .ptr (.elt elt) → m ∉ mutexes)
    (unlinked : ∀ elt2, owned = some elt2 → ¬ IsLinked h next elt2) :
    Keeps mutexes owned next (Function.update next eltp (next (.elt elt))) := by
  refine ⟨fun eltp' mem => Function.update_of_ne ?_ _ _, fun elt2 own => Function.update_of_ne ?_ _ _,
    fun elt2 bucket mem reach => (chains.reach_remove_iff pointsTo).mpr ⟨reach, ?_⟩, fun elt2 bucket mem reach => ?_⟩
  · rintro rfl
    exact unheld mem
  · rintro rfl
    exact unlinked elt2 own (chains.isLinked_of_inBucket pointsTo.inBucket)
  · rintro rfl
    rcases mem with mem | mem
    · exact unheldElt _ (.inl rfl) mem
    · exact unheldElt _ (.inr rfl) mem
  · obtain ⟨before, other⟩ := (chains.reach_remove_iff pointsTo).mp reach
    exact ⟨before, fun eltp' inBucket reach' => chains.reach_remove pointsTo inBucket reach' other⟩

end

variable [DecidableEq κ]

/-- What the thread knows about the lists. -/
def Knows (h : Hashtbl κ) (next : Cell κ → Option (Elt κ)) : Pc κ → Prop
  | .handed elt | .unlockElement elt | .nextPtr elt | .nextData elt | .duplicate _ elt | .addUnlockBucket elt
  | .addUnlockUniq elt => IsLinked h next elt
  | .findInBucket seek bucket => ∀ elt, seek = .unique elt → bucket = h.getBucket elt.key
  | .search seek bucket eltp => Searching h next seek bucket eltp
  | .missed seek bucket eltp => Searching h next seek bucket eltp ∧ next eltp = none
  | .advance seek bucket eltp elt | .advanced seek bucket eltp elt =>
    Searching h next seek bucket eltp ∧ next eltp = some elt ∧ seek.compare elt = false
  | .found seek _ eltp elt => PointsTo h next eltp elt ∧ seek.compare elt = true
  | .unlockLast _ _ eltp elt | .deleteCount eltp elt | .deleteDecrement eltp elt | .deleteUncount eltp elt =>
    PointsTo h next eltp elt
  | .deletePtr deleter elt | .unlink deleter elt => PointsTo h next deleter.eltp elt
  | .unlockPtr deleter _ | .unlockData deleter _ | .destroyPtr deleter _ | .destroyData deleter _ =>
    ∃ bucket, InBucket next bucket deleter.eltp
  | .deletedLast eltp _ => ∃ bucket, InBucket next bucket eltp
  | .addInitPtr elt | .addInitData elt | .addBucket elt | .addNext elt => Absent h next elt.key
  | .addFirst elt => Absent h next elt.key ∧ next (.elt elt) = next (.bucket (h.getBucket elt.key))
  | .addData elt => PointsTo h next (.bucket (h.getBucket elt.key)) elt
  | .emptyData bucket elt => next (.bucket bucket) = some elt
  | _ => True

/-- What a thread knows stays true while other threads work. -/
theorem Knows.frame (knows : Knows h next pc) (keeps : Keeps (held h pc) (own pc) next next') : Knows h next' pc := by
  have data : ∀ elt, .data elt ∈ held h pc → IsLinked h next elt → IsLinked h next' elt :=
    fun elt mem => keeps.linked elt _ (.inl mem)
  cases pc with
  | findInBucket => exact knows
  | handed | unlockElement | nextPtr | duplicate | addUnlockBucket | addUnlockUniq => exact data _ (by simp [held]) knows
  | nextData => exact data _ (by simp [held]) knows
  | search => exact keeps.searching knows (by simp [held]) (by simp +contextual [held])
  | missed =>
    exact ⟨keeps.searching knows.1 (by simp [held]) (by simp +contextual [held]),
      (keeps.cell _ (by simp [held])).trans knows.2⟩
  | advance | advanced =>
    exact ⟨keeps.searching knows.1 (by simp [held]) (by simp +contextual [held]),
      (keeps.cell _ (by simp [held])).trans knows.2.1, knows.2.2⟩
  | found => exact ⟨keeps.pointsTo knows.1 (by simp [held]), knows.2⟩
  | unlockLast | deleteCount | deleteDecrement | deleteUncount => exact keeps.pointsTo knows (by simp [held])
  | deletePtr deleter | unlink deleter =>
    cases deleter <;> exact keeps.pointsTo knows (by simp [held, Deleter.held, Deleter.eltp])
  | unlockPtr deleter | unlockData deleter | destroyPtr deleter | destroyData deleter =>
    obtain ⟨bucket, inBucket⟩ := knows
    cases deleter <;> exact ⟨bucket, keeps.inBucket inBucket (by simp [held, Deleter.held, Deleter.eltp])⟩
  | deletedLast =>
    obtain ⟨bucket, inBucket⟩ := knows
    exact ⟨bucket, keeps.inBucket inBucket (by simp [held])⟩
  | addInitPtr | addInitData | addBucket | addNext => exact keeps.absent knows (by simp [held])
  | addFirst elt =>
    refine ⟨keeps.absent knows.1 (by simp [held]), (keeps.own elt rfl).trans (knows.2.trans ?_)⟩
    exact (keeps.cell _ (by simp [held])).symm
  | addData => exact keeps.pointsTo knows (by simp [held])
  | emptyData => exact (keeps.cell _ (by simp [held])).trans knows
  | _ => exact True.intro

/-! ## What a thread does -/

/-- Where the thread is then. -/
def Instr.after : Instr κ → Pc κ
  | .lock _ pc | .unlock _ pc | .init _ pc | .destroy _ pc | .store _ _ pc | .setCount _ pc | .free _ pc | .goto pc => pc

/-- How the mutexes that the thread holds change. -/
def Instr.Moves (before after : List (Mutex κ)) : Instr κ → Prop
  | .lock mutex _ => after = mutex :: before
  | .unlock mutex _ => before.Perm (mutex :: after)
  | _ => after = before

section

variable (h)

theorem code_findInBucket (ran : code h s (.findInBucket seek bucket) = .ok instr) :
    (bucket < h.noBuckets ∧ instr = .lock (.ptr (.bucket bucket)) (.search seek bucket (.bucket bucket))) ∨
      seek = .next ∧ instr = .goto .idle := by
  have checked (ran : (do
      check (bucket < h.noBuckets) "bucket >= 0 && bucket < NO_BUCKETS"
      return .lock (.ptr (.bucket bucket)) (.search seek bucket (.bucket bucket))) = Except.ok instr) :
      bucket < h.noBuckets ∧ instr = .lock (.ptr (.bucket bucket)) (.search seek bucket (.bucket bucket)) := by
    obtain ⟨_, small, rest⟩ := Except.bind_eq_ok_iff.mp ran
    cases rest
    exact ⟨check_eq_ok_iff.mp small, rfl⟩
  cases seek with
  | next =>
    rw [code] at ran
    split at ran
    · next small =>
      cases ran
      exact .inl ⟨small, rfl⟩
    · cases ran
      exact .inr ⟨rfl, rfl⟩
  | find | delete | unique => exact .inl (checked ran)

theorem code_search (ran : code h s (.search seek bucket eltp) = .ok instr) :
    (s.next eltp = none ∧ instr = .goto (.missed seek bucket eltp)) ∨ ∃ elt, s.next eltp = some elt ∧
      (seek.compare elt = true ∧ instr = .goto (.found seek bucket eltp elt) ∨
        seek.compare elt = false ∧ instr = .goto (.advance seek bucket eltp elt)) := by
  rw [code] at ran
  split at ran
  · next none =>
    cases ran
    exact .inl ⟨none, rfl⟩
  · next elt some =>
    cases ran
    refine .inr ⟨elt, some, ?_⟩
    cases same : seek.compare elt
    · exact .inr ⟨rfl, rfl⟩
    · exact .inl ⟨rfl, rfl⟩

theorem code_deleteDecrement (ran : code h s (.deleteDecrement eltp elt) = .ok instr) :
    instr = .setCount (s.count - 1) (.deleteUncount eltp elt) := by
  obtain ⟨_, -, rest⟩ := Except.bind_eq_ok_iff.mp ran
  cases rest
  rfl

theorem code_emptyBucket (ran : code h s (.emptyBucket bucket) = .ok instr) :
    (bucket < h.noBuckets ∧ instr = .lock (.ptr (.bucket bucket)) (.emptyFirst bucket)) ∨
      instr = .unlock .count .idle := by
  rw [code] at ran
  split at ran
  · next small =>
    cases ran
    exact .inl ⟨small, rfl⟩
  · cases ran
    exact .inr rfl

theorem code_emptyFirst (ran : code h s (.emptyFirst bucket) = .ok instr) :
    (s.next (.bucket bucket) = none ∧ instr = .goto (.emptyUnlock bucket)) ∨
      ∃ elt, s.next (.bucket bucket) = some elt ∧ instr = .goto (.emptyData bucket elt) := by
  rw [code] at ran
  split at ran
  · next none =>
    cases ran
    exact .inl ⟨none, rfl⟩
  · next elt some =>
    cases ran
    exact .inr ⟨elt, some, rfl⟩

end

/-- Only locks and unlocks change what a thread holds. -/
theorem code_held (ran : code h s pc = .ok instr) : instr.Moves (held h pc) (held h instr.after) := by
  cases pc with
  | findInBucket => rcases code_findInBucket h ran with ⟨-, rfl⟩ | ⟨rfl, rfl⟩ <;> rfl
  | search => rcases code_search h ran with ⟨-, rfl⟩ | ⟨_, -, ⟨-, rfl⟩ | ⟨-, rfl⟩⟩ <;> rfl
  | found seek => cases seek <;> (cases ran; rfl)
  | missed seek => cases seek <;> (cases ran; exact .refl _)
  | unlockLast seek => cases seek <;> (cases ran; exact .swap ..)
  | deleteDecrement => rw [code_deleteDecrement h ran]; rfl
  | destroyData deleter => cases deleter <;> (cases ran; rfl)
  | emptyBucket =>
    rcases code_emptyBucket h ran with ⟨-, rfl⟩ | rfl
    · rfl
    · exact .refl _
  | emptyFirst => rcases code_emptyFirst h ran with ⟨-, rfl⟩ | ⟨_, -, rfl⟩ <;> rfl
  | _ =>
    cases ran
    first
    | rfl
    | exact .refl _
    | exact .swap ..

/-- The element of its own changes when it is linked, unlinked or freed. -/
theorem code_own (ran : code h s pc = .ok instr) (stays : ∀ eltp elt pc', instr ≠ .store eltp elt pc')
    (kept : ∀ elt pc', instr ≠ .free elt pc') : own instr.after = own pc := by
  cases pc with
  | findInBucket => rcases code_findInBucket h ran with ⟨-, rfl⟩ | ⟨rfl, rfl⟩ <;> rfl
  | search => rcases code_search h ran with ⟨-, rfl⟩ | ⟨_, -, ⟨-, rfl⟩ | ⟨-, rfl⟩⟩ <;> rfl
  | found seek => cases seek <;> (cases ran; rfl)
  | missed seek => cases seek <;> (cases ran; rfl)
  | unlockLast seek => cases seek <;> (cases ran; rfl)
  | deleteDecrement => rw [code_deleteDecrement h ran]; rfl
  | destroyData deleter => cases deleter <;> (cases ran; rfl)
  | emptyBucket => rcases code_emptyBucket h ran with ⟨-, rfl⟩ | rfl <;> rfl
  | emptyFirst => rcases code_emptyFirst h ran with ⟨-, rfl⟩ | ⟨_, -, rfl⟩ <;> rfl
  | _ =>
    cases ran
    first
    | rfl
    | exact absurd rfl (stays _ _ _)
    | exact absurd rfl (kept _ _)

/-- Mutexes of the table, not of an element. -/
def Mutex.Shared (h : Hashtbl κ) : Mutex κ → Prop
  | .count => True
  | .uniq bucket | .ptr (.bucket bucket) => bucket < h.noBuckets
  | _ => False

/-- The two mutexes of an element. -/
def Mutex.OfElt (elt : Elt κ) (m : Mutex κ) : Prop := m = .ptr (.elt elt) ∨ m = .data elt

omit [DecidableEq κ] in
theorem live_own {m : Mutex κ} (mem : m ∈ live pc) : ∃ elt, own pc = some elt ∧ m.OfElt elt := by
  cases pc with
  | unlockData _ elt | addInitData elt => exact ⟨elt, rfl, .inl (List.mem_singleton.mp mem)⟩
  | destroyPtr _ elt | addBucket elt | addNext elt | addFirst elt =>
    refine ⟨elt, rfl, ?_⟩
    simpa only [live, List.mem_cons, List.not_mem_nil, or_false, Mutex.OfElt] using mem
  | destroyData _ elt => exact ⟨elt, rfl, .inr (List.mem_singleton.mp mem)⟩
  | _ => cases mem

/-- What a mutex that a thread holds belongs to: the table, a linked element or the thread's own element. -/
def Mutex.Known (h : Hashtbl κ) (next : Cell κ → Option (Elt κ)) (own : Option (Elt κ)) : Mutex κ → Prop
  | .count | .uniq _ => True
  | .ptr eltp => (∃ bucket, InBucket next bucket eltp) ∨ ∃ elt, own = some elt ∧ eltp = .elt elt
  | .data elt => IsLinked h next elt ∨ own = some elt

theorem Knows.known (chains : Chains h next chain) (knows : Knows h next pc) :
    ∀ m ∈ held h pc, m.Known h next (own pc) := by
  have search (seek : Seek κ) (own : Option (Elt κ)) : ∀ m ∈ seek.held h, m.Known h next own := by
    cases seek <;> simp [Seek.held, Mutex.Known]
  have first (bucket : ℕ) : ∃ bucket', InBucket next bucket' (.bucket bucket) := ⟨bucket, .inl rfl⟩
  have linked {eltp : Cell κ} {elt : Elt κ} (pointsTo : PointsTo h next eltp elt) : IsLinked h next elt :=
    (chains.isLinked_of_next pointsTo.inBucket pointsTo.points).2
  have cell {elt : Elt κ} (linked : IsLinked h next elt) : ∃ bucket, InBucket next bucket (.elt elt) :=
    ⟨_, .inr ⟨elt, linked, rfl⟩⟩
  have deleter (deleter : Deleter κ) (own : Option (Elt κ)) (inBucket : ∃ bucket, InBucket next bucket deleter.eltp) :
      ∀ m ∈ deleter.held, m.Known h next own := by
    cases deleter with
    | bykey => exact List.forall_mem_cons.mpr ⟨.inl inBucket, nofun⟩
    | empty => exact List.forall_mem_cons.mpr ⟨.inl inBucket, List.forall_mem_cons.mpr ⟨True.intro, nofun⟩⟩
  cases pc <;> simp only [held, List.forall_mem_cons]
  case handed | unlockElement | nextPtr => exact ⟨.inl knows, nofun⟩
  case duplicate | addUnlockUniq => exact ⟨.inl knows, True.intro, nofun⟩
  case addUnlockBucket => exact ⟨.inl knows, .inl (first _), True.intro, nofun⟩
  case nextData => exact ⟨.inl (cell knows), .inl knows, nofun⟩
  case findInBucket seek _ => exact search seek _
  case search seek _ _ => exact ⟨.inl ⟨_, knows.inBucket⟩, search seek _⟩
  case missed seek _ _ | advance seek _ _ _ => exact ⟨.inl ⟨_, knows.1.inBucket⟩, search seek _⟩
  case found seek _ _ _ => exact ⟨.inl ⟨_, knows.1.inBucket⟩, search seek _⟩
  case advanced seek _ _ _ =>
    exact ⟨.inl (cell (chains.isLinked_of_next knows.1.inBucket knows.2.1).2), .inl ⟨_, knows.1.inBucket⟩, search seek _⟩
  case unlockLast seek _ _ _ => exact ⟨.inl (linked knows), .inl ⟨_, knows.inBucket⟩, search seek _⟩
  case deleteCount => exact ⟨.inl (linked knows), .inl ⟨_, knows.inBucket⟩, nofun⟩
  case deleteDecrement | deleteUncount => exact ⟨True.intro, .inl (linked knows), .inl ⟨_, knows.inBucket⟩, nofun⟩
  case deletePtr d _ => exact ⟨.inl (linked knows), deleter d _ ⟨_, knows.inBucket⟩⟩
  case unlink d _ => exact ⟨.inl (cell (linked knows)), .inl (linked knows), deleter d _ ⟨_, knows.inBucket⟩⟩
  case unlockPtr d elt => exact ⟨.inr ⟨elt, rfl, rfl⟩, .inr rfl, deleter d _ knows⟩
  case unlockData d _ => exact ⟨.inr rfl, deleter d _ knows⟩
  case destroyPtr d _ | destroyData d _ => exact deleter d _ knows
  case deletedLast => exact ⟨.inl knows, nofun⟩
  case freeEmptied | emptyFirst | emptyData | emptyUnlock => exact ⟨.inl (first _), True.intro, nofun⟩
  case addNext | addFirst | addData => exact ⟨.inl (first _), True.intro, nofun⟩
  all_goals first | exact ⟨True.intro, nofun⟩ | exact nofun

theorem Knows.linked_or_own {m : Mutex κ} (chains : Chains h next chain) (knows : Knows h next pc)
    (mem : m ∈ held h pc) (of : m.OfElt elt) : IsLinked h next elt ∨ own pc = some elt := by
  have known := knows.known chains m mem
  rcases of with rfl | rfl
  · rcases known with ⟨bucket, inBucket⟩ | ⟨elt2, own, same⟩
    · exact .inl (chains.isLinked_of_inBucket inBucket)
    · cases same
      exact .inr own
  · exact known

/-- How the mutexes of its own element that the thread still uses change. -/
def Instr.Lives (before after : List (Mutex κ)) : Instr κ → Prop
  | .unlock mutex _ | .init mutex _ => ∀ m ∈ after, m = mutex ∨ m ∈ before
  | .destroy mutex _ => mutex ∈ before ∧ ∀ m ∈ after, m ∈ before ∧ m ≠ mutex
  | _ => ∀ m ∈ after, m ∈ before

/-- What a thread still uses was used before, or it is initialised or unlocked now. -/
theorem code_live (ran : code h s pc = .ok instr) : instr.Lives (live pc) (live instr.after) := by
  cases pc with
  | findInBucket => rcases code_findInBucket h ran with ⟨-, rfl⟩ | ⟨rfl, rfl⟩ <;> nofun
  | search => rcases code_search h ran with ⟨-, rfl⟩ | ⟨_, -, ⟨-, rfl⟩ | ⟨-, rfl⟩⟩ <;> nofun
  | found seek => cases seek <;> (cases ran; nofun)
  | missed seek => cases seek <;> (cases ran; nofun)
  | unlockLast seek => cases seek <;> (cases ran; nofun)
  | deleteDecrement => rw [code_deleteDecrement h ran]; nofun
  | destroyData deleter => cases deleter <;> (cases ran; exact ⟨List.mem_cons_self, nofun⟩)
  | emptyBucket => rcases code_emptyBucket h ran with ⟨-, rfl⟩ | rfl <;> nofun
  | emptyFirst => rcases code_emptyFirst h ran with ⟨-, rfl⟩ | ⟨_, -, rfl⟩ <;> nofun
  | unlockPtr | unlockData | destroyPtr | addInitPtr | addInitData | addBucket | addNext =>
    cases ran
    simp [Instr.Lives, Instr.after, live]
  | _ =>
    cases ran
    nofun

/-- Only mutexes of the thread's own element are initialised. -/
theorem code_init {m : Mutex κ} {pc' : Pc κ} (ran : code h s pc = .ok (.init m pc')) :
    ∃ elt, own pc = some elt ∧ m.OfElt elt ∧ m ∉ held h pc := by
  cases pc with
  | findInBucket => rcases code_findInBucket h ran with ⟨-, same⟩ | ⟨-, same⟩ <;> cases same
  | search => rcases code_search h ran with ⟨-, same⟩ | ⟨_, -, ⟨-, same⟩ | ⟨-, same⟩⟩ <;> cases same
  | found seek => cases seek <;> cases ran
  | missed seek => cases seek <;> cases ran
  | unlockLast seek => cases seek <;> cases ran
  | deleteDecrement => cases code_deleteDecrement h ran
  | destroyData deleter => cases deleter <;> cases ran
  | emptyBucket => rcases code_emptyBucket h ran with ⟨-, same⟩ | same <;> cases same
  | emptyFirst => rcases code_emptyFirst h ran with ⟨-, same⟩ | ⟨_, -, same⟩ <;> cases same
  | addInitPtr elt => cases ran; exact ⟨elt, rfl, .inl rfl, by simp [held]⟩
  | addInitData elt => cases ran; exact ⟨elt, rfl, .inr rfl, by simp [held]⟩
  | _ => cases ran

/-- The pointers are changed when an element is added, in two steps, and when it is unlinked. -/
theorem code_store {elt' : Option (Elt κ)} {pc' : Pc κ} (ran : code h s pc = .ok (.store eltp elt' pc')) :
    (∃ elt, pc = .addNext elt ∧ eltp = .elt elt ∧ elt' = s.next (.bucket (h.getBucket elt.key)) ∧ pc' = .addFirst elt) ∨
      (∃ elt, pc = .addFirst elt ∧ eltp = .bucket (h.getBucket elt.key) ∧ elt' = some elt ∧ pc' = .addData elt) ∨
      ∃ deleter elt, pc = .unlink deleter elt ∧ eltp = deleter.eltp ∧ elt' = s.next (.elt elt) ∧
        pc' = .unlockPtr deleter elt := by
  cases pc with
  | findInBucket => rcases code_findInBucket h ran with ⟨-, same⟩ | ⟨-, same⟩ <;> cases same
  | search => rcases code_search h ran with ⟨-, same⟩ | ⟨_, -, ⟨-, same⟩ | ⟨-, same⟩⟩ <;> cases same
  | found seek => cases seek <;> cases ran
  | missed seek => cases seek <;> cases ran
  | unlockLast seek => cases seek <;> cases ran
  | deleteDecrement => cases code_deleteDecrement h ran
  | destroyData deleter => cases deleter <;> cases ran
  | emptyBucket => rcases code_emptyBucket h ran with ⟨-, same⟩ | same <;> cases same
  | emptyFirst => rcases code_emptyFirst h ran with ⟨-, same⟩ | ⟨_, -, same⟩ <;> cases same
  | addNext elt => cases ran; exact .inl ⟨elt, rfl, rfl, rfl, rfl⟩
  | addFirst elt => cases ran; exact .inr (.inl ⟨elt, rfl, rfl, rfl, rfl⟩)
  | unlink deleter elt => cases ran; exact .inr (.inr ⟨deleter, elt, rfl, rfl, rfl, rfl⟩)
  | _ => cases ran

/-- A thread frees its own element. -/
theorem code_free {pc' : Pc κ} (ran : code h s pc = .ok (.free elt pc')) :
    own pc = some elt ∧ own pc' = none ∧ live pc' = [] := by
  cases pc with
  | findInBucket => rcases code_findInBucket h ran with ⟨-, same⟩ | ⟨-, same⟩ <;> cases same
  | search => rcases code_search h ran with ⟨-, same⟩ | ⟨_, -, ⟨-, same⟩ | ⟨-, same⟩⟩ <;> cases same
  | found seek => cases seek <;> cases ran
  | missed seek => cases seek <;> cases ran
  | unlockLast seek => cases seek <;> cases ran
  | deleteDecrement => cases code_deleteDecrement h ran
  | destroyData deleter => cases deleter <;> cases ran
  | emptyBucket => rcases code_emptyBucket h ran with ⟨-, same⟩ | same <;> cases same
  | emptyFirst => rcases code_emptyFirst h ran with ⟨-, same⟩ | ⟨_, -, same⟩ <;> cases same
  | freeDeleted | freeEmptied | refused => cases ran; exact ⟨rfl, rfl, rfl⟩
  | _ => cases ran

/-- A mutex that a thread locks belongs to the table or to an element that is linked. -/
theorem code_lock {m : Mutex κ} {pc' : Pc κ} (chains : Chains h s.next chain) (knows : Knows h s.next pc)
    (ran : code h s pc = .ok (.lock m pc')) : m.Shared h ∨ ∃ elt, IsLinked h s.next elt ∧ m.OfElt elt := by
  cases pc with
  | findInBucket =>
    rcases code_findInBucket h ran with ⟨small, same⟩ | ⟨-, same⟩ <;> cases same
    exact .inl small
  | search => rcases code_search h ran with ⟨-, same⟩ | ⟨_, -, ⟨-, same⟩ | ⟨-, same⟩⟩ <;> cases same
  | found seek =>
    have linked := (chains.isLinked_of_next knows.1.inBucket knows.1.points).2
    cases seek <;> (cases ran; exact .inr ⟨_, linked, .inr rfl⟩)
  | missed seek => cases seek <;> cases ran
  | unlockLast seek => cases seek <;> cases ran
  | advance =>
    cases ran
    exact .inr ⟨_, (chains.isLinked_of_next knows.1.inBucket knows.2.1).2, .inl rfl⟩
  | nextPtr =>
    cases ran
    exact .inr ⟨_, knows, .inl rfl⟩
  | deleteDecrement => cases code_deleteDecrement h ran
  | deletePtr =>
    cases ran
    exact .inr ⟨_, (chains.isLinked_of_next knows.inBucket knows.points).2, .inl rfl⟩
  | destroyData deleter => cases deleter <;> cases ran
  | addUniq | addBucket =>
    cases ran
    exact .inl (h.getBucket_lt _)
  | addData =>
    cases ran
    exact .inr ⟨_, (chains.isLinked_of_next knows.inBucket knows.points).2, .inr rfl⟩
  | emptyBucket =>
    rcases code_emptyBucket h ran with ⟨small, same⟩ | same <;> cases same
    exact .inl small
  | emptyFirst => rcases code_emptyFirst h ran with ⟨-, same⟩ | ⟨_, -, same⟩ <;> cases same
  | emptyData =>
    cases ran
    exact .inr ⟨_, (chains.isLinked_of_next (.inl rfl) knows).2, .inr rfl⟩
  | addCount | duplicateCount | deleteCount | emptyCount | getCount =>
    cases ran
    exact .inl True.intro
  | _ => cases ran

/-- What the thread knows then, if the pointers do not change. -/
theorem code_knows (chains : Chains h s.next chain) (knows : Knows h s.next pc) (ran : code h s pc = .ok instr)
    (stays : ∀ eltp elt pc', instr ≠ .store eltp elt pc') : Knows h s.next instr.after := by
  cases pc with
  | findInBucket seek bucket =>
    rcases code_findInBucket h ran with ⟨-, rfl⟩ | ⟨-, rfl⟩
    · exact ⟨.inl rfl, fun elt same => ⟨knows elt same, fun _ reach _ => reach⟩⟩
    · exact True.intro
  | search =>
    rcases code_search h ran with ⟨none, rfl⟩ | ⟨_, some, ⟨same, rfl⟩ | ⟨other, rfl⟩⟩
    · exact ⟨knows, none⟩
    · exact ⟨chains.pointsTo knows.inBucket some, same⟩
    · exact ⟨knows, some, other⟩
  | found seek => cases seek <;> (cases ran; exact knows.1)
  | advanced seek bucket eltp elt =>
    cases ran
    obtain ⟨searching, points, other⟩ := knows
    refine ⟨.inr ⟨elt, chains.reach_of_next searching.inBucket points, rfl⟩, ?_⟩
    rintro elt' rfl
    obtain ⟨rfl, further⟩ := searching.unique elt' rfl
    refine ⟨rfl, fun elt2 reach same => ?_⟩
    rcases (further elt2 reach same).tail_of_next points with rfl | later
    · exact absurd same.symm (of_decide_eq_false other)
    · exact later
  | missed seek =>
    obtain ⟨searching, none⟩ := knows
    cases seek with
    | find | delete => cases ran; exact True.intro
    | unique elt =>
      cases ran
      obtain ⟨rfl, further⟩ := searching.unique elt rfl
      exact fun elt2 reach same => (further elt2 reach same).next_ne_none none
    | next => cases ran; nofun
  | unlockLast seek =>
    have linked := (chains.isLinked_of_next knows.inBucket knows.points).2
    cases seek <;> (cases ran; exact linked)
  | nextData elt =>
    cases ran
    exact ⟨.inr ⟨elt, knows, rfl⟩, nofun⟩
  | deleteDecrement => rw [code_deleteDecrement h ran]; exact knows
  | destroyData deleter =>
    cases deleter with
    | bykey => cases ran; exact knows
    | empty => cases ran; exact True.intro
  | addUniq =>
    cases ran
    rintro elt' ⟨⟩
    rfl
  | addData =>
    cases ran
    exact (chains.isLinked_of_next knows.inBucket knows.points).2
  | emptyBucket => rcases code_emptyBucket h ran with ⟨-, rfl⟩ | rfl <;> exact True.intro
  | emptyFirst =>
    rcases code_emptyFirst h ran with ⟨-, rfl⟩ | ⟨_, some, rfl⟩
    · exact True.intro
    · exact some
  | emptyData =>
    cases ran
    exact chains.pointsTo (.inl rfl) knows
  | _ =>
    cases ran
    first
    | exact True.intro
    | exact knows
    | exact absurd rfl (stays _ _ _)

end Scubed3.Hashtbl
