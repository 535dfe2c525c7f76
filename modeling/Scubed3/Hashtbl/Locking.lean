import Scubed3.Hashtbl.Invariant
import Scubed3.Model.Daemon
import Mathlib.Data.Prod.Lex

/-! # Who waits for whom

Mutexes are locked in the order of the buckets, within a bucket in the order of the list, and the data of an element
before its pointer. The mutex of the count is the exception. Most functions lock it when they hold nothing else, but
`hashtbl_empty` holds it while it goes through the buckets, and a thread that deletes an element by its key locks it
when it already holds the element. So it has its place in the order before the bucket that `hashtbl_empty` is about
to empty, and nobody who deletes an element may be in that bucket or in a later one.
-/

namespace Scubed3.Hashtbl

open LinkedCells

variable {κ : Type} [DecidableEq κ] {h : Hashtbl κ} {s s' : System κ} {t u : ℕ} {pc : Pc κ} {elt : Elt κ}
  {instr : Instr κ} {chain : ℕ → List (Elt κ)} {limit : ℕ} {eltp : Cell κ} {m : Mutex κ}

/-- The bucket that `hashtbl_empty` is about to empty, while it holds the mutex of the count. -/
def emptying : Pc κ → Option ℕ
  | .emptyZero => some 0
  | .emptyBucket bucket | .emptyFirst bucket | .emptyData bucket _ | .emptyUnlock bucket | .freeEmptied bucket _ => some bucket
  | .deletePtr (.empty bucket) _ | .unlink (.empty bucket) _ | .unlockPtr (.empty bucket) _
  | .unlockData (.empty bucket) _ | .destroyPtr (.empty bucket) _ | .destroyData (.empty bucket) _ => some bucket
  | _ => none

/-- A thread that deletes by key locks the element that it found only when every `hashtbl_empty` is past the bucket,
and `hashtbl_empty` locks the count only when no such thread still needs the count. -/
def InOrder (h : Hashtbl κ) (s : System κ) : Action κ → Prop
  | .step t =>
    match s.pc t with
    | .found (.delete _) _ _ elt => ∀ u i, emptying (s.pc u) = some i → h.getBucket elt.key < i
    | .emptyCount => ∀ u eltp elt, s.pc u ≠ .deleteCount eltp elt
    | _ => True
  | .call _ _ => True

/-- `hashtbl_empty` is past the buckets of elements that are deleted by key and not counted yet. -/
def Ordered (h : Hashtbl κ) (s : System κ) : Prop :=
  ∀ t u i eltp elt, emptying (s.pc t) = some i → s.pc u = .deleteCount eltp elt → h.getBucket elt.key < i

/-! ## The order of the mutexes -/

/-- The place of a mutex, given the lists and the bucket that is emptied. -/
def rank (h : Hashtbl κ) (chain : ℕ → List (Elt κ)) (limit : ℕ) : Mutex κ → ℕ ×ₗ ℕ
  | .count => toLex (limit, 0)
  | .uniq bucket => toLex (bucket, 0)
  | .ptr (.bucket bucket) => toLex (bucket, 1)
  | .data elt => toLex (h.getBucket elt.key, 2 + 2 * (chain (h.getBucket elt.key)).idxOf elt)
  | .ptr (.elt elt) => toLex (h.getBucket elt.key, 3 + 2 * (chain (h.getBucket elt.key)).idxOf elt)

theorem lt_of_snd {bucket i j : ℕ} (less : i < j) : toLex (bucket, i) < toLex (bucket, j) :=
  Prod.Lex.toLex_lt_toLex.mpr (.inr ⟨rfl, less⟩)

theorem lt_of_fst {bucket bucket' i j : ℕ} (less : bucket < bucket') : toLex (bucket, i) < toLex (bucket', j) :=
  Prod.Lex.toLex_lt_toLex.mpr (.inl less)

theorem rank_data_lt : rank h chain limit (.data elt) < rank h chain limit (.ptr (.elt elt)) := lt_of_snd (by omega)

/-- A pointer comes before the element that it points to. -/
theorem rank_ptr_lt (chains : Chains h s.next chain) (pointsTo : PointsTo h s.next eltp elt) :
    rank h chain limit (.ptr eltp) < rank h chain limit (.data elt) := by
  rcases pointsTo.inBucket with rfl | ⟨elt2, reach, rfl⟩
  · exact lt_of_snd (by omega)
  · obtain ⟨here, linked⟩ := chains.isLinked reach
    have before := (chains.linked _).idxOf_lt (chains.nodup _) (chains.isLinked_iff.mp linked) pointsTo.points
    rw [rank, rank, ← here]
    exact lt_of_snd (by omega)

theorem rank_uniq_lt {bucket : ℕ} : rank h chain limit (.uniq bucket) < rank h chain limit (.ptr (.bucket bucket)) :=
  lt_of_snd (by omega)

theorem rank_uniq_lt_data : rank h chain limit (.uniq (h.getBucket elt.key)) < rank h chain limit (.data elt) :=
  lt_of_snd (by omega)

theorem rank_bucket_lt_data :
    rank h chain limit (.ptr (.bucket (h.getBucket elt.key))) < rank h chain limit (.data elt) := lt_of_snd (by omega)

/-- What `hashtbl_empty` holds comes before the elements of the bucket. -/
theorem rank_emptying_lt (here : h.getBucket elt.key = limit) (mem : m ∈ [.ptr (.bucket limit), .count]) :
    rank h chain limit m < rank h chain limit (.data elt) := by
  subst here
  simp only [List.mem_cons, List.not_mem_nil, or_false] at mem
  rcases mem with rfl | rfl <;> exact lt_of_snd (by omega)

/-- What a thread holds comes before what it locks. -/
theorem rank_lt {pc' : Pc κ} {m' : Mutex κ} (chains : Chains h s.next chain) (knows : Knows h s.next pc)
    (deleting : ∀ eltp elt, pc = .deleteCount eltp elt → h.getBucket elt.key < limit)
    (emptied : ∀ i, emptying pc = some i → i = limit) (ran : code h s pc = .ok (.lock m pc'))
    (mem : m' ∈ held h pc) : rank h chain limit m' < rank h chain limit m := by
  have uniq (seek : Seek κ) (bucket : ℕ) (same : ∀ elt, seek = .unique elt → bucket = h.getBucket elt.key)
      (mem : m' ∈ seek.held h) : m' = .uniq bucket := by
    cases seek with
    | unique elt =>
      rw [same elt rfl]
      exact List.mem_singleton.mp mem
    | _ => cases mem
  cases pc with
  | findInBucket seek bucket =>
    rcases code_findInBucket h ran with ⟨-, same⟩ | ⟨-, same⟩ <;> cases same
    rw [uniq seek bucket knows mem]
    exact rank_uniq_lt
  | search => rcases code_search h ran with ⟨-, same⟩ | ⟨_, -, ⟨-, same⟩ | ⟨-, same⟩⟩ <;> cases same
  | found seek bucket eltp elt =>
    obtain ⟨pointsTo, same⟩ := knows
    obtain rfl : m = .data elt := by cases seek <;> (cases ran; rfl)
    rcases List.mem_cons.mp mem with rfl | mem
    · exact rank_ptr_lt chains pointsTo
    · rw [uniq seek (h.getBucket elt.key) ?_ mem]
      · exact rank_uniq_lt_data
      · rintro elt2 rfl
        rw [of_decide_eq_true same]
  | missed seek => cases seek <;> cases ran
  | unlockLast seek => cases seek <;> cases ran
  | advance seek bucket eltp elt =>
    cases ran
    obtain ⟨searching, points, -⟩ := knows
    have pointsTo := chains.pointsTo searching.inBucket points
    rcases List.mem_cons.mp mem with rfl | mem
    · exact (rank_ptr_lt chains pointsTo).trans rank_data_lt
    · rw [uniq seek (h.getBucket elt.key) ?_ mem]
      · exact rank_uniq_lt_data.trans rank_data_lt
      · rintro elt2 rfl
        rw [(chains.isLinked_of_next searching.inBucket points).1, (searching.unique elt2 rfl).1]
  | nextPtr =>
    cases ran
    obtain rfl := List.mem_singleton.mp mem
    exact rank_data_lt
  | deleteCount eltp elt =>
    cases ran
    have small := deleting eltp elt rfl
    have data : rank h chain limit (.data elt) < rank h chain limit .count := lt_of_fst small
    simp only [held, List.mem_cons, List.not_mem_nil, or_false] at mem
    rcases mem with rfl | rfl
    · exact data
    · exact (rank_ptr_lt chains knows).trans data
  | deleteDecrement => cases code_deleteDecrement h ran
  | deletePtr deleter elt =>
    cases ran
    rcases List.mem_cons.mp mem with rfl | mem
    · exact rank_data_lt
    · refine lt_trans ?_ rank_data_lt
      cases deleter with
      | bykey eltp =>
        obtain rfl := List.mem_singleton.mp mem
        exact rank_ptr_lt chains knows
      | empty bucket =>
        obtain rfl := emptied bucket rfl
        exact rank_emptying_lt (chains.isLinked_of_next (.inl rfl) knows.points).1 mem
  | destroyData deleter => cases deleter <;> cases ran
  | addBucket =>
    cases ran
    obtain rfl := List.mem_singleton.mp mem
    exact rank_uniq_lt
  | addData =>
    cases ran
    simp only [held, List.mem_cons, List.not_mem_nil, or_false] at mem
    rcases mem with rfl | rfl
    · exact rank_bucket_lt_data
    · exact rank_uniq_lt_data
  | emptyBucket =>
    rcases code_emptyBucket h ran with ⟨-, same⟩ | same <;> cases same
    obtain rfl := List.mem_singleton.mp mem
    obtain rfl := emptied _ rfl
    exact lt_of_snd (by omega)
  | emptyFirst => rcases code_emptyFirst h ran with ⟨-, same⟩ | ⟨_, -, same⟩ <;> cases same
  | emptyData bucket elt =>
    cases ran
    obtain rfl := emptied bucket rfl
    exact rank_emptying_lt (chains.isLinked_of_next (.inl rfl) knows).1 mem
  | addCount | duplicateCount | emptyCount | getCount | addUniq => cases mem
  | _ => cases ran

/-! ## Runs -/

omit [DecidableEq κ] in
theorem count_mem_held {i : ℕ} (under : emptying pc = some i) : .count ∈ held h pc := by
  cases pc with
  | deletePtr deleter | unlink deleter | unlockPtr deleter | unlockData deleter | destroyPtr deleter
  | destroyData deleter =>
    cases deleter with
    | bykey => cases under
    | empty => simp [held, Deleter.held]
  | emptyZero | emptyBucket | emptyFirst | emptyData | emptyUnlock | freeEmptied => simp [held]
  | _ => cases under

/-- `hashtbl_empty` begins with the first bucket, and goes to a later one. -/
theorem code_emptying {i : ℕ} (ran : code h s pc = .ok instr) (now : emptying instr.after = some i) :
    pc = .emptyCount ∨ ∃ j ≤ i, emptying pc = some j := by
  cases pc with
  | findInBucket => rcases code_findInBucket h ran with ⟨-, rfl⟩ | ⟨rfl, rfl⟩ <;> cases now
  | search => rcases code_search h ran with ⟨-, rfl⟩ | ⟨_, -, ⟨-, rfl⟩ | ⟨-, rfl⟩⟩ <;> cases now
  | found seek => cases seek <;> (cases ran; cases now)
  | missed seek => cases seek <;> (cases ran; cases now)
  | unlockLast seek => cases seek <;> (cases ran; cases now)
  | deleteDecrement => rw [code_deleteDecrement h ran] at now; cases now
  | deletePtr deleter | unlink deleter | unlockPtr deleter | unlockData deleter | destroyPtr deleter
  | destroyData deleter =>
    cases deleter with
    | bykey => cases ran; cases now
    | empty => cases ran; exact .inr ⟨i, le_rfl, now⟩
  | emptyCount => exact .inl rfl
  | emptyZero => cases ran; exact .inr ⟨0, Nat.zero_le i, rfl⟩
  | emptyBucket =>
    rcases code_emptyBucket h ran with ⟨-, rfl⟩ | rfl
    · exact .inr ⟨i, le_rfl, now⟩
    · cases now
  | emptyFirst => rcases code_emptyFirst h ran with ⟨-, rfl⟩ | ⟨_, -, rfl⟩ <;> exact .inr ⟨i, le_rfl, now⟩
  | emptyData | freeEmptied => cases ran; exact .inr ⟨i, le_rfl, now⟩
  | emptyUnlock bucket => cases ran; cases now; exact .inr ⟨bucket, Nat.le_succ bucket, rfl⟩
  | _ =>
    cases ran
    cases now

/-- A thread that still needs the count found its element in the step before. -/
theorem code_deleteCount (ran : code h s pc = .ok instr) (now : instr.after = .deleteCount eltp elt) :
    ∃ key bucket, pc = .found (.delete key) bucket eltp elt := by
  cases pc with
  | findInBucket => rcases code_findInBucket h ran with ⟨-, rfl⟩ | ⟨rfl, rfl⟩ <;> cases now
  | search => rcases code_search h ran with ⟨-, rfl⟩ | ⟨_, -, ⟨-, rfl⟩ | ⟨-, rfl⟩⟩ <;> cases now
  | found seek =>
    cases seek with
    | delete key => cases ran; cases now; exact ⟨key, _, rfl⟩
    | _ => cases ran; cases now
  | missed seek => cases seek <;> (cases ran; cases now)
  | unlockLast seek => cases seek <;> (cases ran; cases now)
  | deleteDecrement => rw [code_deleteDecrement h ran] at now; cases now
  | destroyData deleter => cases deleter <;> (cases ran; cases now)
  | emptyBucket => rcases code_emptyBucket h ran with ⟨-, rfl⟩ | rfl <;> cases now
  | emptyFirst => rcases code_emptyFirst h ran with ⟨-, rfl⟩ | ⟨_, -, rfl⟩ <;> cases now
  | _ =>
    cases ran
    cases now

theorem exec_pc (done : exec s t instr = .ok s') : s'.pc = Function.update s.pc t instr.after := by
  cases instr with
  | lock | destroy =>
    rw [exec] at done
    split at done <;> cases done
    rfl
  | unlock =>
    rw [exec] at done
    split at done
    · cases done
    · cases done
    · split at done <;> cases done
      rfl
  | _ => cases done; rfl

omit [DecidableEq κ] in
theorem entry_at {c : Call κ} (admits : pc.admits c = true) :
    emptying (c.entry h pc) = none ∧ ∀ eltp elt, c.entry h pc ≠ .deleteCount eltp elt := by
  rcases Pc.admits_cases admits with rfl | ⟨elt, rfl, rfl | rfl⟩
  · cases c <;> exact ⟨rfl, nofun⟩
  · exact ⟨rfl, nofun⟩
  · exact ⟨rfl, nofun⟩

omit [DecidableEq κ] in
/-- One thread goes on. -/
theorem Ordered.update (ordered : Ordered h s) (moved : s'.pc = Function.update s.pc t pc)
    (empties : ∀ i, emptying pc = some i →
      (∀ u eltp elt, s.pc u ≠ .deleteCount eltp elt) ∨ ∃ j ≤ i, emptying (s.pc t) = some j)
    (deletes : ∀ eltp elt, pc = .deleteCount eltp elt → ∀ u i, emptying (s.pc u) = some i → h.getBucket elt.key < i) :
    Ordered h s' := by
  rw [Ordered, moved]
  intro u v i eltp elt now delete
  by_cases mine : u = t
  · subst mine
    rw [Function.update_self] at now
    by_cases both : v = u
    · subst both
      rw [Function.update_self] at delete
      rw [delete] at now
      cases now
    · rw [Function.update_of_ne both] at delete
      rcases empties i now with nobody | ⟨j, le, before⟩
      · exact absurd delete (nobody v eltp elt)
      · exact (ordered u v j eltp elt before delete).trans_le le
  · rw [Function.update_of_ne mine] at now
    by_cases mine' : v = t
    · subst mine'
      rw [Function.update_self] at delete
      exact deletes eltp elt delete u i now
    · rw [Function.update_of_ne mine'] at delete
      exact ordered u v i eltp elt now delete

theorem Ordered.step {action : Action κ} (ordered : Ordered h s) (enabled : Hashtbl.enabled h s action = true)
    (inOrder : InOrder h s action) (ran : Hashtbl.step h s action = .ok s') : Ordered h s' := by
  cases action with
  | call t c =>
    cases ran
    obtain ⟨notEmpty, notDelete⟩ := entry_at (h := h) (admits_of_enabled enabled)
    have moved : ({ s with allocated := c.allocate s.allocated }.move t (c.entry h (s.pc t))).pc =
        Function.update s.pc t (c.entry h (s.pc t)) := rfl
    refine ordered.update moved (fun i now => ?_) fun eltp elt now => absurd now (notDelete eltp elt)
    cases notEmpty.symm.trans now
  | step t =>
    obtain ⟨instr, next, done⟩ := Except.bind_eq_ok_iff.mp ran
    refine ordered.update (exec_pc done) (fun i now => ?_) fun eltp elt now => ?_
    · rcases code_emptying next now with start | before
      · simp only [InOrder, start] at inOrder
        exact .inl inOrder
      · exact .inr before
    · obtain ⟨key, bucket, found⟩ := code_deleteCount next now
      simpa only [InOrder, found] using inOrder

/-! ## The result -/

/-- The instruction uses the mutex, and does not initialise it. -/
def Instr.Uses (m : Mutex κ) : Instr κ → Prop
  | .lock mutex _ | .unlock mutex _ | .destroy mutex _ => mutex = m
  | _ => False

/-- What threads do next is right: they only unlock what they hold, they only use mutexes that are initialised and not
destroyed; and two elements with one key are not linked. -/
structure Safe (h : Hashtbl κ) (s : System κ) : Prop where
  unlocks : ∀ t m pc, code h s (s.pc t) = .ok (.unlock m pc) → s.mutexes m = .locked t
  uses : ∀ t instr m, code h s (s.pc t) = .ok instr → instr.Uses m → s.mutexes m ≠ .uninitialized
  keys : ∀ bucket bucket' elt elt2, Reach .elt s.next (.bucket bucket) elt → Reach .elt s.next (.bucket bucket') elt2 →
    elt.key = elt2.key → elt = elt2

/-- Some threads wait for each other in a circle. -/
def CyclicWait (h : Hashtbl κ) (s : System κ) : Prop :=
  ∃ t, Relation.TransGen (Mutexes.WaitsFor (fun t m => wanted h s t = some m) fun t m => s.mutexes m = .locked t) t t

theorem Invariant.safe (inv : Invariant h s) : Safe h s := by
  obtain ⟨chain, chains⟩ := inv.chains
  have unlocks (t : ℕ) (m : Mutex κ) (pc : Pc κ) (ran : code h s (s.pc t) = .ok (.unlock m pc)) :
      s.mutexes m = .locked t :=
    (inv.owned.locked_iff m t).mpr ((code_held ran).mem_iff.mpr List.mem_cons_self)
  refine ⟨unlocks, fun t instr m ran uses => ?_, fun bucket bucket' elt elt2 reach reach2 same => ?_⟩
  · cases instr with
    | lock mutex pc =>
      obtain rfl : mutex = m := uses
      rcases code_lock chains (inv.knows t) ran with shared | ⟨elt, linked, of⟩
      · exact inv.shared mutex shared
      · exact inv.linked elt linked mutex of
    | unlock mutex pc =>
      obtain rfl : mutex = m := uses
      rw [unlocks t mutex pc ran]
      nofun
    | destroy mutex pc =>
      obtain rfl : mutex = m := uses
      exact inv.usable t mutex (code_live ran).1
    | _ => cases uses
  · exact chains.eq_of_key (chains.isLinked reach).2 (chains.isLinked reach2).2 same

theorem wanted_eq_some (wants : wanted h s t = some m) : ∃ pc, code h s (s.pc t) = .ok (.lock m pc) := by
  rw [wanted] at wants
  split at wants
  · next ran =>
    cases wants
    exact ⟨_, ran⟩
  · cases wants

theorem Invariant.not_cyclicWait (inv : Invariant h s) (ordered : Ordered h s) : ¬ CyclicWait h s := by
  obtain ⟨chain, chains⟩ := inv.chains
  obtain ⟨limit, emptied, deleting⟩ : ∃ limit, (∀ t i, emptying (s.pc t) = some i → i = limit) ∧
      ∀ t eltp elt, s.pc t = .deleteCount eltp elt → h.getBucket elt.key < limit := by
    by_cases active : ∃ t i, emptying (s.pc t) = some i
    · obtain ⟨t, limit, now⟩ := active
      refine ⟨limit, fun u i other => ?_, fun u eltp elt => ordered t u limit eltp elt now⟩
      obtain rfl := inv.owned.exclusive (count_mem_held other) (count_mem_held now)
      exact Option.some.inj (other.symm.trans now)
    · exact ⟨h.noBuckets, fun t i now => absurd ⟨t, i, now⟩ active, fun _ _ elt _ => h.getBucket_lt elt.key⟩
  have locks (u : ℕ) (m m' : Mutex κ) (wants : wanted h s u = some m) (holds : s.mutexes m' = .locked u) :
      rank h chain limit m' < rank h chain limit m := by
    obtain ⟨pc, ran⟩ := wanted_eq_some wants
    exact rank_lt chains (inv.knows u) (deleting u) (emptied u) ran ((inv.owned.locked_iff m' u).mp holds)
  rintro ⟨t, cycle⟩
  exact Mutexes.acyclic_of_rank locks t cycle

/-- In every run, mutexes are used as they should be and keys stay unique. In a run in which deletes by key and
`hashtbl_empty` keep out of each other's way, no threads wait for each other in a circle. -/
theorem locks_in_order (h : Hashtbl κ) :
    (∀ s, (threads h).Reaches (fun _ _ => True) s → Safe h s) ∧
      ∀ s, (threads h).Reaches (InOrder h) s → ¬ CyclicWait h s := by
  refine ⟨fun s reaches => ?_, fun s reaches => ?_⟩
  · have inv : Invariant h s :=
      reaches.invariant hashtblInitDefault_invariant fun _ _ _ before enabled _ ran => before.step enabled ran
    exact inv.safe
  · have both : Invariant h s ∧ Ordered h s := by
      induction reaches with
      | start => exact ⟨hashtblInitDefault_invariant, fun _ _ _ _ _ => nofun⟩
      | step _ enabled inOrder ran ih => exact ⟨ih.1.step enabled ran, ih.2.step enabled inOrder ran⟩
    exact both.1.not_cyclicWait both.2

/-! ## The table of the partitions -/

/-- The table of `fuse_io.c` whose keys are the names of the partitions. -/
def entries : Hashtbl (List UInt8) where
  keyBits := 4
  hash := hashSdbm
  keyBits_pos := by decide
  keyBits_le := by decide

/-- An element with the key `p`, which belongs to the first bucket. -/
def eltP : Elt (List UInt8) := ⟨0, [112]⟩

/-- A thread adds an element and unlocks it. -/
def addP (t : ℕ) : List (Action (List UInt8)) :=
  .call t (.addElement eltP) :: List.replicate 15 (.step t) ++ [.call t .unlockElementByptr, .step t]

/-- A thread deletes the element while another one empties the table. -/
def race : List (Action (List UInt8)) :=
  addP 0 ++ [.call 0 (.deleteElementBykey [112]), .step 0, .step 0, .step 0, .call 1 .empty, .step 1, .step 1]

/-- The thread that deletes has the element and waits for the count, the other one has the count and waits for the
bucket. -/
theorem deletes_while_emptied : ∃ s, (threads entries).Reaches (fun _ _ => True) s ∧ CyclicWait entries s := by
  have computed : ((threads entries).attempt (enabled entries) (hashtblInitDefault entries) race).any (fun s =>
      wanted entries s 0 = some .count ∧ s.mutexes .count = .locked 1 ∧
        wanted entries s 1 = some (.ptr (.bucket 0)) ∧ s.mutexes (.ptr (.bucket 0)) = .locked 0) = true := by
    decide +kernel
  obtain ⟨s, ran, state⟩ := (Option.any_eq_true _ _).mp computed
  obtain ⟨wants, counts, wants', first⟩ := of_decide_eq_true state
  have reaches : (threads entries).Reaches (fun _ _ => True) s :=
    StepSystem.Reaches.start.of_attempt (fun _ _ good => ⟨good, True.intro⟩) ran
  refine ⟨s, reaches, 0, .tail (.single (b := 1) ⟨.count, wants, counts⟩) ⟨.ptr (.bucket 0), wants', first⟩⟩

/-- Neither is an element that was found for a delete locked, nor does `hashtbl_empty` begin. -/
def avoids (s : System (List UInt8)) : Action (List UInt8) → Bool
  | .step t =>
    match s.pc t with
    | .found (.delete _) _ _ _ | .emptyCount => false
    | _ => true
  | .call _ _ => true

theorem inOrder_of_avoids {s : System (List UInt8)} {action : Action (List UInt8)} (good : avoids s action = true) :
    InOrder entries s action := by
  cases action with
  | call => exact True.intro
  | step t =>
    rw [avoids] at good
    rw [InOrder]
    split at good
    · cases good
    · cases good
    · next notFound notEmpty =>
      split
      · next found => exact absurd found (notFound _ _ _ _)
      · next start => exact absurd start notEmpty
      · exact True.intro

/-- A thread that adds an element has it, and another one that looks for it waits. -/
theorem locks_in_order_found : ∃ s, (threads entries).Reaches (InOrder entries) s ∧ s.pc 0 = .handed eltP ∧
    wanted entries s 1 = some (.data eltP) ∧ Safe entries s ∧ ¬ CyclicWait entries s := by
  have computed : ((threads entries).attempt (fun s action => enabled entries s action && avoids s action)
      (hashtblInitDefault entries) (.call 0 (.addElement eltP) :: List.replicate 15 (.step 0) ++
        [.call 1 (.findElementBykey [112]), .step 1, .step 1])).any (fun s =>
      s.pc 0 = .handed eltP ∧ wanted entries s 1 = some (.data eltP)) = true := by
    decide +kernel
  obtain ⟨s, ran, state⟩ := (Option.any_eq_true _ _).mp computed
  obtain ⟨handed, waits⟩ := of_decide_eq_true state
  have reaches : (threads entries).Reaches (InOrder entries) s :=
    StepSystem.Reaches.start.of_attempt (fun _ _ good =>
      ⟨(Bool.and_eq_true_iff.mp good).1, inOrder_of_avoids (Bool.and_eq_true_iff.mp good).2⟩) ran
  exact ⟨s, reaches, handed, waits, (locks_in_order entries).1 s (reaches.mono fun _ _ _ => True.intro),
    (locks_in_order entries).2 s reaches⟩

end Scubed3.Hashtbl
