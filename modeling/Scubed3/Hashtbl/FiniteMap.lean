import Scubed3.Hashtbl.Traversal

/-! # A unique table is a finite map

For one thread, the elements that are present are a finite set in which no key occurs twice, whatever buckets they are
in. Every operation acts on this set as its name says, and answers accordingly.
-/

namespace Scubed3.HashtblCalls

open Hashtbl

variable {h : Conf} {t t' : Table h} {present : Finset (Elt (Key h))} {fuel : ℕ}

/-! ## The map -/

/-- The elements that are present after an operation. -/
def Op.effect (present : Finset (Elt (Key h))) : Op h → Finset (Elt (Key h))
  | .addElement elt => if ∀ e ∈ present, e.key ≠ elt.key then insert elt present else present
  | .deleteElementBykey key => present.filter fun e => e.key ≠ key
  | .deleteElementByptr elt => present.erase elt
  | .empty => ∅
  | .findElementBykey _ | .getCount | .tsTraverse => present

/-- An element that the thread comes with has an address of its own, and the key of an element that is present does not
change. -/
def Op.Valid (present : Finset (Elt (Key h))) : Op h → Prop
  | .addElement elt => elt.addr ≠ 0 ∧ ∀ e ∈ present, e.addr = elt.addr → e = elt
  | .deleteElementByptr elt => ∀ e ∈ present, e.addr = elt.addr → e = elt
  | .findElementBykey _ | .deleteElementBykey _ | .empty | .getCount | .tsTraverse => True

instance : (op : Op h) → Decidable (op.Valid present)
  | .addElement _ => inferInstanceAs (Decidable (_ ∧ ∀ e ∈ present, _))
  | .deleteElementByptr _ => inferInstanceAs (Decidable (∀ e ∈ present, _))
  | .findElementBykey _ | .deleteElementBykey _ | .empty | .getCount | .tsTraverse => inferInstanceAs (Decidable True)

/-- What an operation answers. A refused element changes nothing. -/
def Op.Correct (present : Finset (Elt (Key h))) (t t' : Table h) (answer : Answer h) : Op h → Prop
  | .addElement elt =>
    if ∀ e ∈ present, e.key ≠ elt.key then answer = .elt (some elt) else answer = .elt none ∧ t' = t
  | .findElementBykey key => ∃ found, answer = .elt found ∧ ∀ e, found = some e ↔ e ∈ present ∧ e.key = key
  | .deleteElementBykey _ | .deleteElementByptr _ | .empty => answer = .void
  | .getCount => answer = .count present.card
  | .tsTraverse => ∃ visited, answer = .visited visited ∧ visited.Nodup ∧ ∀ e, e ∈ visited ↔ e ∈ present

/-- One operation of a thread on a table that holds some elements. -/
structure Op.Performs (op : Op h) (present : Finset (Elt (Key h))) (t t' : Table h) (answer : Answer h) : Prop where
  correct : op.Correct present t t' answer
  /-- The function of the table is called once on every element that is deleted. -/
  freed : ∃ calls, t'.freed = calls ++ t.freed ∧ calls.Nodup ∧
    ∀ e, e ∈ calls ↔ h.freer = true ∧ e ∈ present ∧ e ∉ op.effect present

/-! ## One operation -/

theorem Op.card_effect_le (op : Op h) (present : Finset (Elt (Key h))) :
    (op.effect present).card ≤ present.card + 1 := by
  cases op with
  | addElement elt =>
    change (if ∀ e ∈ present, e.key ≠ elt.key then insert elt present else present).card ≤ _
    split
    · exact Finset.card_insert_le elt present
    · exact Nat.le_succ _
  | deleteElementBykey key => exact (Finset.card_le_card (Finset.filter_subset ..)).trans (Nat.le_succ _)
  | deleteElementByptr elt => exact (Finset.card_le_card (Finset.erase_subset ..)).trans (Nat.le_succ _)
  | empty => exact Nat.zero_le _
  | findElementBykey | getCount | tsTraverse => exact Nat.le_succ _

/-- The thread unlocks what it was handed. -/
theorem Lists.release_eq {elt : Elt (Key h)} (lists : Lists t present) (mem : elt ∈ present) :
    release (t.holding [.data elt]) (some elt) = .ok t := by
  have unlocks := ts_unlock (fun safe => (lists.quiet safe).data elt ((lists.mem_iff elt).mp mem)) List.not_mem_nil
  rwa [holding_nil] at unlocks

section Operations

variable (holds : Holds t present) (enough : present.card < fuel)

include holds enough

/-- Adding an element. -/
theorem Holds.run_addElement (unique : h.unique = true) {elt : Elt (Key h)}
    (valid : (Op.addElement elt).Valid present) :
    ∃ t' answer, (Op.addElement elt).run fuel t = .ret (t', answer) ∧
      Holds t' ((Op.addElement elt).effect present) ∧ (Op.addElement elt).Performs present t t' answer := by
  have added := holds.hashtblAddElement_eq unique valid.1 enough
  unfold Op.run
  dsimp only
  rw [added]
  by_cases absent : ∀ e ∈ present, e.key ≠ elt.key
  · have effect : (Op.addElement elt).effect present = insert elt present := if_pos absent
    have addrs : ∀ e ∈ present, e.addr ≠ elt.addr := fun e mem same => absent e mem (valid.2 e mem same ▸ rfl)
    have holds' := holds.inserted absent addrs
    rw [if_pos absent, effect, Draw.ret_bind]
    dsimp only
    rw [holds'.toLists.release_eq (Finset.mem_insert_self elt present)]
    refine ⟨_, _, rfl, holds', (if_pos absent).mpr rfl, [], rfl, List.nodup_nil, fun e => ?_⟩
    rw [effect, Finset.mem_insert]
    simp only [List.not_mem_nil, false_iff]
    tauto
  · have effect : (Op.addElement elt).effect present = present := if_neg absent
    rw [if_neg absent, effect]
    refine ⟨t, .elt none, rfl, holds, (if_neg absent).mpr ⟨rfl, rfl⟩, [], rfl, List.nodup_nil, fun e => ?_⟩
    rw [effect]
    simp

/-- Looking for a key. -/
theorem Holds.run_findElementBykey (key : Key h) :
    ∃ answer, (Op.findElementBykey key).run fuel t = .ret (t, answer) ∧
      (Op.findElementBykey key).Correct present t t answer := by
  unfold Op.run hashtblFindElementBykey
  by_cases absent : ∀ e ∈ present, e.key ≠ key
  · dsimp only
    rw [holds.findElementInBucket_missed absent enough]
    exact ⟨.elt none, rfl, none, rfl, fun e => ⟨nofun, fun ⟨mem, same⟩ => absurd same (absent e mem)⟩⟩
  · obtain ⟨elt, mem, rfl⟩ : ∃ e ∈ present, e.key = key := by
      by_contra none
      exact absent fun e mem same => none ⟨e, mem, same⟩
    dsimp only
    rw [holds.findElementInBucket_found mem enough, Draw.ret_bind]
    dsimp only
    rw [holds.toLists.release_eq mem]
    refine ⟨.elt (some elt), rfl, some elt, rfl, fun e => ⟨fun same => ?_, fun ⟨memE, same⟩ => ?_⟩⟩
    · cases same
      exact ⟨mem, rfl⟩
    · rw [holds.eq_of_key memE mem same]

/-- Deleting by key or by pointer: `compare` tells the element that is deleted, if any. -/
theorem Holds.deletes {bucket : ℕ} (compare : Elt (Key h) → Except Failure Bool) (gone : Elt (Key h) → Bool)
    (bounded : bucket < h.buckets.noBuckets)
    (compares : ∀ e ∈ present, h.buckets.getBucket e.key = bucket → compare e = .ok (gone e))
    (inBucket : ∀ e ∈ present, gone e = true → h.buckets.getBucket e.key = bucket)
    (single : ∀ e ∈ present, ∀ e2 ∈ present, gone e = true → gone e2 = true → e = e2) :
    ∃ t', deleteElementFromBucket compare fuel t bucket = .ret t' ∧ Holds t' (present.filter fun e => ¬ gone e = true) ∧
      Frees t t' present (present.filter fun e => ¬ gone e = true) := by
  by_cases some : ∃ elt ∈ present, gone elt = true
  · obtain ⟨elt, mem, this⟩ := some
    obtain rfl := inBucket elt mem this
    have rest : (present.filter fun e => ¬ gone e = true) = present.erase elt := by
      ext e
      rw [Finset.mem_filter, Finset.mem_erase, and_comm]
      refine and_congr_left fun memE => ⟨fun other same => other (same ▸ this), fun other goes => other ?_⟩
      exact single e memE elt mem goes this
    rw [rest]
    refine holds.deleteElementFromBucket_found mem (fun e memE here => ?_) enough
    rw [compares e memE here]
    refine congrArg Except.ok ?_
    by_cases same : e = elt
    · rw [same, this, decide_eq_true rfl]
    · rw [decide_eq_false same]
      exact Bool.eq_false_iff.mpr fun goes => same (single e memE elt mem goes this)
  · have none (e : Elt (Key h)) (mem : e ∈ present) : gone e = false :=
      Bool.eq_false_iff.mpr fun goes => some ⟨e, mem, goes⟩
    have rest : (present.filter fun e => ¬ gone e = true) = present :=
      Finset.filter_true_of_mem fun e mem goes => some ⟨e, mem, goes⟩
    rw [rest]
    refine ⟨t, holds.deleteElementFromBucket_missed bounded (fun e mem here => ?_) enough, holds, .refl t present⟩
    rw [compares e mem here, none e mem]

/-- Visiting all elements. -/
theorem Holds.run_tsTraverse : ∃ answer, Op.tsTraverse.run fuel t = .ret (t, answer) ∧
    Op.tsTraverse.Correct present t t answer := by
  obtain ⟨chain, chains⟩ := holds.chains
  have ran := holds.toLists.hashtblTsTraverse chains enough
    (fun (visited : List (Elt (Key h))) elt => (visited ++ [elt], 0)) (fun _ _ => show (0 : ℤ) ≠ -1 by decide) []
  have collects (l visited : List (Elt (Key h))) :
      l.foldl (fun visited elt => visited ++ [elt]) visited = visited ++ l := by
    induction l generalizing visited with
    | nil => exact (List.append_nil visited).symm
    | cons e l ih => rw [List.foldl_cons, ih, List.append_assoc, List.singleton_append]
  refine ⟨.visited (eltsFrom h chain 0), ?_, _, rfl, nodup_eltsFrom chains 0, fun e => holds.toLists.mem_eltsFrom chains⟩
  unfold Op.run
  dsimp only
  rw [ran, Draw.ret_bind]
  dsimp only
  rw [collects, List.nil_append]
  rfl

end Operations

/-- Every operation comes to an end, answers correctly and keeps the table. -/
theorem Holds.run (holds : Holds t present) (enough : present.card < fuel) (unique : h.unique = true) (op : Op h)
    (valid : op.Valid present) :
    ∃ t' answer, op.run fuel t = .ret (t', answer) ∧ Holds t' (op.effect present) ∧ op.Performs present t t' answer := by
  have nothing (op : Op h) (effect : op.effect present = present) : ∃ calls, t.freed = calls ++ t.freed ∧ calls.Nodup ∧
      ∀ e, e ∈ calls ↔ h.freer = true ∧ e ∈ present ∧ e ∉ op.effect present :=
    ⟨[], rfl, List.nodup_nil, fun e => by simp [effect]⟩
  cases op with
  | addElement elt => exact holds.run_addElement enough unique valid
  | findElementBykey key =>
    obtain ⟨answer, ran, correct⟩ := holds.run_findElementBykey enough key
    exact ⟨t, answer, ran, holds, correct, nothing _ rfl⟩
  | deleteElementBykey key =>
    obtain ⟨t', ran, holds', frees⟩ := holds.deletes enough (compareKey key) (fun e => decide (key = e.key))
      (getBucket_lt ..) (fun e _ _ => HashtblCalls.compareKey_eq key e) (fun e _ same => by rw [← of_decide_eq_true same])
      fun e mem e2 mem2 same same2 =>
        holds.eq_of_key mem mem2 ((of_decide_eq_true same).symm.trans (of_decide_eq_true same2))
    have effect : (present.filter fun e => ¬ decide (key = e.key) = true) =
        (Op.deleteElementBykey key).effect present :=
      Finset.filter_congr fun e _ => by rw [decide_eq_true_iff, eq_comm]
    rw [effect] at holds' frees
    unfold Op.run hashtblDeleteElementBykey
    dsimp only
    rw [ran]
    exact ⟨t', .void, rfl, holds', rfl, frees.calls⟩
  | deleteElementByptr elt =>
    obtain ⟨t', ran, holds', frees⟩ := holds.deletes enough (comparePtr elt)
      (fun e => decide (elt.addr = e.addr)) (getBucket_lt h.buckets elt.key) (fun e _ _ => rfl)
      (fun e mem same => by rw [valid e mem (of_decide_eq_true same).symm]) fun e mem e2 mem2 same same2 =>
        (valid e mem (of_decide_eq_true same).symm).trans (valid e2 mem2 (of_decide_eq_true same2).symm).symm
    have effect : (present.filter fun e => ¬ decide (elt.addr = e.addr) = true) =
        (Op.deleteElementByptr elt).effect present := by
      change _ = present.erase elt
      ext e
      rw [Finset.mem_filter, Finset.mem_erase, and_comm, decide_eq_true_iff]
      exact and_congr_left fun mem => not_congr ⟨fun same => valid e mem same.symm, fun same => by rw [same]⟩
    rw [effect] at holds' frees
    unfold Op.run hashtblDeleteElementByptr
    dsimp only
    rw [ran]
    exact ⟨t', .void, rfl, holds', rfl, frees.calls⟩
  | empty =>
    obtain ⟨t', ran, holds', frees⟩ := holds.hashtblEmpty enough
    unfold Op.run
    dsimp only
    rw [ran]
    exact ⟨t', .void, rfl, holds', rfl, frees.calls⟩
  | getCount =>
    unfold Op.run
    dsimp only
    rw [holds.hashtblGetCount]
    exact ⟨t, .count present.card, rfl, holds, rfl, nothing _ rfl⟩
  | tsTraverse =>
    obtain ⟨answer, ran, correct⟩ := holds.run_tsTraverse enough
    exact ⟨t, answer, ran, holds, correct, nothing _ rfl⟩

/-! ## Any sequence of operations -/

/-- The thread never comes with an element whose address is taken, and keys do not change. -/
def ValidFrom : Finset (Elt (Key h)) → List (Op h) → Prop
  | _, [] => True
  | present, op :: ops => op.Valid present ∧ ValidFrom (op.effect present) ops

instance validFromDecidable : (present : Finset (Elt (Key h))) → (ops : List (Op h)) → Decidable (ValidFrom present ops)
  | _, [] => inferInstanceAs (Decidable True)
  | present, op :: ops => @instDecidableAnd _ _ _ (validFromDecidable (op.effect present) ops)

/-- Every operation of a history did what it is for. -/
inductive Performed : Finset (Elt (Key h)) → Table h → List (Op h) → List (Table h × Answer h) → Prop
  | nil (present : Finset (Elt (Key h))) (t : Table h) : Performed present t [] []
  | cons {present : Finset (Elt (Key h))} {t t' : Table h} {op : Op h} {ops : List (Op h)} {answer : Answer h}
      {history : List (Table h × Answer h)} (performs : op.Performs present t t' answer)
      (rest : Performed (op.effect present) t' ops history) : Performed present t (op :: ops) ((t', answer) :: history)

theorem Holds.runAll (holds : Holds t present) (unique : h.unique = true) {ops : List (Op h)}
    (valid : ValidFrom present ops) (enough : present.card + ops.length < fuel) :
    ∃ history, HashtblCalls.runAll fuel t ops = .ret history ∧ Performed present t ops history := by
  induction ops generalizing t present with
  | nil => exact ⟨[], rfl, .nil present t⟩
  | cons op ops ih =>
    rw [List.length_cons] at enough
    obtain ⟨t', answer, ran, holds', performs⟩ := holds.run (show present.card < fuel by omega) unique op valid.1
    have card := op.card_effect_le present
    obtain ⟨history, rest, performed⟩ := ih holds' valid.2 (by omega)
    refine ⟨(t', answer) :: history, ?_, .cons performs performed⟩
    rw [HashtblCalls.runAll, ran, Draw.ret_bind]
    dsimp only
    rw [rest]
    rfl

theorem hashtblInitDefault_holds (h : Conf) : Holds (hashtblInitDefault h) ∅ := by
  have none (bucket : ℕ) (elt : Elt (Key h)) :
      ¬ LinkedCells.Reach .elt (hashtblInitDefault h).next (.bucket bucket) elt := fun reach => reach.next_ne_none rfl
  refine ⟨⟨⟨fun _ => [], fun _ => rfl, nofun, fun _ => List.nodup_nil⟩, fun elt => ⟨nofun, fun linked =>
    absurd linked (none _ elt)⟩, fun safe => ⟨fun bucket bounded => if_pos ⟨safe, bounded⟩, fun elt linked =>
    absurd linked (none _ elt), fun elt linked => absurd linked (none _ elt)⟩⟩, rfl, nofun, fun safe => if_pos safe,
    fun safe unique bucket bounded => if_pos ⟨safe, unique, bounded⟩⟩

/-- A unique table that one thread uses is a finite map, whatever its keys and its buckets are: every operation of every
sequence comes to an end and does to the set of elements what its name says. -/
theorem hashtbl_finite_map (h : Conf) (unique : h.unique = true) {ops : List (Op h)} (valid : ValidFrom ∅ ops)
    {fuel : ℕ} (enough : ops.length < fuel) :
    ∃ history, runAll fuel (hashtblInitDefault h) ops = .ret history ∧ Performed ∅ (hashtblInitDefault h) ops history :=
  (hashtblInitDefault_holds h).runAll unique valid (by rwa [Finset.card_empty, Nat.zero_add])

/-- A thread-safe table of two buckets, with two bytes as keys. -/
def twoBuckets : Conf where
  keySize := 2
  keyBits := 1
  threadSafe := true
  unique := true
  freer := true
  keyBits_pos := by decide
  keyBits_le := by decide
  keySize_ge := by decide
  binary := by decide

def twoBytes (first second : UInt8) : Key twoBuckets := ⟨[first, second], fun negative => absurd negative (by decide), fun _ => rfl⟩

/-- Two elements of one bucket and one of the other, one of them twice. -/
def someOps : List (Op twoBuckets) :=
  [.addElement ⟨1, twoBytes 4 0⟩, .addElement ⟨2, twoBytes 6 0⟩, .addElement ⟨3, twoBytes 4 0⟩,
    .addElement ⟨4, twoBytes 5 0⟩, .findElementBykey (twoBytes 6 0), .tsTraverse, .deleteElementByptr ⟨1, twoBytes 4 0⟩,
    .deleteElementBykey (twoBytes 9 9), .getCount, .empty, .tsTraverse]

theorem hashtbl_finite_map_someOps : ∃ history, runAll 12 (hashtblInitDefault twoBuckets) someOps = .ret history ∧
    Performed ∅ (hashtblInitDefault twoBuckets) someOps history :=
  hashtbl_finite_map twoBuckets rfl (by decide) (by decide)

end Scubed3.HashtblCalls
