import Scubed3.Hashtbl.Lists
import Scubed3.Model.HashtblCalls
import Mathlib.Data.Finset.Card

/-! # Searching a list with one thread

Between two operations no mutex is locked. A search holds the mutex of the pointer it looks at; an element that it
finds is handed over with its data mutex, and with the mutex of the pointer to it.
-/

namespace Scubed3.HashtblCalls

open Hashtbl LinkedCells

variable {h : Conf} {t : Table h} {held held' : List (Mutex (Key h))} {m : Mutex (Key h)} {c eltp : Cell (Key h)}
  {elt : Elt (Key h)} {l : List (Elt (Key h))} {bucket fuel : ℕ}

/-! ## Mutexes that are held -/

/-- The thread holds some mutexes. -/
def Table.holding (t : Table h) (held : List (Mutex (Key h))) : Table h :=
  { t with mutexes := fun m => if h.threadSafe = true ∧ m ∈ held then .locked 0 else t.mutexes m }

@[simp] theorem holding_nil (t : Table h) : t.holding [] = t := by
  unfold Table.holding
  simp

@[simp] theorem holding_next (t : Table h) (held : List (Mutex (Key h))) : (t.holding held).next = t.next := rfl

@[simp] theorem holding_count (t : Table h) (held : List (Mutex (Key h))) : (t.holding held).count = t.count := rfl

theorem holding_congr (same : ∀ x, x ∈ held ↔ x ∈ held') : t.holding held = t.holding held' := by
  unfold Table.holding
  simp only [same]

theorem ts_of_not (safe : ¬ h.threadSafe = true) (action : Table h → Except Failure (Table h)) :
    t.ts action = .ok t := if_neg safe

theorem ts_of (safe : h.threadSafe = true) (action : Table h → Except Failure (Table h)) : t.ts action = action t :=
  if_pos safe

theorem holding_of_not (safe : ¬ h.threadSafe = true) : t.holding held = t := by
  unfold Table.holding
  simp [safe]

theorem lock_holding (safe : h.threadSafe = true) (free : t.mutexes m = .unlocked) (fresh : m ∉ held) :
    (t.holding held).lock m = .ok (t.holding (m :: held)) := by
  have here : (t.holding held).mutexes m = .unlocked := (if_neg fun locked => fresh locked.2).trans free
  unfold Table.lock
  rw [here]
  refine congrArg Except.ok ?_
  unfold Table.setMutex Table.holding
  congr 1
  funext x
  by_cases same : x = m
  · rw [same, Function.update_self, if_pos ⟨safe, List.mem_cons_self⟩]
  · simp only [Function.update_of_ne same, List.mem_cons, same, false_or]

theorem unlock_holding (safe : h.threadSafe = true) (free : t.mutexes m = .unlocked) (fresh : m ∉ held) :
    (t.holding (m :: held)).unlock m = .ok (t.holding held) := by
  have here : (t.holding (m :: held)).mutexes m = .locked 0 := if_pos ⟨safe, List.mem_cons_self⟩
  unfold Table.unlock
  rw [here]
  refine congrArg Except.ok ?_
  unfold Table.setMutex Table.holding
  congr 1
  funext x
  by_cases same : x = m
  · rw [same, Function.update_self, if_neg fun locked => fresh locked.2, free]
  · simp only [Function.update_of_ne same, List.mem_cons, same, false_or]

theorem setMutex_holding (t : Table h) (state : MutexState) (fresh : m ∉ held) :
    (t.holding held).setMutex m state = (t.setMutex m state).holding held := by
  unfold Table.setMutex Table.holding
  congr 1
  funext x
  by_cases same : x = m
  · rw [same, Function.update_self, if_neg fun locked => fresh locked.2]
    exact (Function.update_self m state t.mutexes).symm
  · simp only [Function.update_of_ne same]

theorem destroy_holding (free : t.mutexes m = .unlocked) (fresh : m ∉ held) :
    (t.holding held).destroy m = .ok ((t.setMutex m .uninitialized).holding held) := by
  have here : (t.holding held).mutexes m = .unlocked := (if_neg fun locked => fresh locked.2).trans free
  unfold Table.destroy
  rw [here]
  exact congrArg Except.ok (setMutex_holding t _ fresh)

theorem ts_lock (free : h.threadSafe = true → t.mutexes m = .unlocked) (fresh : m ∉ held) :
    (t.holding held).ts (·.lock m) = .ok (t.holding (m :: held)) := by
  by_cases safe : h.threadSafe = true
  · rw [ts_of safe, lock_holding safe (free safe) fresh]
  · rw [ts_of_not safe, holding_of_not safe, holding_of_not safe]

theorem ts_unlock (free : h.threadSafe = true → t.mutexes m = .unlocked) (fresh : m ∉ held) :
    (t.holding (m :: held)).ts (·.unlock m) = .ok (t.holding held) := by
  by_cases safe : h.threadSafe = true
  · rw [ts_of safe, unlock_holding safe (free safe) fresh]
  · rw [ts_of_not safe, holding_of_not safe, holding_of_not safe]

/-! ## Lists -/

section Search

variable {compare : Elt (Key h) → Except Failure Bool} {cmp : Elt (Key h) → Bool}

/-- The mutexes of a list are not locked, from a pointer on. -/
structure Free (t : Table h) (c : Cell (Key h)) (l : List (Elt (Key h))) : Prop where
  first : t.mutexes (.ptr c) = .unlocked
  ptr : ∀ elt ∈ l, t.mutexes (.ptr (.elt elt)) = .unlocked
  data : ∀ elt ∈ l, t.mutexes (.data elt) = .unlocked

theorem Free.tail (free : Free t c (elt :: l)) : Free t (.elt elt) l :=
  ⟨free.ptr elt List.mem_cons_self, fun e mem => free.ptr e (List.mem_cons_of_mem _ mem),
    fun e mem => free.data e (List.mem_cons_of_mem _ mem)⟩

/-- One turn at an element that is not the one. -/
theorem findElementpStartingAt_next (points : t.next c = some elt) (other : compare elt = .ok false)
    (free : h.threadSafe = true → Free t c (elt :: l)) (apart : .elt elt ≠ c) :
    findElementpStartingAt compare (fuel + 1) (t.holding [.ptr c]) (.ptr c) c =
      findElementpStartingAt compare fuel (t.holding [.ptr (.elt elt)]) (.ptr (.elt elt)) (.elt elt) := by
  have handOverHand : (t.holding [.ptr c]).ts (fun t => do
      let t ← t.lock (.ptr (.elt elt))
      t.unlock (.ptr c)) = .ok (t.holding [.ptr (.elt elt)]) := by
    by_cases safe : h.threadSafe = true
    · have fresh : Mutex.ptr (.elt elt) ∉ [Mutex.ptr c] := by simpa using apart
      have fresh' : Mutex.ptr c ∉ [Mutex.ptr (.elt elt)] := by simpa using apart.symm
      have swap : t.holding [.ptr (.elt elt), .ptr c] = t.holding [.ptr c, .ptr (.elt elt)] :=
        holding_congr fun x => by simp [or_comm]
      rw [ts_of safe, lock_holding safe ((free safe).ptr elt List.mem_cons_self) fresh]
      refine Except.bind_eq_ok_iff.mpr ⟨_, rfl, ?_⟩
      rw [swap, unlock_holding safe (free safe).first fresh']
    · rw [ts_of_not safe, holding_of_not safe, holding_of_not safe]
  rw [findElementpStartingAt]
  simp only [holding_next, points, other, Draw.lift_ok, Draw.ret_bind, Bool.false_eq_true, if_false]
  rw [handOverHand, Draw.lift_ok, Draw.ret_bind]

/-- Nothing is found: nothing is locked afterwards. -/
theorem findElementpStartingAt_missed (linked : Linked .elt t.next c l) (others : ∀ elt ∈ l, compare elt = .ok false)
    (free : h.threadSafe = true → Free t c l) (distinct : (c :: l.map .elt).Nodup) (enough : l.length < fuel) :
    findElementpStartingAt compare fuel (t.holding [.ptr c]) (.ptr c) c = .ret (t, none) := by
  induction l generalizing c fuel with
  | nil =>
    obtain ⟨fuel, rfl⟩ := Nat.exists_eq_add_one_of_ne_zero (Nat.ne_of_gt enough)
    have ends : t.next c = none := linked
    rw [findElementpStartingAt]
    simp only [holding_next, ends]
    rw [ts_unlock (fun safe => (free safe).first) List.not_mem_nil, holding_nil]
    rfl
  | cons elt l ih =>
    obtain ⟨fuel, rfl⟩ := Nat.exists_eq_add_one_of_ne_zero (Nat.ne_of_gt (Nat.zero_lt_of_lt enough))
    rw [List.map_cons, List.nodup_cons] at distinct
    have apart : .elt elt ≠ c := fun same => distinct.1 (same ▸ List.mem_cons_self)
    rw [findElementpStartingAt_next linked.1 (others elt List.mem_cons_self) free apart]
    exact ih linked.2 (fun e mem => others e (List.mem_cons_of_mem _ mem)) (fun safe => (free safe).tail) distinct.2
      (Nat.lt_of_succ_lt_succ enough)

/-- The first element is the one: its data and the pointer to it are locked. -/
theorem findElementpStartingAt_first (points : t.next c = some elt) (this : compare elt = .ok true)
    (free : h.threadSafe = true → t.mutexes (.data elt) = .unlocked) (enough : 0 < fuel) :
    findElementpStartingAt compare fuel (t.holding [.ptr c]) (.ptr c) c =
      .ret (t.holding [.data elt, .ptr c], some (c, .ptr c)) := by
  obtain ⟨fuel, rfl⟩ := Nat.exists_eq_add_one_of_ne_zero enough.ne'
  rw [findElementpStartingAt]
  simp only [holding_next, points, this, Draw.lift_ok, Draw.ret_bind, if_true]
  rw [ts_lock free (by simp)]
  rfl

/-- The pointer is unlocked, and the element is handed over. -/
theorem handOver_eq (points : t.next c = some elt) (free : h.threadSafe = true → t.mutexes (.ptr c) = .unlocked) :
    handOver (t.holding [.data elt, .ptr c]) (some (c, .ptr c)) = .ok (t.holding [.data elt], some elt) := by
  have swap : t.holding [.data elt, .ptr c] = t.holding [.ptr c, .data elt] := holding_congr fun x => by simp [or_comm]
  unfold handOver
  dsimp only
  rw [holding_next, points, swap, ts_unlock free (by simp)]
  rfl

/-- An element is found later in the list. -/
theorem findElementpStartingAt_found {before after : List (Elt (Key h))}
    (linked : Linked .elt t.next c (before ++ elt :: after)) (others : ∀ e ∈ before, compare e = .ok false)
    (this : compare elt = .ok true) (free : h.threadSafe = true → Free t c (before ++ elt :: after))
    (distinct : (c :: (before ++ elt :: after).map .elt).Nodup) (enough : before.length < fuel) :
    ∃ eltp, OnList .elt c (before ++ elt :: after) eltp ∧ t.next eltp = some elt ∧
      findElementpStartingAt compare fuel (t.holding [.ptr c]) (.ptr c) c =
        .ret (t.holding [.data elt, .ptr eltp], some (eltp, .ptr eltp)) := by
  induction before generalizing c fuel with
  | nil =>
    exact ⟨c, .inl rfl, linked.1, findElementpStartingAt_first linked.1 this
      (fun safe => (free safe).data elt List.mem_cons_self) enough⟩
  | cons e before ih =>
    obtain ⟨fuel, rfl⟩ := Nat.exists_eq_add_one_of_ne_zero (Nat.ne_of_gt (Nat.zero_lt_of_lt enough))
    rw [List.cons_append, List.map_cons, List.nodup_cons] at distinct
    have apart : .elt e ≠ c := fun same => distinct.1 (same ▸ List.mem_cons_self)
    obtain ⟨eltp, on, points, ran⟩ := ih linked.2 (fun e mem => others e (List.mem_cons_of_mem _ mem))
      (fun safe => (free safe).tail) distinct.2 (Nat.lt_of_succ_lt_succ enough)
    refine ⟨eltp, onList_cons_iff.mpr (.inr on), points, ?_⟩
    rw [findElementpStartingAt_next linked.1 (others e List.mem_cons_self) free apart, ran]

end Search

/-! ## Comparing -/

/-- `compare_key` decides whether two keys are the same. -/
theorem compareKey_eq (key : Key h) (elt : Elt (Key h)) : compareKey key elt = .ok (decide (key = elt.key)) := by
  have positive := h.keyBits_pos
  have size : h.keySize ≠ 0 := fun zero => by have := (h.binary zero.ge).1; omega
  have same : key.bytes = elt.key.bytes ↔ key = elt.key := by
    constructor
    · intro bytes
      cases key
      cases keyEq : elt.key
      rw [keyEq] at bytes
      cases bytes
      rfl
    · exact fun keys => congrArg Key.bytes keys
  unfold compareKey
  rw [check_of _ _ size]
  change (if h.keySize < 0 ∧ key.bytes = elt.key.bytes then _ else _) = _
  by_cases string : h.keySize < 0
  · by_cases equal : key = elt.key
    · rw [if_pos ⟨string, same.mpr equal⟩, decide_eq_true equal]
      rfl
    · rw [if_neg fun both => equal (same.mp both.2), if_neg fun both => by omega, decide_eq_false equal]
      rfl
  · have whole (key : Key h) : key.bytes.take h.keySize.toNat = key.bytes := by
      have length := key.binary (by omega)
      exact List.take_of_length_le (by omega)
    rw [if_neg fun both => string both.1, whole, whole]
    by_cases equal : key = elt.key
    · rw [if_pos ⟨by omega, same.mpr equal⟩, decide_eq_true equal]
      rfl
    · rw [if_neg fun both => equal (same.mp both.2), decide_eq_false equal]
      rfl

/-! ## A table and its elements -/

/-- The mutexes of a thread-safe table that nobody searches. -/
structure Quiet (t : Table h) : Prop where
  bucket : ∀ bucket < h.buckets.noBuckets, t.mutexes (.ptr (.bucket bucket)) = .unlocked
  ptr : ∀ elt, IsLinked h.buckets t.next elt → t.mutexes (.ptr (.elt elt)) = .unlocked
  data : ∀ elt, IsLinked h.buckets t.next elt → t.mutexes (.data elt) = .unlocked

/-- The lists of the table have these elements. -/
structure Lists (t : Table h) (present : Finset (Elt (Key h))) : Prop where
  chains : ∃ chain, Chains h.buckets t.next chain
  mem_iff : ∀ elt, elt ∈ present ↔ IsLinked h.buckets t.next elt
  quiet : h.threadSafe = true → Quiet t

/-- Between two operations, the table holds these elements. -/
structure Holds (t : Table h) (present : Finset (Elt (Key h))) : Prop extends Lists t present where
  count : t.count = present.card
  addrs : ∀ elt ∈ present, ∀ elt2 ∈ present, elt.addr = elt2.addr → elt = elt2
  countMutex : h.threadSafe = true → t.mutexes .count = .unlocked
  uniqMutex : h.threadSafe = true → h.unique = true → ∀ bucket < h.buckets.noBuckets,
    t.mutexes (.uniq bucket) = .unlocked

namespace Lists

variable {present : Finset (Elt (Key h))} (lists : Lists t present)

include lists

/-- Two elements with one key are not present. -/
theorem eq_of_key {elt2 : Elt (Key h)} (mem : elt ∈ present) (mem2 : elt2 ∈ present) (same : elt.key = elt2.key) :
    elt = elt2 := by
  obtain ⟨chain, chains⟩ := lists.chains
  exact chains.eq_of_key ((lists.mem_iff elt).mp mem) ((lists.mem_iff elt2).mp mem2) same

/-- The mutexes of the pointers of a bucket are not locked. -/
theorem unlocked_of_inBucket (safe : h.threadSafe = true) (bounded : bucket < h.buckets.noBuckets)
    (inBucket : InBucket t.next bucket eltp) : t.mutexes (.ptr eltp) = .unlocked := by
  obtain ⟨chain, chains⟩ := lists.chains
  rcases inBucket with rfl | ⟨e, reach, rfl⟩
  · exact (lists.quiet safe).bucket _ bounded
  · exact (lists.quiet safe).ptr e (chains.isLinked reach).2

section Chain

variable {chain : ℕ → List (Elt (Key h))} (chains : Chains h.buckets t.next chain)

include chains

theorem mem_chain_iff : elt ∈ chain bucket ↔ elt ∈ present ∧ h.buckets.getBucket elt.key = bucket := by
  rw [lists.mem_iff]
  constructor
  · intro mem
    obtain rfl := chains.bucket bucket elt mem
    exact ⟨chains.isLinked_iff.mpr mem, rfl⟩
  · rintro ⟨linked, rfl⟩
    exact chains.isLinked_iff.mp linked

theorem length_le (bucket : ℕ) : (chain bucket).length ≤ present.card := by
  rw [← List.toFinset_card_of_nodup (chains.nodup bucket)]
  exact Finset.card_le_card fun elt mem => ((lists.mem_chain_iff chains).mp (List.mem_toFinset.mp mem)).1

theorem free (safe : h.threadSafe = true) (bounded : bucket < h.buckets.noBuckets) :
    Free t (.bucket bucket) (chain bucket) := by
  have quiet := lists.quiet safe
  have linked (elt : Elt (Key h)) (mem : elt ∈ chain bucket) : IsLinked h.buckets t.next elt :=
    (lists.mem_iff elt).mp ((lists.mem_chain_iff chains).mp mem).1
  exact ⟨quiet.bucket bucket bounded, fun elt mem => quiet.ptr elt (linked elt mem),
    fun elt mem => quiet.data elt (linked elt mem)⟩

omit lists in
theorem distinct (bucket : ℕ) : (Cell.bucket bucket :: (chain bucket).map Cell.elt).Nodup := by
  refine List.nodup_cons.mpr ⟨fun mem => ?_, (chains.nodup bucket).map fun _ _ => Cell.elt.inj⟩
  obtain ⟨_, -, same⟩ := List.mem_map.mp mem
  cases same

end Chain

variable {compare : Elt (Key h) → Except Failure Bool}

/-- The mutex of a bucket is locked, and its list is searched. -/
theorem findElementpInBucket_eq (bounded : bucket < h.buckets.noBuckets) :
    findElementpInBucket compare fuel t bucket =
      findElementpStartingAt compare fuel (t.holding [.ptr (.bucket bucket)]) (.ptr (.bucket bucket))
        (.bucket bucket) := by
  have locked : t.ts (·.lock (.ptr (.bucket bucket))) = .ok (t.holding [.ptr (.bucket bucket)]) := by
    have locks := ts_lock (fun safe => (lists.quiet safe).bucket bucket bounded) List.not_mem_nil
    rwa [holding_nil] at locks
  unfold findElementpInBucket
  rw [check_of _ _ bounded, Draw.lift_ok, Draw.ret_bind, locked, Draw.lift_ok, Draw.ret_bind]

/-- No element of a bucket is the one. -/
theorem findElementpInBucket_missed (bounded : bucket < h.buckets.noBuckets)
    (others : ∀ elt ∈ present, h.buckets.getBucket elt.key = bucket → compare elt = .ok false)
    (enough : present.card < fuel) : findElementpInBucket compare fuel t bucket = .ret (t, none) := by
  obtain ⟨chain, chains⟩ := lists.chains
  rw [lists.findElementpInBucket_eq bounded]
  refine findElementpStartingAt_missed (chains.linked bucket) (fun elt mem => ?_)
    (fun safe => lists.free chains safe bounded) (distinct chains bucket)
    ((lists.length_le chains bucket).trans_lt enough)
  obtain ⟨isPresent, here⟩ := (lists.mem_chain_iff chains).mp mem
  exact others elt isPresent here

/-- One element of a bucket is the one. -/
theorem findElementpInBucket_found (mem : elt ∈ present)
    (compares : ∀ e ∈ present, h.buckets.getBucket e.key = h.buckets.getBucket elt.key →
      compare e = .ok (decide (e = elt))) (enough : present.card < fuel) :
    ∃ eltp, PointsTo h.buckets t.next eltp elt ∧
      findElementpInBucket compare fuel t (h.buckets.getBucket elt.key) =
        .ret (t.holding [.data elt, .ptr eltp], some (eltp, .ptr eltp)) := by
  obtain ⟨chain, chains⟩ := lists.chains
  have bounded := getBucket_lt h.buckets elt.key
  have inChain := (lists.mem_chain_iff chains).mpr ⟨mem, rfl⟩
  obtain ⟨before, after, split⟩ := List.append_of_mem inChain
  have length := lists.length_le chains (h.buckets.getBucket elt.key)
  rw [split, List.length_append] at length
  have nodup := chains.nodup (h.buckets.getBucket elt.key)
  rw [split] at nodup
  have compared (e : Elt (Key h)) (isIn : e ∈ chain (h.buckets.getBucket elt.key)) :
      compare e = .ok (decide (e = elt)) := by
    obtain ⟨isPresent, here⟩ := (lists.mem_chain_iff chains).mp isIn
    exact compares e isPresent here
  have others (e : Elt (Key h)) (earlier : e ∈ before) : compare e = .ok false := by
    have other : e ≠ elt := by
      rintro rfl
      exact (List.nodup_append.mp nodup).2.2 e earlier e List.mem_cons_self rfl
    rw [compared e (split ▸ List.mem_append_left _ earlier), decide_eq_false other]
  have this : compare elt = .ok true := by rw [compared elt inChain, decide_eq_true rfl]
  have linked := chains.linked (h.buckets.getBucket elt.key)
  have free (safe : h.threadSafe = true) := lists.free chains safe bounded
  have distinct := distinct chains (h.buckets.getBucket elt.key)
  rw [split] at linked free distinct
  obtain ⟨eltp, on, points, ran⟩ := findElementpStartingAt_found linked others this free
    distinct (show before.length < fuel by omega)
  rw [← split, ← chains.inBucket_iff] at on
  exact ⟨eltp, ⟨on, points⟩, (lists.findElementpInBucket_eq bounded).trans ran⟩

/-- Comparing with the key of an element that is present tells whether it is this element. -/
theorem compareKey_eq (mem : elt ∈ present) {e : Elt (Key h)} (isPresent : e ∈ present) :
    compareKey elt.key e = .ok (decide (e = elt)) := by
  rw [HashtblCalls.compareKey_eq]
  refine congrArg Except.ok (decide_eq_decide.mpr ⟨fun same => ?_, fun same => ?_⟩)
  · exact lists.eq_of_key isPresent mem same.symm
  · rw [same]

/-- The element with a key is found, and its data are locked. -/
theorem findElementInBucket_found (mem : elt ∈ present) (enough : present.card < fuel) :
    findElementInBucket (compareKey elt.key) fuel t (h.buckets.getBucket elt.key) =
      .ret (t.holding [.data elt], some elt) := by
  obtain ⟨eltp, pointsTo, found⟩ := lists.findElementpInBucket_found mem
    (fun e isPresent _ => lists.compareKey_eq mem isPresent) enough
  have free (safe : h.threadSafe = true) := lists.unlocked_of_inBucket safe (getBucket_lt ..) pointsTo.inBucket
  unfold findElementInBucket
  rw [found, Draw.ret_bind]
  dsimp only
  rw [handOver_eq pointsTo.points free]
  rfl

/-- No element has the key. -/
theorem findElementInBucket_missed {key : Key h} (absent : ∀ e ∈ present, e.key ≠ key) (enough : present.card < fuel) :
    findElementInBucket (compareKey key) fuel t (h.buckets.getBucket key) = .ret (t, none) := by
  unfold findElementInBucket
  rw [lists.findElementpInBucket_missed (getBucket_lt ..) (fun e mem _ => ?_) enough]
  · rfl
  · rw [HashtblCalls.compareKey_eq, decide_eq_false (absent e mem).symm]

end Lists

end Scubed3.HashtblCalls
