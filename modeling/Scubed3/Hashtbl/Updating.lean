import Scubed3.Hashtbl.Searching

/-! # Adding and deleting with one thread

An element is added as the first one of its bucket, when no element with its key is present, and it is deleted where
it was found. Afterwards the table holds the elements that one expects, and no mutex is locked apart from the data mutex
of an element that is handed over.
-/

namespace Scubed3.HashtblCalls

open Hashtbl LinkedCells

variable {h : Conf} {t : Table h} {present : Finset (Elt (Key h))} {held held' : List (Mutex (Key h))}
  {eltp : Cell (Key h)} {elt : Elt (Key h)} {key : Key h} {bucket fuel : ℕ}

/-- The mutex of the count is locked first. -/
theorem Holds.ts_lock_count (holds : Holds t present) : t.ts (·.lock .count) = .ok (t.holding [.count]) := by
  have locks := ts_lock holds.countMutex List.not_mem_nil
  rwa [holding_nil] at locks

/-! ## Deleting -/

/-- The table without the element that a pointer points to. -/
def unlinked (t : Table h) (eltp : Cell (Key h)) (elt : Elt (Key h)) : Table h where
  next := Function.update t.next eltp (t.next (.elt elt))
  mutexes := fun m =>
    if h.threadSafe = true ∧ (m = .ptr (.elt elt) ∨ m = .data elt) then .uninitialized else t.mutexes m
  count := t.count
  freed := t.freed

/-- The function of the table is called on the element. -/
def removed (t : Table h) (eltp : Cell (Key h)) (elt : Elt (Key h)) : Table h :=
  { unlinked t eltp elt with freed := if h.freer then elt :: t.freed else t.freed }

theorem unlinked_eq (safe : h.threadSafe = true) (t : Table h) (eltp : Cell (Key h)) (elt : Elt (Key h)) :
    (Table.setMutex { t with next := Function.update t.next eltp (t.next (.elt elt)) } (.ptr (.elt elt))
      .uninitialized).setMutex (.data elt) .uninitialized = unlinked t eltp elt := by
  have mutexes : Function.update (Function.update t.mutexes (.ptr (.elt elt)) .uninitialized) (.data elt)
      .uninitialized = (unlinked t eltp elt).mutexes := by
    funext m
    change _ = if h.threadSafe = true ∧ (m = .ptr (.elt elt) ∨ m = .data elt) then _ else _
    by_cases data : m = .data elt
    · rw [data, Function.update_self, if_pos ⟨safe, .inr rfl⟩]
    · rw [Function.update_of_ne data]
      by_cases ptr : m = .ptr (.elt elt)
      · rw [ptr, Function.update_self, if_pos ⟨safe, .inl rfl⟩]
      · rw [Function.update_of_ne ptr, if_neg fun is => is.2.elim ptr data]
  unfold Table.setMutex
  rw [mutexes]
  rfl

/-- The mutex that `hashtbl_delete_element` unlocks last, if any. -/
structure Releases (t : Table h) (elt : Elt (Key h)) (ptrMutex : Option (Mutex (Key h)))
    (held held' : List (Mutex (Key h))) : Prop where
  split : held = ptrMutex.toList ++ held'
  fresh : ∀ m ∈ ptrMutex, m ∉ held'
  free : h.threadSafe = true → ∀ m ∈ ptrMutex, t.mutexes m = .unlocked
  ptr : .ptr (.elt elt) ∉ held
  data : .data elt ∉ held

theorem hashtblDeleteElement_eq {ptrMutex : Option (Mutex (Key h))} (points : t.next eltp = some elt)
    (free : h.threadSafe = true → t.mutexes (.ptr (.elt elt)) = .unlocked ∧ t.mutexes (.data elt) = .unlocked)
    (releases : Releases t elt ptrMutex held held') :
    hashtblDeleteElement (t.holding (.data elt :: held)) eltp ptrMutex = .ok ((removed t eltp elt).holding held') := by
  have fresh : Mutex.ptr (.elt elt) ∉ Mutex.data elt :: held := by simpa using releases.ptr
  set t₁ : Table h := { t with next := Function.update t.next eltp (t.next (.elt elt)) } with t₁Eq
  unfold hashtblDeleteElement
  simp only [holding_next, points]
  refine Except.bind_eq_ok_iff.mpr ⟨_, ts_lock (fun safe => (free safe).1) fresh, ?_⟩
  refine Except.bind_eq_ok_iff.mpr ⟨(unlinked t eltp elt).holding held', ?_, ?_⟩
  · change (t₁.holding (.ptr (.elt elt) :: .data elt :: held)).ts _ = _
    by_cases safe : h.threadSafe = true
    · have other : Mutex.data elt ≠ .ptr (.elt elt) := nofun
      have data : Function.update t.mutexes (.ptr (.elt elt)) .uninitialized (.data elt) = .unlocked := by
        rw [Function.update_of_ne other, (free safe).2]
      rw [ts_of safe]
      refine Except.bind_eq_ok_iff.mpr ⟨_, unlock_holding safe (t := t₁) (free safe).1 fresh, ?_⟩
      refine Except.bind_eq_ok_iff.mpr ⟨_, unlock_holding safe (t := t₁) (free safe).2 releases.data, ?_⟩
      refine Except.bind_eq_ok_iff.mpr ⟨_, destroy_holding (free safe).1 releases.ptr, ?_⟩
      refine Except.bind_eq_ok_iff.mpr ⟨_, destroy_holding data releases.data, ?_⟩
      rw [t₁Eq, unlinked_eq safe]
      cases ptrMutex with
      | none =>
        rw [releases.split]
        rfl
      | some last =>
        have other : ¬ (last = .ptr (.elt elt) ∨ last = .data elt) := by
          have mem : last ∈ held := by
            rw [releases.split]
            exact List.mem_cons_self
          rintro (rfl | rfl)
          exacts [releases.ptr mem, releases.data mem]
        have unlocked : (unlinked t eltp elt).mutexes last = .unlocked :=
          (if_neg fun is => other is.2).trans (releases.free safe last rfl)
        rw [releases.split]
        exact unlock_holding safe unlocked (releases.fresh last rfl)
    · have same : unlinked t eltp elt = t₁ := by
        unfold unlinked
        simp [safe, t₁Eq]
      rw [ts_of_not safe, holding_of_not safe, holding_of_not safe, same]
  · unfold removed
    split
    · rfl
    · rfl

/-- The element is not present any more. -/
theorem Lists.without (lists : Lists t present) (pointsTo : PointsTo h.buckets t.next eltp elt) :
    Lists (removed t eltp elt) (present.erase elt) := by
  obtain ⟨chain, chains⟩ := lists.chains
  have linkedNow (elt2 : Elt (Key h)) :
      IsLinked h.buckets (Function.update t.next eltp (t.next (.elt elt))) elt2 ↔
        IsLinked h.buckets t.next elt2 ∧ elt2 ≠ elt := chains.reach_remove_iff pointsTo
  refine ⟨⟨_, chains.remove pointsTo⟩, fun elt2 => ?_, fun safe => ⟨fun bucket bounded => ?_, fun elt2 isLinked => ?_,
    fun elt2 isLinked => ?_⟩⟩
  · rw [Finset.mem_erase, lists.mem_iff, and_comm]
    exact (linkedNow elt2).symm
  · exact (if_neg fun is => by simpa using is.2).trans ((lists.quiet safe).bucket bucket bounded)
  · obtain ⟨before, other⟩ := (linkedNow elt2).mp isLinked
    exact (if_neg fun is => other (by simpa using is.2)).trans ((lists.quiet safe).ptr elt2 before)
  · obtain ⟨before, other⟩ := (linkedNow elt2).mp isLinked
    exact (if_neg fun is => other (by simpa using is.2)).trans ((lists.quiet safe).data elt2 before)

/-- The function of the table was called once on every element that is not present any more; the count and the mutexes
of the table stay. -/
structure Frees (t t' : Table h) (present present' : Finset (Elt (Key h))) : Prop where
  subset : present' ⊆ present
  calls : ∃ calls, t'.freed = calls ++ t.freed ∧ calls.Nodup ∧
    ∀ e, e ∈ calls ↔ h.freer = true ∧ e ∈ present ∧ e ∉ present'
  countMutex : t'.mutexes .count = t.mutexes .count
  uniqMutex : ∀ bucket, t'.mutexes (.uniq bucket) = t.mutexes (.uniq bucket)

theorem Frees.refl (t : Table h) (present : Finset (Elt (Key h))) : Frees t t present present :=
  ⟨subset_rfl, ⟨[], rfl, List.nodup_nil, fun e => by simp⟩, rfl, fun _ => rfl⟩

theorem Frees.trans {t' t'' : Table h} {present' present'' : Finset (Elt (Key h))} (first : Frees t t' present present')
    (second : Frees t' t'' present' present'') : Frees t t'' present present'' := by
  obtain ⟨calls, freed, nodup, mem⟩ := first.calls
  obtain ⟨calls', freed', nodup', mem'⟩ := second.calls
  refine ⟨second.subset.trans first.subset, ⟨calls' ++ calls, ?_, ?_, fun e => ?_⟩,
    second.countMutex.trans first.countMutex, fun bucket => (second.uniqMutex bucket).trans (first.uniqMutex bucket)⟩
  · rw [freed', freed, List.append_assoc]
  · refine List.nodup_append.mpr ⟨nodup', nodup, fun e isIn' e2 isIn same => ?_⟩
    subst same
    exact ((mem e).mp isIn).2.2 ((mem' e).mp isIn').2.1
  · rw [List.mem_append, mem, mem']
    have kept : e ∈ present'' → e ∈ present' := fun isIn => second.subset isIn
    have before : e ∈ present' → e ∈ present := fun isIn => first.subset isIn
    tauto

theorem Frees.removed (mem : elt ∈ present) : Frees t (removed t eltp elt) present (present.erase elt) := by
  refine ⟨Finset.erase_subset _ _, ⟨if h.freer then [elt] else [], ?_, ?_, fun e => ?_⟩, ?_, fun bucket => ?_⟩
  · change (if h.freer = true then elt :: t.freed else t.freed) = _
    split
    all_goals rfl
  · split
    · exact List.nodup_singleton _
    · exact List.nodup_nil
  · rw [Finset.mem_erase]
    split
    · next freer =>
      rw [List.mem_singleton]
      constructor
      · rintro rfl
        exact ⟨freer, mem, fun other => other.1 rfl⟩
      · rintro ⟨-, isPresent, gone⟩
        by_contra other
        exact gone ⟨other, isPresent⟩
    · next none => simp [none]
  · exact if_neg fun is => by simpa using is.2
  · exact if_neg fun is => by simpa using is.2

/-- The count is one less. -/
theorem Holds.without (holds : Holds t present) (pointsTo : PointsTo h.buckets t.next eltp elt) (mem : elt ∈ present) :
    Holds { removed t eltp elt with count := t.count - 1 } (present.erase elt) := by
  have frees : Frees t (removed t eltp elt) present (present.erase elt) := .removed mem
  have lists := holds.toLists.without pointsTo
  refine ⟨⟨lists.chains, lists.mem_iff, fun safe => ⟨(lists.quiet safe).bucket, (lists.quiet safe).ptr,
    (lists.quiet safe).data⟩⟩, ?_, fun elt2 mem2 elt3 mem3 => ?_, fun safe => ?_, fun safe unique bucket bounded => ?_⟩
  · change t.count - 1 = _
    rw [holds.count, Finset.card_erase_of_mem mem, Nat.cast_sub (Finset.card_pos.mpr ⟨elt, mem⟩), Nat.cast_one]
  · exact holds.addrs elt2 (Finset.mem_of_mem_erase mem2) elt3 (Finset.mem_of_mem_erase mem3)
  · exact frees.countMutex.trans (holds.countMutex safe)
  · exact (frees.uniqMutex bucket).trans (holds.uniqMutex safe unique bucket bounded)

/-- The element that was found is deleted. -/
theorem Holds.deleteElementFromBucket_found {compare : Elt (Key h) → Except Failure Bool} (holds : Holds t present)
    (mem : elt ∈ present) (compares : ∀ e ∈ present, h.buckets.getBucket e.key = h.buckets.getBucket elt.key →
      compare e = .ok (decide (e = elt))) (enough : present.card < fuel) :
    ∃ t', deleteElementFromBucket compare fuel t (h.buckets.getBucket elt.key) = .ret t' ∧
      Holds t' (present.erase elt) ∧ Frees t t' present (present.erase elt) := by
  obtain ⟨eltp, pointsTo, found⟩ := holds.findElementpInBucket_found mem compares enough
  obtain ⟨chain, chains⟩ := holds.chains
  have linked := (holds.mem_iff elt).mp mem
  have positive : 0 < present.card := Finset.card_pos.mpr ⟨elt, mem⟩
  have apart := chains.elt_ne pointsTo
  have inBucket (safe : h.threadSafe = true) := holds.unlocked_of_inBucket safe (getBucket_lt ..) pointsTo.inBucket
  set t₁ : Table h := { t with count := t.count - 1 } with t₁Eq
  have releases : Releases t₁ elt (some (.ptr eltp)) [.ptr eltp] [] :=
    ⟨rfl, fun _ _ => List.not_mem_nil, fun safe m is => Option.some.inj is ▸ inBucket safe, by simpa using apart, by simp⟩
  have deleted := hashtblDeleteElement_eq (t := t₁) pointsTo.points
    (fun safe => ⟨(holds.quiet safe).ptr elt linked, (holds.quiet safe).data elt linked⟩) releases
  have frees : Frees t₁ (removed t₁ eltp elt) present (present.erase elt) := .removed mem
  refine ⟨removed t₁ eltp elt, ?_, holds.without pointsTo mem, frees.subset, frees.calls, frees.countMutex,
    frees.uniqMutex⟩
  unfold deleteElementFromBucket
  rw [found, Draw.ret_bind]
  have free (safe : h.threadSafe = true) : t.mutexes .count = .unlocked := holds.countMutex safe
  have count : (t.holding [.data elt, .ptr eltp]).ts (·.lock .count) =
      .ok (t.holding [.count, .data elt, .ptr eltp]) := ts_lock free (by simp)
  have uncount : (t₁.holding [.count, .data elt, .ptr eltp]).ts (·.unlock .count) =
      .ok (t₁.holding [.data elt, .ptr eltp]) := ts_unlock free (by simp)
  dsimp only
  rw [count, Draw.lift_ok, Draw.ret_bind]
  have counts : t.count - 1 ≥ 0 := by
    rw [holds.count]
    omega
  rw [holding_count, check_of _ _ counts, Draw.lift_ok, Draw.ret_bind]
  change (do
    let t ← liftM ((t₁.holding [.count, .data elt, .ptr eltp]).ts (·.unlock .count))
    liftM (hashtblDeleteElement t eltp (some (.ptr eltp))) : Draw Failure (Table h)) = _
  rw [uncount, Draw.lift_ok, Draw.ret_bind, deleted, holding_nil]
  rfl

/-- Nothing is deleted when nothing is found. -/
theorem Holds.deleteElementFromBucket_missed {compare : Elt (Key h) → Except Failure Bool} (holds : Holds t present)
    (bounded : bucket < h.buckets.noBuckets)
    (others : ∀ e ∈ present, h.buckets.getBucket e.key = bucket → compare e = .ok false) (enough : present.card < fuel) :
    deleteElementFromBucket compare fuel t bucket = .ret t := by
  unfold deleteElementFromBucket
  rw [holds.findElementpInBucket_missed bounded others enough]
  rfl

/-! ## Adding -/

/-- The table with another element, as the first one of its bucket. -/
def inserted (t : Table h) (elt : Elt (Key h)) : Table h where
  next := Function.update (Function.update t.next (.elt elt) (t.next (.bucket (h.buckets.getBucket elt.key))))
    (.bucket (h.buckets.getBucket elt.key)) (some elt)
  mutexes := fun m => if h.threadSafe = true ∧ (m = .ptr (.elt elt) ∨ m = .data elt) then .unlocked else t.mutexes m
  count := t.count + 1
  freed := t.freed

theorem Holds.inserted (holds : Holds t present) (absent : ∀ e ∈ present, e.key ≠ elt.key)
    (addrs : ∀ e ∈ present, e.addr ≠ elt.addr) : Holds (inserted t elt) (insert elt present) := by
  obtain ⟨chain, chains⟩ := holds.chains
  have unlinked : ¬ IsLinked h.buckets t.next elt := fun linked => absent elt ((holds.mem_iff elt).mpr linked) rfl
  have new : elt ∉ present := fun mem => absent elt mem rfl
  have prepared : Chains h.buckets (Function.update t.next (.elt elt)
      (t.next (.bucket (h.buckets.getBucket elt.key)))) chain := chains.prepare unlinked
  have absentNow : Absent h.buckets (Function.update t.next (.elt elt)
      (t.next (.bucket (h.buckets.getBucket elt.key)))) elt.key := by
    intro e reach
    have linked := (chains.isLinked ((chains.reach_prepare_iff unlinked).mp reach)).2
    exact absent e ((holds.mem_iff e).mpr linked)
  have ready : Function.update t.next (.elt elt) (t.next (.bucket (h.buckets.getBucket elt.key))) (.elt elt) =
      Function.update t.next (.elt elt) (t.next (.bucket (h.buckets.getBucket elt.key)))
        (.bucket (h.buckets.getBucket elt.key)) := by
    rw [Function.update_self, Function.update_of_ne (fun same => by cases same)]
  have linkedNow (e : Elt (Key h)) : IsLinked h.buckets (HashtblCalls.inserted t elt).next e ↔
      e = elt ∨ IsLinked h.buckets t.next e := by
    refine (prepared.reach_insert_iff absentNow ready).trans ?_
    rw [chains.reach_prepare_iff unlinked, or_comm, and_iff_left_of_imp (fun same => by rw [same])]
    rfl
  refine ⟨⟨⟨_, prepared.insert absentNow ready⟩, fun e => ?_, fun safe => ⟨fun bucket bounded => ?_, fun e isLinked => ?_,
    fun e isLinked => ?_⟩⟩, ?_, fun e mem e2 mem2 same => ?_, fun safe => ?_, fun safe unique bucket bounded => ?_⟩
  · rw [Finset.mem_insert, linkedNow, holds.mem_iff]
  · exact (if_neg fun is => by simpa using is.2).trans ((holds.quiet safe).bucket bucket bounded)
  · rcases (linkedNow e).mp isLinked with rfl | before
    · exact if_pos ⟨safe, .inl rfl⟩
    · exact (ite_eq_left_iff.mpr fun _ => (holds.quiet safe).ptr e before)
  · rcases (linkedNow e).mp isLinked with rfl | before
    · exact if_pos ⟨safe, .inr rfl⟩
    · exact (ite_eq_left_iff.mpr fun _ => (holds.quiet safe).data e before)
  · change t.count + 1 = _
    rw [holds.count, Finset.card_insert_of_notMem new, Nat.cast_add, Nat.cast_one]
  · rcases Finset.mem_insert.mp mem with rfl | old <;> rcases Finset.mem_insert.mp mem2 with rfl | old2
    · rfl
    · exact absurd same.symm (addrs e2 old2)
    · exact absurd same (addrs e old)
    · exact holds.addrs e old e2 old2 same
  · exact (if_neg fun is => by simpa using is.2).trans (holds.countMutex safe)
  · exact (if_neg fun is => by simpa using is.2).trans (holds.uniqMutex safe unique bucket bounded)

/-- The table while an element is added: the count is ahead, and the bucket is kept for this thread. -/
def adding (t : Table h) (elt : Elt (Key h)) : Table h :=
  { t with count := t.count + 1 }.holding [.uniq (h.buckets.getBucket elt.key)]

theorem Holds.adding (holds : Holds t present) (elt : Elt (Key h)) : Lists (adding t elt) present := by
  refine ⟨holds.chains, holds.mem_iff, fun safe => ⟨fun bucket bounded => ?_, fun e linked => ?_, fun e linked => ?_⟩⟩
  · exact (if_neg fun is => by simpa using is.2).trans ((holds.quiet safe).bucket bucket bounded)
  · exact (if_neg fun is => by simpa using is.2).trans ((holds.quiet safe).ptr e linked)
  · exact (if_neg fun is => by simpa using is.2).trans ((holds.quiet safe).data e linked)

/-- Whether an element with the same key is present. -/
theorem Holds.uniqueKey_eq (holds : Holds t present) (elt : Elt (Key h)) (enough : present.card < fuel) :
    uniqueKey fuel (HashtblCalls.adding t elt) elt (h.buckets.getBucket elt.key) =
      .ret (HashtblCalls.adding t elt, decide (∀ e ∈ present, e.key ≠ elt.key)) := by
  have lists := holds.adding elt
  unfold uniqueKey
  by_cases absent : ∀ e ∈ present, e.key ≠ elt.key
  · rw [lists.findElementInBucket_missed absent enough, decide_eq_true absent]
    rfl
  · obtain ⟨e, mem, same⟩ : ∃ e ∈ present, e.key = elt.key := by
      by_contra none
      exact absent fun e mem same => none ⟨e, mem, same⟩
    have linked := (lists.mem_iff e).mp mem
    have unlocks : ((HashtblCalls.adding t elt).holding [.data e]).ts (fun t => hashtblUnlockElementByptr t e) =
        .ok (HashtblCalls.adding t elt) := by
      have unlocked := ts_unlock (fun safe => (lists.quiet safe).data e linked) List.not_mem_nil
      rwa [holding_nil] at unlocked
    rw [← same, lists.findElementInBucket_found mem enough, decide_eq_false (same ▸ absent)]
    change (do
      let t ← liftM (((HashtblCalls.adding t elt).holding [.data e]).ts fun t => hashtblUnlockElementByptr t e)
      return (t, false) : Draw Failure (Table h × Bool)) = _
    rw [unlocks]
    rfl

section Add

variable (holds : Holds t present) (unique : h.unique = true)

include holds unique

/-- An element with a new key becomes the first one of its bucket. -/
theorem Holds.linkElement_eq : linkElement (HashtblCalls.adding t elt) elt (h.buckets.getBucket elt.key) =
    .ok ((HashtblCalls.inserted t elt).holding [.data elt]) := by
  set bucket := h.buckets.getBucket elt.key with bucketEq
  set t₁ : Table h := { t with count := t.count + 1 } with t₁Eq
  have bounded : bucket < h.buckets.noBuckets := getBucket_lt ..
  by_cases safe : h.threadSafe = true
  · set t₂ := (t₁.setMutex (.ptr (.elt elt)) .unlocked).setMutex (.data elt) .unlocked with t₂Eq
    have initialized : ((HashtblCalls.adding t elt).setMutex (.ptr (.elt elt)) .unlocked).setMutex (.data elt) .unlocked =
        t₂.holding [.uniq bucket] := by
      rw [HashtblCalls.adding, setMutex_holding _ _ (by simp), setMutex_holding _ _ (by simp)]
    have mutexes : t₂.mutexes = (HashtblCalls.inserted t elt).mutexes := by
      funext m
      change Function.update (Function.update t.mutexes (.ptr (.elt elt)) .unlocked) (.data elt) .unlocked m =
        if h.threadSafe = true ∧ (m = .ptr (.elt elt) ∨ m = .data elt) then .unlocked else t.mutexes m
      by_cases data : m = .data elt
      · rw [data, Function.update_self, if_pos ⟨safe, .inr rfl⟩]
      · rw [Function.update_of_ne data]
        by_cases ptr : m = .ptr (.elt elt)
        · rw [ptr, Function.update_self, if_pos ⟨safe, .inl rfl⟩]
        · rw [Function.update_of_ne ptr, if_neg fun is => is.2.elim ptr data]
    have same : { t₂ with next := (HashtblCalls.inserted t elt).next } = HashtblCalls.inserted t elt := by
      rw [mutexes]
      rfl
    set t₃ := HashtblCalls.inserted t elt with t₃Eq
    have ptr : t₃.mutexes (.ptr (.bucket bucket)) = .unlocked :=
      (if_neg fun is => by simpa using is.2).trans ((holds.quiet safe).bucket bucket bounded)
    have uniq : t₃.mutexes (.uniq bucket) = .unlocked :=
      (if_neg fun is => by simpa using is.2).trans (holds.uniqMutex safe unique bucket bounded)
    have data : t₃.mutexes (.data elt) = .unlocked := if_pos ⟨safe, .inr rfl⟩
    unfold linkElement
    rw [ts_of safe, initialized]
    refine Except.bind_eq_ok_iff.mpr ⟨_, lock_holding safe ((congrFun mutexes _).trans ptr) (by simp), ?_⟩
    change (({ t₂ with next := t₃.next } : Table h).holding [.ptr (.bucket bucket), .uniq bucket]).ts _ = _
    simp only [same, unique, if_true]
    rw [ts_of safe]
    refine Except.bind_eq_ok_iff.mpr ⟨_, lock_holding safe data (by simp), ?_⟩
    rw [show t₃.holding [.data elt, .ptr (.bucket bucket), .uniq bucket] =
      t₃.holding [.ptr (.bucket bucket), .uniq bucket, .data elt] from holding_congr fun x => by simp; tauto]
    exact Except.bind_eq_ok_iff.mpr ⟨_, unlock_holding safe ptr (by simp), unlock_holding safe uniq (by simp)⟩
  · have same : HashtblCalls.inserted t elt = { t₁ with next := (HashtblCalls.inserted t elt).next } := by
      unfold HashtblCalls.inserted
      simp [safe, t₁Eq]
    unfold linkElement
    rw [ts_of_not safe, HashtblCalls.adding, holding_of_not safe, holding_of_not safe, same]
    refine Except.bind_eq_ok_iff.mpr ⟨_, rfl, ?_⟩
    rw [ts_of_not safe]
    rfl

/-- An element whose key is present leaves no trace. -/
theorem Holds.refuseElement_eq :
    refuseElement (HashtblCalls.adding t elt) (h.buckets.getBucket elt.key) = .ok t := by
  have free (safe : h.threadSafe = true) : t.mutexes .count = .unlocked := holds.countMutex safe
  set t₁ : Table h := { t with count := t.count + 1 } with t₁Eq
  have released : (HashtblCalls.adding t elt).ts (fun t => do
      let t ← t.unlock (.uniq (h.buckets.getBucket elt.key))
      t.lock .count) = .ok (t₁.holding [.count]) := by
    by_cases safe : h.threadSafe = true
    · have uniq : t₁.mutexes (.uniq (h.buckets.getBucket elt.key)) = .unlocked :=
        holds.uniqMutex safe unique _ (getBucket_lt ..)
      rw [ts_of safe]
      exact Except.bind_eq_ok_iff.mpr ⟨_, unlock_holding safe uniq List.not_mem_nil,
        lock_holding safe (free safe) List.not_mem_nil⟩
    · rw [ts_of_not safe, HashtblCalls.adding, holding_of_not safe, holding_of_not safe]
  have back : { t₁ with count := t₁.count - 1 } = t := by
    rw [t₁Eq]
    simp
  unfold refuseElement
  simp only [unique, if_true]
  rw [released]
  refine Except.bind_eq_ok_iff.mpr ⟨_, rfl, ?_⟩
  change (({ t₁ with count := t₁.count - 1 } : Table h).holding [.count]).ts (·.unlock .count) = _
  rw [back, ts_unlock free List.not_mem_nil, holding_nil]

/-- `hashtbl_add_element` adds an element exactly when its key is new. -/
theorem Holds.hashtblAddElement_eq (valid : elt.addr ≠ 0) (enough : present.card < fuel) :
    hashtblAddElement fuel t elt = .ret (if ∀ e ∈ present, e.key ≠ elt.key
      then ((HashtblCalls.inserted t elt).holding [.data elt], some elt) else (t, none)) := by
  have free (safe : h.threadSafe = true) : t.mutexes .count = .unlocked := holds.countMutex safe
  set t₁ : Table h := { t with count := t.count + 1 } with t₁Eq
  have uncount : (t₁.holding [.count]).ts (·.unlock .count) = .ok t₁ := by
    have unlocks := ts_unlock (t := t₁) free List.not_mem_nil
    rwa [holding_nil] at unlocks
  have uniq : t₁.ts (·.lock (.uniq (h.buckets.getBucket elt.key))) = .ok (HashtblCalls.adding t elt) := by
    have locks := ts_lock (t := t₁) (fun safe => holds.uniqMutex safe unique _ (getBucket_lt h.buckets elt.key))
      List.not_mem_nil
    rwa [holding_nil] at locks
  unfold hashtblAddElement
  simp only [unique, if_true]
  rw [check_of _ _ valid, Draw.lift_ok, Draw.ret_bind, holds.ts_lock_count, Draw.lift_ok, Draw.ret_bind]
  change (do
    let t ← liftM ((t₁.holding [.count]).ts (·.unlock .count))
    _ : Draw Failure (Table h × Option (Elt (Key h)))) = _
  rw [uncount, Draw.lift_ok, Draw.ret_bind, uniq, Draw.lift_ok, Draw.ret_bind, holds.uniqueKey_eq elt enough,
    Draw.ret_bind]
  by_cases absent : ∀ e ∈ present, e.key ≠ elt.key
  · rw [decide_eq_true absent, if_pos absent]
    change (do
      let t ← liftM (linkElement (HashtblCalls.adding t elt) elt (h.buckets.getBucket elt.key))
      return (t, some elt) : Draw Failure (Table h × Option (Elt (Key h)))) = _
    rw [holds.linkElement_eq unique]
    rfl
  · rw [decide_eq_false absent, if_neg absent]
    change (do
      let t ← liftM (refuseElement (HashtblCalls.adding t elt) (h.buckets.getBucket elt.key))
      return (t, none) : Draw Failure (Table h × Option (Elt (Key h)))) = _
    rw [holds.refuseElement_eq unique]
    rfl

end Add

end Scubed3.HashtblCalls
