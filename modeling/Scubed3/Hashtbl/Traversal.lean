import Scubed3.Hashtbl.Updating

/-! # All elements of a table

`hashtbl_empty` deletes the elements of one bucket after the other. A traversal starts with the first element of the
first bucket that is not empty and goes on from an element's own bucket, so it visits the lists of the buckets in order.
-/

namespace Scubed3.HashtblCalls

open Hashtbl LinkedCells

variable {h : Conf} {t : Table h} {present : Finset (Elt (Key h))} {elt : Elt (Key h)} {bucket fuel : ℕ}

/-! ## Emptying -/

/-- The elements of a bucket are deleted one after the other. -/
theorem Lists.emptyBucket (lists : Lists t present)
    (enough : (present.filter fun e => h.buckets.getBucket e.key = bucket).card < fuel) :
    ∃ t', HashtblCalls.emptyBucket bucket fuel (t.holding [.ptr (.bucket bucket), .count]) =
        .ret (t'.holding [.ptr (.bucket bucket), .count]) ∧ t'.count = t.count ∧
      Lists t' (present.filter fun e => h.buckets.getBucket e.key ≠ bucket) ∧
      Frees t t' present (present.filter fun e => h.buckets.getBucket e.key ≠ bucket) := by
  induction fuel generalizing t present with
  | zero => omega
  | succ fuel ih =>
    obtain ⟨chain, chains⟩ := lists.chains
    rw [HashtblCalls.emptyBucket, holding_next]
    cases first : t.next (.bucket bucket) with
    | none =>
      have empty : chain bucket = [] := by
        cases chainEq : chain bucket with
        | nil => rfl
        | cons e l =>
          have linked := chains.linked bucket
          rw [chainEq] at linked
          cases first.symm.trans linked.1
      have all : (present.filter fun e => h.buckets.getBucket e.key ≠ bucket) = present := by
        refine Finset.filter_true_of_mem fun e mem here => ?_
        have inChain := (lists.mem_chain_iff chains).mpr ⟨mem, here⟩
        rw [empty] at inChain
        cases inChain
      rw [all]
      exact ⟨t, rfl, rfl, lists, .refl t present⟩
    | some elt =>
      have inBucket : InBucket t.next bucket (.bucket bucket) := .inl rfl
      obtain ⟨here, linked⟩ := chains.isLinked_of_next inBucket first
      have pointsTo : PointsTo h.buckets t.next (.bucket bucket) elt := chains.pointsTo inBucket first
      have mem : elt ∈ present := (lists.mem_iff elt).mpr linked
      have locks : (t.holding [.ptr (.bucket bucket), .count]).ts (·.lock (.data elt)) =
          .ok (t.holding [.data elt, .ptr (.bucket bucket), .count]) :=
        ts_lock (fun safe => (lists.quiet safe).data elt linked) (by simp)
      have deletes := hashtblDeleteElement_eq first
        (fun safe => ⟨(lists.quiet safe).ptr elt linked, (lists.quiet safe).data elt linked⟩)
        (⟨rfl, nofun, fun _ => nofun, by simp, by simp⟩ :
          Releases t elt none [.ptr (.bucket bucket), .count] [.ptr (.bucket bucket), .count])
      have others : ((present.erase elt).filter fun e => h.buckets.getBucket e.key ≠ bucket) =
          present.filter fun e => h.buckets.getBucket e.key ≠ bucket := by
        ext e
        rw [Finset.mem_filter, Finset.mem_filter, Finset.mem_erase]
        exact ⟨fun ⟨⟨_, isPresent⟩, other⟩ => ⟨isPresent, other⟩, fun ⟨isPresent, other⟩ =>
          ⟨⟨fun same => other (same ▸ here), isPresent⟩, other⟩⟩
      have inFilter : elt ∈ present.filter fun e => h.buckets.getBucket e.key = bucket :=
        Finset.mem_filter.mpr ⟨mem, here⟩
      have fewer : ((present.erase elt).filter fun e => h.buckets.getBucket e.key = bucket).card < fuel := by
        have positive := Finset.card_pos.mpr ⟨elt, inFilter⟩
        rw [Finset.filter_erase, Finset.card_erase_of_mem inFilter]
        omega
      obtain ⟨t', ran, count, lists', frees⟩ := ih (lists.without pointsTo) fewer
      rw [others] at lists' frees
      refine ⟨t', ?_, count, lists', (Frees.removed mem).trans frees⟩
      dsimp only
      rw [locks, Draw.lift_ok, Draw.ret_bind, deletes, Draw.lift_ok, Draw.ret_bind, ran]

/-- One bucket after the other is emptied. -/
theorem Lists.emptyBuckets {turns : ℕ} (lists : Lists t present) (bounded : bucket + turns ≤ h.buckets.noBuckets)
    (enough : present.card < fuel) :
    ∃ t', HashtblCalls.emptyBuckets fuel turns bucket (t.holding [.count]) = .ret (t'.holding [.count]) ∧
      t'.count = t.count ∧
      Lists t' (present.filter fun e => h.buckets.getBucket e.key < bucket ∨ bucket + turns ≤ h.buckets.getBucket e.key) ∧
      Frees t t' present
        (present.filter fun e => h.buckets.getBucket e.key < bucket ∨ bucket + turns ≤ h.buckets.getBucket e.key) := by
  induction turns generalizing bucket t present with
  | zero =>
    have all : (present.filter fun e => h.buckets.getBucket e.key < bucket ∨ bucket + 0 ≤ h.buckets.getBucket e.key) =
        present := Finset.filter_true_of_mem fun e _ => by omega
    rw [all]
    exact ⟨t, rfl, rfl, lists, .refl t present⟩
  | succ turns ih =>
    have small : bucket < h.buckets.noBuckets := by omega
    have locks : (t.holding [.count]).ts (·.lock (.ptr (.bucket bucket))) = .ok (t.holding [.ptr (.bucket bucket), .count]) :=
      ts_lock (fun safe => (lists.quiet safe).bucket bucket small) (by simp)
    obtain ⟨t₁, ran, count, lists₁, frees⟩ := lists.emptyBucket
      ((Finset.card_le_card (Finset.filter_subset ..)).trans_lt enough)
    have unlocks : (t₁.holding [.ptr (.bucket bucket), .count]).ts (·.unlock (.ptr (.bucket bucket))) =
        .ok (t₁.holding [.count]) := ts_unlock (fun safe => (lists₁.quiet safe).bucket bucket small) (by simp)
    obtain ⟨t', ran', count', lists', frees'⟩ := ih lists₁ (show bucket + 1 + turns ≤ _ by omega)
      ((Finset.card_le_card (Finset.filter_subset ..)).trans_lt enough)
    have rest : ((present.filter fun e => h.buckets.getBucket e.key ≠ bucket).filter fun e =>
        h.buckets.getBucket e.key < bucket + 1 ∨ bucket + 1 + turns ≤ h.buckets.getBucket e.key) =
          present.filter fun e => h.buckets.getBucket e.key < bucket ∨ bucket + (turns + 1) ≤ h.buckets.getBucket e.key := by
      rw [Finset.filter_filter]
      exact Finset.filter_congr fun e _ => by omega
    rw [rest] at lists' frees'
    refine ⟨t', ?_, count'.trans count, lists', frees.trans frees'⟩
    rw [HashtblCalls.emptyBuckets, locks, Draw.lift_ok, Draw.ret_bind, ran, Draw.ret_bind, unlocks, Draw.lift_ok,
      Draw.ret_bind, ran']

/-- `hashtbl_empty` deletes every element. -/
theorem Holds.hashtblEmpty (holds : Holds t present) (enough : present.card < fuel) :
    ∃ t', HashtblCalls.hashtblEmpty fuel t = .ret t' ∧ Holds t' ∅ ∧ Frees t t' present ∅ := by
  have free (safe : h.threadSafe = true) : t.mutexes .count = .unlocked := holds.countMutex safe
  set t₀ : Table h := { t with count := 0 } with t₀Eq
  have lists : Lists t₀ present := ⟨holds.chains, holds.mem_iff, fun safe => ⟨(holds.quiet safe).bucket,
    (holds.quiet safe).ptr, (holds.quiet safe).data⟩⟩
  obtain ⟨t', ran, count, lists', frees⟩ := lists.emptyBuckets (show 0 + h.buckets.noBuckets ≤ _ by omega) enough
  have none : (present.filter fun e => h.buckets.getBucket e.key < 0 ∨
      0 + h.buckets.noBuckets ≤ h.buckets.getBucket e.key) = ∅ := by
    refine Finset.filter_false_of_mem fun e _ => ?_
    have := getBucket_lt h.buckets e.key
    omega
  rw [none] at lists' frees
  have unlocks : (t'.holding [.count]).ts (·.unlock .count) = .ok t' := by
    have unlocked := ts_unlock (fun safe => frees.countMutex.trans (free safe)) List.not_mem_nil
    rwa [holding_nil] at unlocked
  refine ⟨t', ?_, ⟨lists', by rw [count, t₀Eq]; rfl, nofun, fun safe => frees.countMutex.trans (free safe),
    fun safe unique bucket bounded => (frees.uniqMutex bucket).trans (holds.uniqMutex safe unique bucket bounded)⟩,
    frees.subset, frees.calls, frees.countMutex, frees.uniqMutex⟩
  unfold HashtblCalls.hashtblEmpty
  rw [holds.ts_lock_count, Draw.lift_ok, Draw.ret_bind]
  change (do
    let t ← HashtblCalls.emptyBuckets fuel h.buckets.noBuckets 0 (t₀.holding [.count])
    liftM (t.ts (·.unlock .count)) : Draw Failure (Table h)) = _
  rw [ran, Draw.ret_bind, unlocks]
  rfl

/-- `hashtbl_get_count` is the number of elements. -/
theorem Holds.hashtblGetCount (holds : Holds t present) : HashtblCalls.hashtblGetCount t = .ok (t, (present.card : ℤ)) := by
  have free (safe : h.threadSafe = true) : t.mutexes .count = .unlocked := holds.countMutex safe
  unfold HashtblCalls.hashtblGetCount
  refine Except.bind_eq_ok_iff.mpr ⟨_, holds.ts_lock_count, Except.bind_eq_ok_iff.mpr ⟨_, ts_unlock free List.not_mem_nil, ?_⟩⟩
  rw [holding_nil, holding_count, holds.count]
  rfl

/-! ## Traversing -/

/-- The lists of the buckets from `start` on, one after the other. -/
def eltsFrom (h : Conf) (chain : ℕ → List (Elt (Key h))) (start : ℕ) : List (Elt (Key h)) :=
  (List.range' start (h.buckets.noBuckets - start)).flatMap chain

/-- An element, if there is one, is handed over with its data locked. -/
def handed (t : Table h) : Option (Elt (Key h)) → Table h × Option (Elt (Key h))
  | none => (t, none)
  | some elt => (t.holding [.data elt], some elt)

theorem eltsFrom_succ (chain : ℕ → List (Elt (Key h))) (small : bucket < h.buckets.noBuckets) :
    eltsFrom h chain bucket = chain bucket ++ eltsFrom h chain (bucket + 1) := by
  unfold eltsFrom
  rw [show h.buckets.noBuckets - bucket = h.buckets.noBuckets - (bucket + 1) + 1 by omega, List.range'_succ,
    List.flatMap_cons]

theorem eltsFrom_end (chain : ℕ → List (Elt (Key h))) (past : h.buckets.noBuckets ≤ bucket) :
    eltsFrom h chain bucket = [] := by
  unfold eltsFrom
  rw [Nat.sub_eq_zero_of_le past]
  rfl

section Traverse

variable {chain : ℕ → List (Elt (Key h))} (lists : Lists t present) (chains : Chains h.buckets t.next chain)
  (enough : present.card < fuel)

include lists chains

theorem Lists.mem_eltsFrom : elt ∈ eltsFrom h chain 0 ↔ elt ∈ present := by
  unfold eltsFrom
  simp only [List.mem_flatMap, List.mem_range'_1, lists.mem_chain_iff chains]
  constructor
  · rintro ⟨bucket, -, mem, -⟩
    exact mem
  · intro mem
    have := getBucket_lt h.buckets elt.key
    exact ⟨_, by omega, mem, rfl⟩

omit lists in
theorem nodup_eltsFrom (start : ℕ) : (eltsFrom h chain start).Nodup := by
  refine List.nodup_flatMap.mpr ⟨fun bucket _ => chains.nodup bucket, ?_⟩
  refine (List.nodup_range').imp fun {i j} different e mem mem' => different ?_
  rw [← chains.bucket i e mem, ← chains.bucket j e mem']

theorem Lists.length_eltsFrom : (eltsFrom h chain 0).length = present.card := by
  rw [← List.toFinset_card_of_nodup (nodup_eltsFrom chains 0)]
  congr 1
  ext e
  rw [List.mem_toFinset, lists.mem_eltsFrom chains]

/-- An element and what comes after it. -/
theorem Lists.eltsFrom_split {before after : List (Elt (Key h))} (split : eltsFrom h chain 0 = before ++ elt :: after) :
    ∃ before' after', chain (h.buckets.getBucket elt.key) = before' ++ elt :: after' ∧
      after = after' ++ eltsFrom h chain (h.buckets.getBucket elt.key + 1) := by
  set b := h.buckets.getBucket elt.key with bEq
  have small : b < h.buckets.noBuckets := getBucket_lt ..
  have mem : elt ∈ present := (lists.mem_eltsFrom chains).mp (split ▸ List.mem_append_right _ List.mem_cons_self)
  obtain ⟨before', after', chainEq⟩ := List.append_of_mem ((lists.mem_chain_iff chains).mpr ⟨mem, bEq.symm⟩)
  have parts : eltsFrom h chain 0 = (List.range' 0 b).flatMap chain ++ eltsFrom h chain b := by
    have range : List.range' 0 (h.buckets.noBuckets - 0) =
        List.range' 0 b ++ List.range' b (h.buckets.noBuckets - b) := by
      have append := List.range'_append_1 (s := 0) (m := b) (n := h.buckets.noBuckets - b)
      rw [Nat.zero_add, show b + (h.buckets.noBuckets - b) = h.buckets.noBuckets - 0 by omega] at append
      exact append.symm
    rw [eltsFrom, eltsFrom, range, List.flatMap_append]
  have again : eltsFrom h chain 0 =
      ((List.range' 0 b).flatMap chain ++ before') ++ elt :: (after' ++ eltsFrom h chain (b + 1)) := by
    rw [parts, eltsFrom_succ chain small, chainEq, List.append_assoc, List.append_assoc, List.cons_append]
  -- no element occurs twice, so there is one way to split the list at it
  have nodup := nodup_eltsFrom chains 0
  have once : elt ∉ before ∧ elt ∉ after := by
    rw [split] at nodup
    obtain ⟨-, right, apart⟩ := List.nodup_append.mp nodup
    exact ⟨fun early => apart elt early elt List.mem_cons_self rfl, (List.nodup_cons.mp right).1⟩
  refine ⟨before', after', chainEq, ?_⟩
  exact ((List.append_cons_inj_of_notMem once.1 once.2).mp (split.symm.trans again)).2.2

include enough

/-- The first bucket that is not empty. -/
theorem Lists.findElementpFromBucket {turns start : ℕ} (turnsEq : turns = h.buckets.noBuckets - start) :
    eltsFrom h chain start = [] ∧ HashtblCalls.findElementpFromBucket compareTrue fuel turns t start = .ret (t, none) ∨
      ∃ e l b, eltsFrom h chain start = e :: l ∧ b < h.buckets.noBuckets ∧ t.next (.bucket b) = some e ∧
        HashtblCalls.findElementpFromBucket compareTrue fuel turns t start =
          .ret (t.holding [.data e, .ptr (.bucket b)], some (.bucket b, .ptr (.bucket b))) := by
  induction turns generalizing start with
  | zero => exact .inl ⟨eltsFrom_end chain (by omega), rfl⟩
  | succ turns ih =>
    have small : start < h.buckets.noBuckets := by omega
    rw [eltsFrom_succ chain small, HashtblCalls.findElementpFromBucket]
    cases chainEq : chain start with
    | nil =>
      have missed : findElementpInBucket compareTrue fuel t start = .ret (t, none) := by
        refine lists.findElementpInBucket_missed small (fun e mem here => ?_) enough
        have inChain := (lists.mem_chain_iff chains).mpr ⟨mem, here⟩
        rw [chainEq] at inChain
        cases inChain
      rw [missed]
      exact ih (by omega)
    | cons e l =>
      have linked := chains.linked start
      rw [chainEq] at linked
      have mem : e ∈ present := ((lists.mem_chain_iff chains).mp (chainEq ▸ List.mem_cons_self : e ∈ chain start)).1
      have found : findElementpInBucket compareTrue fuel t start =
          .ret (t.holding [.data e, .ptr (.bucket start)], some (.bucket start, .ptr (.bucket start))) := by
        rw [lists.findElementpInBucket_eq small]
        exact findElementpStartingAt_first linked.1 rfl (fun safe => (lists.quiet safe).data e ((lists.mem_iff e).mp mem))
          (Nat.zero_lt_of_lt enough)
      refine .inr ⟨e, l ++ eltsFrom h chain (start + 1), start, rfl, small, linked.1, ?_⟩
      rw [found]
      rfl

/-- The first element from a bucket on. -/
theorem Lists.findElementFromBucket {start : ℕ} :
    HashtblCalls.findElementFromBucket compareTrue fuel t start = .ret (handed t (eltsFrom h chain start).head?) := by
  unfold HashtblCalls.findElementFromBucket
  rcases lists.findElementpFromBucket chains enough rfl with ⟨empty, ran⟩ | ⟨e, l, b, first, small, points, ran⟩
  · rw [ran, empty]
    rfl
  · rw [ran, first, Draw.ret_bind]
    dsimp only
    rw [handOver_eq points fun safe => (lists.quiet safe).bucket b small]
    rfl

/-- The element after one that is handed over. -/
theorem Lists.hashtblNextElementByptr {before after : List (Elt (Key h))}
    (split : eltsFrom h chain 0 = before ++ elt :: after) :
    HashtblCalls.hashtblNextElementByptr fuel (t.holding [.data elt]) elt = .ret (handed t after.head?) := by
  obtain ⟨before', after', chainEq, afterEq⟩ := lists.eltsFrom_split chains split
  have mem : elt ∈ present := (lists.mem_eltsFrom chains).mp (split ▸ List.mem_append_right _ List.mem_cons_self)
  have isLinked := (lists.mem_iff elt).mp mem
  have linked := chains.linked (h.buckets.getBucket elt.key)
  rw [chainEq] at linked
  have swap : (t.holding [.data elt]).ts (fun t => do
      let t ← t.lock (.ptr (.elt elt))
      t.unlock (.data elt)) = .ok (t.holding [.ptr (.elt elt)]) := by
    by_cases safe : h.threadSafe = true
    · have order : t.holding [.ptr (.elt elt), .data elt] = t.holding [.data elt, .ptr (.elt elt)] :=
        holding_congr fun x => by simp [or_comm]
      rw [ts_of safe]
      refine Except.bind_eq_ok_iff.mpr ⟨_, lock_holding safe ((lists.quiet safe).ptr elt isLinked) (by simp), ?_⟩
      rw [order, unlock_holding safe ((lists.quiet safe).data elt isLinked) (by simp)]
    · rw [ts_of_not safe, holding_of_not safe, holding_of_not safe]
  have rest : HashtblCalls.findElementFromBucket compareTrue fuel t (h.buckets.getBucket elt.key + 1) = _ :=
    lists.findElementFromBucket chains enough
  unfold HashtblCalls.hashtblNextElementByptr findElementStartingAt
  rw [swap, Draw.lift_ok, Draw.ret_bind]
  cases later : after' with
  | nil =>
    have missed : findElementpStartingAt compareTrue fuel (t.holding [.ptr (.elt elt)]) (.ptr (.elt elt)) (.elt elt) =
        .ret (t, none) := by
      have linkedAfter := linked.after
      rw [later] at linkedAfter
      refine findElementpStartingAt_missed linkedAfter nofun (fun safe => ⟨(lists.quiet safe).ptr elt isLinked, nofun,
        nofun⟩) (by simp) (Nat.zero_lt_of_lt enough)
    rw [missed, afterEq, later]
    exact rest
  | cons e l =>
    have linkedAfter := linked.after
    rw [later] at linkedAfter
    have memE : e ∈ present := by
      refine (lists.mem_eltsFrom chains).mp (split ▸ List.mem_append_right _ (List.mem_cons_of_mem _ ?_))
      rw [afterEq, later]
      exact List.mem_cons_self
    have found := findElementpStartingAt_first linkedAfter.1 (rfl : compareTrue e = .ok true)
      (fun safe => (lists.quiet safe).data e ((lists.mem_iff e).mp memE)) (Nat.zero_lt_of_lt enough)
    rw [found, Draw.ret_bind]
    dsimp only
    rw [handOver_eq linkedAfter.1 fun safe => (lists.quiet safe).ptr elt isLinked, afterEq, later]
    rfl

variable {σ : Type} {rep : σ → Elt (Key h) → σ × ℤ}

theorem Lists.traverseLoop (goesOn : ∀ arg e, (rep arg e).2 ≠ -1) {before rest : List (Elt (Key h))}
    (split : eltsFrom h chain 0 = before ++ rest) {turns : ℕ} (few : rest.length < turns) (arg : σ) :
    HashtblCalls.traverseLoop rep fuel turns (handed t rest.head?).1 arg (handed t rest.head?).2 =
      .ret (t, rest.foldl (fun arg e => (rep arg e).1) arg, 0) := by
  induction rest generalizing before turns arg with
  | nil =>
    obtain ⟨turns, rfl⟩ := Nat.exists_eq_add_one_of_ne_zero (Nat.ne_of_gt few)
    rfl
  | cons e rest ih =>
    obtain ⟨turns, rfl⟩ := Nat.exists_eq_add_one_of_ne_zero (Nat.ne_of_gt (Nat.zero_lt_of_lt few))
    have next := lists.hashtblNextElementByptr chains enough split
    change HashtblCalls.traverseLoop rep fuel (turns + 1) (t.holding [.data e]) arg (some e) = _
    rw [HashtblCalls.traverseLoop]
    dsimp only
    rw [if_neg (goesOn arg e), next, Draw.ret_bind]
    exact ih (split.trans (List.append_cons before e rest)) (Nat.lt_of_succ_lt_succ few) _

/-- `hashtbl_ts_traverse` visits the lists of the buckets, one after the other. -/
theorem Lists.hashtblTsTraverse (rep : σ → Elt (Key h) → σ × ℤ) (goesOn : ∀ arg e, (rep arg e).2 ≠ -1) (arg : σ) :
    HashtblCalls.hashtblTsTraverse rep fuel t arg =
      .ret (t, (eltsFrom h chain 0).foldl (fun arg e => (rep arg e).1) arg, 0) := by
  have few : (eltsFrom h chain 0).length < fuel := by rwa [lists.length_eltsFrom chains]
  have first : hashtblFirstElement fuel t = .ret (handed t (eltsFrom h chain 0).head?) :=
    lists.findElementFromBucket chains enough
  unfold HashtblCalls.hashtblTsTraverse
  rw [first, Draw.ret_bind]
  exact lists.traverseLoop chains enough goesOn (List.nil_append _).symm few arg

end Traverse

end Scubed3.HashtblCalls
