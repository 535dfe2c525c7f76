import Scubed3.Juggler.Reachable
import Scubed3.ToMathlib.Expectation

/-! # Lazy scheduling is uniform independent selection

Each call decides in advance when its block comes back, and yet the sequence of blocks handed out
is distributed as if every call picked any of the blocks with the same probability. `weight` is the
probability of a sequence when only the promises already made are kept and every other slot takes a
block that is not promised at that point, all equally likely. One placement, averaged over its
outcomes, turns a promised block into an unpromised one, so the promise does not show.
-/

open scoped ENNReal

namespace Scubed3.Juggler

/-- The first `calls` answers of `juggler_get_devblock(j, 0)`. -/
def getDevblocks (fuel : ℕ) : (calls : ℕ) → Juggler → BlockioInfos → Draw Failure (List (Option ℕ))
  | 0, _, _ => return []
  | calls + 1, j, infos => do
    let (b, j, infos) ← getDevblock fuel j infos false
    let rest ← getDevblocks fuel calls j infos
    return b :: rest

/-- The probability of a sequence of blocks when the promises in `scheduled` are kept, and any other
slot after `seqno` takes one of the `available` blocks. A block becomes available again when its
promise is met. -/
noncomputable def weight (due : ℕ → ℕ) :
    (scheduled : List ℕ) → (available : Finset ℕ) → (seqno : ℕ) → List ℕ → ℝ≥0∞
  | _, _, _, [] => 1
  | scheduled, available, seqno, y :: ys =>
    if scheduled.head?.map due = some (seqno + 1) then
      if scheduled.head? = some y then weight due scheduled.tail (insert y available) (seqno + 1) ys
      else 0
    else if y ∈ available then
      (available.card : ℝ≥0∞)⁻¹ * weight due scheduled available (seqno + 1) ys
    else 0

theorem weight_congr {due due' : ℕ → ℕ} {scheduled : List ℕ} {available : Finset ℕ} {seqno : ℕ}
    {ys : List ℕ} (same : ∀ c ∈ scheduled, due c = due' c) :
    weight due scheduled available seqno ys = weight due' scheduled available seqno ys := by
  induction ys generalizing scheduled available seqno with
  | nil => rfl
  | cons y ys ih =>
    have head : scheduled.head?.map due = scheduled.head?.map due' := by
      cases scheduled with
      | nil => rfl
      | cons c rest => simp [same c List.mem_cons_self]
    simp only [weight, head, ih same, ih fun c member => same c (List.mem_of_mem_tail member)]

/-- With no promises every sequence of available blocks has the same weight. -/
theorem weight_unpromised {due : ℕ → ℕ} {available : Finset ℕ} {seqno : ℕ} {ys : List ℕ}
    (members : ∀ y ∈ ys, y ∈ available) :
    weight due [] available seqno ys = (available.card : ℝ≥0∞)⁻¹ ^ ys.length := by
  induction ys generalizing seqno with
  | nil => simp [weight]
  | cons y ys ih =>
    rw [weight, if_neg (by simp), if_pos (members y List.mem_cons_self),
      ih fun z member => members z (List.mem_cons_of_mem _ member), List.length_cons, pow_succ']

/-! ## One placement -/

/-- The next slot is promised to somebody else: one more block becomes available. -/
theorem expect_place_occupied {infos : BlockioInfos} {next fuel seqno available c : ℕ} {rest : List ℕ}
    (promised : due infos c = seqno + 1) (k : ℕ × List ℕ → ℝ≥0∞) :
    (place infos next (fuel + 1) seqno available (c :: rest)).expect k =
      (place infos next fuel (seqno + 1) (available + 1) rest).expect fun p => k (p.1, c :: p.2) := by
  rw [place, if_pos (by simpa using promised)]
  simp

/-- The next slot is free: it is taken with one of the outcomes, and passed over with the others. -/
theorem expect_place_free {infos : BlockioInfos} {next fuel seqno others : ℕ} {iterate : List ℕ}
    (free : iterate.head?.map (due infos) ≠ some (seqno + 1)) (k : ℕ × List ℕ → ℝ≥0∞) :
    (place infos next (fuel + 1) seqno (others + 1) iterate).expect k =
      ((others + 1 : ℕ) : ℝ≥0∞)⁻¹ * (k (seqno + 1, next :: iterate) +
        others * (place infos next fuel (seqno + 1) (others + 1) iterate).expect k) := by
  rw [place, if_neg free, randomCustom, if_neg (Nat.succ_ne_zero others), Draw.expect_bind,
    Draw.expect_draw, Fin.sum_univ_succ]
  simp

/-- Like `ENNReal.add_iSup` for a sequence that starts with nothing and then moves one step at a time. -/
theorem iSup_affine {f g : ℕ → ℝ≥0∞} {scale first others : ℝ≥0∞} (start : f 0 = 0)
    (step : ∀ n, f (n + 1) = scale * (first + others * g n)) :
    ⨆ n, f n = scale * (first + others * ⨆ n, g n) := by
  rw [← sup_iSup_nat_succ, start]
  simp only [step]
  rw [← ENNReal.mul_iSup, ← ENNReal.add_iSup, ← ENNReal.mul_iSup]
  exact zero_max _

theorem inv_mul_succ (others : ℕ) : ((others + 1 : ℕ) : ℝ≥0∞)⁻¹ * (1 + others) = 1 := by
  rw [add_comm (1 : ℝ≥0∞), Nat.cast_succ]
  exact ENNReal.inv_mul_cancel (by simp) (by finiteness)

/-- Trying again and again, with the same chance each time, succeeds with probability one. -/
theorem retry_eq_one {x : ℝ≥0∞} (others : ℕ) (bounded : x ≤ 1)
    (retried : x = ((others + 1 : ℕ) : ℝ≥0∞)⁻¹ * (1 + others * x)) : x = 1 := by
  have scaled : x + others * x = 1 + others * x := by
    calc x + others * x = ((others + 1 : ℕ) : ℝ≥0∞) * x := by push_cast; ring
      _ = ((others + 1 : ℕ) : ℝ≥0∞) * (((others + 1 : ℕ) : ℝ≥0∞)⁻¹ * (1 + others * x)) := by
        rw [← retried]
      _ = 1 + others * x := by
        rw [← mul_assoc, ENNReal.mul_inv_cancel (by simp) (by finiteness), one_mul]
  have finite : (others : ℝ≥0∞) * x ≠ ⊤ := by
    have : x ≠ ⊤ := ne_top_of_le_ne_top ENNReal.one_ne_top bounded
    finiteness
  exact (ENNReal.add_left_inj finite).mp scaled

theorem expect_place_nil (infos : BlockioInfos) (next others : ℕ) {fuel : ℕ} (seqno seqno' : ℕ) :
    (place infos next fuel seqno (others + 1) []).expect (fun _ => 1) =
      (place infos next fuel seqno' (others + 1) []).expect fun _ => 1 := by
  induction fuel generalizing seqno seqno' with
  | zero => rfl
  | succ fuel ih => rw [expect_place_free (by simp), expect_place_free (by simp), ih]

/-- If the source keeps drawing, the loop stops with probability one. -/
theorem place_terminates {infos : BlockioInfos} {next seqno others : ℕ} {iterate : List ℕ}
    (sorted : iterate.SortedByKey (due infos)) (future : ∀ c ∈ iterate, seqno < due infos c) :
    ⨆ fuel, (place infos next fuel seqno (others + 1) iterate).expect (fun _ => 1) = 1 := by
  induction iterate generalizing seqno others with
  | nil =>
    refine retry_eq_one others (iSup_le fun fuel => Draw.expect_one_le _) ?_
    refine iSup_affine rfl fun fuel => ?_
    rw [expect_place_free (by simp), expect_place_nil infos next others (seqno + 1) seqno]
  | cons c rest ih =>
    obtain ⟨after, sortedRest⟩ := List.pairwise_cons.mp sorted
    obtain ⟨gap, distance⟩ := Nat.exists_eq_add_of_lt (future c List.mem_cons_self)
    induction gap generalizing seqno others with
    | zero =>
      have promised : due infos c = seqno + 1 := by omega
      rw [← sup_iSup_nat_succ]
      simp only [expect_place_occupied promised]
      rw [ih sortedRest fun d member => promised ▸ after d member]
      exact zero_max _
    | succ gap ihGap =>
      have free : (c :: rest).head?.map (due infos) ≠ some (seqno + 1) := by
        simp only [List.head?_cons, Option.map_some, ne_eq, Option.some.injEq]
        omega
      have later : ∀ d ∈ c :: rest, seqno + 1 < due infos d := by
        intro d member
        rcases List.mem_cons.mp member with rfl | inRest
        · omega
        · have := after d inRest
          omega
      rw [iSup_affine rfl fun fuel => expect_place_free free _, ihGap later (by omega), mul_one,
        inv_mul_succ]

/-- A placement only depends on how many turns it gets through its chance to finish. -/
theorem expect_place_mono (infos : BlockioInfos) (next seqno available : ℕ) (iterate : List ℕ)
    (k : ℕ × List ℕ → ℝ≥0∞) :
    Monotone fun fuel => (place infos next fuel seqno available iterate).expect k := by
  refine monotone_nat_of_le_succ fun fuel => ?_
  induction fuel generalizing seqno available iterate k with
  | zero => exact bot_le
  | succ fuel ih =>
    rw [place, place]
    split_ifs
    · simp only [Draw.expect_bind]
      exact ih ..
    · simp only [Draw.expect_bind]
      refine Draw.expect_mono _ fun outcome => ?_
      split_ifs
      · exact le_rfl
      · exact ih ..

/-- Averaged over its outcomes, a placement makes `next` look like a block that was never promised. -/
theorem expect_place_weight {infos : BlockioInfos} {next seqno : ℕ} {iterate : List ℕ}
    {available : Finset ℕ} {ys : List ℕ} (sorted : iterate.SortedByKey (due infos))
    (future : ∀ c ∈ iterate, seqno < due infos c) (absent : next ∉ iterate)
    (unavailable : next ∉ available) (disjoint : ∀ c ∈ iterate, c ∉ available) :
    ⨆ fuel, (place infos next fuel seqno (available.card + 1) iterate).expect
        (fun p => weight (Function.update (due infos) next p.1) p.2 available seqno ys) =
      weight (due infos) iterate (insert next available) seqno ys := by
  induction ys generalizing seqno iterate available with
  | nil => simpa only [weight] using place_terminates sorted future
  | cons y ys ih =>
    by_cases occupied : iterate.head?.map (due infos) = some (seqno + 1)
    · obtain ⟨c, rest, rfl⟩ : ∃ c rest, iterate = c :: rest := by
        cases iterate with
        | nil => simp at occupied
        | cons c rest => exact ⟨c, rest, rfl⟩
      have promised : due infos c = seqno + 1 := by simpa using occupied
      obtain ⟨after, sortedRest⟩ := List.pairwise_cons.mp sorted
      have different : c ≠ next := fun same => absent (same ▸ List.mem_cons_self)
      have step (t : ℕ) (list : List ℕ) :
          weight (Function.update (due infos) next t) (c :: list) available seqno (y :: ys) =
            if c = y then weight (Function.update (due infos) next t) list (insert c available)
              (seqno + 1) ys else 0 := by
        rw [weight, if_pos (by simp [Function.update_of_ne different, promised])]
        by_cases asked : c = y
        · subst asked; simp
        · simp [asked]
      rw [← sup_iSup_nat_succ]
      simp only [expect_place_occupied promised, step]
      rw [weight, if_pos occupied]
      by_cases asked : c = y
      · subst asked
        simp only [if_true, List.head?_cons, List.tail_cons]
        rw [show available.card + 1 = (insert c available).card from
          (Finset.card_insert_of_notMem (disjoint c List.mem_cons_self)).symm, ih sortedRest,
          Finset.insert_comm]
        · exact zero_max _
        · exact fun d member => promised ▸ after d member
        · exact fun member => absent (List.mem_cons_of_mem _ member)
        · simp [different.symm, unavailable]
        · intro d member
          have apart : c ≠ d := fun same => absurd (after d member) (by rw [same]; exact lt_irrefl _)
          simp [apart.symm, disjoint d (List.mem_cons_of_mem _ member)]
      · simp [asked, place, Draw.expect_zero]
    · have later := later_of_free sorted future occupied
      have first : weight (Function.update (due infos) next (seqno + 1)) (next :: iterate) available seqno
          (y :: ys) = if y = next then weight (due infos) iterate (insert next available) (seqno + 1) ys
            else 0 := by
        have same : ∀ c ∈ iterate, Function.update (due infos) next (seqno + 1) c = due infos c :=
          fun c member => Function.update_of_ne (ne_of_mem_of_not_mem member absent) ..
        rw [weight, if_pos (by simp)]
        by_cases asked : y = next
        · subst asked; simp [weight_congr same]
        · simp [asked, Ne.symm asked]
      have others (fuel : ℕ) : (place infos next fuel (seqno + 1) (available.card + 1) iterate).expect
            (fun p => weight (Function.update (due infos) next p.1) p.2 available seqno (y :: ys)) =
          (if y ∈ available then (available.card : ℝ≥0∞)⁻¹ else 0) *
            (place infos next fuel (seqno + 1) (available.card + 1) iterate).expect
              fun p => weight (Function.update (due infos) next p.1) p.2 available (seqno + 1) ys := by
        rw [← Draw.expect_const_mul]
        refine Draw.expect_congr (place_safe (by omega) sorted later absent) ?_
        rintro ⟨t, placed⟩ ⟨after, -, inserted, -⟩
        dsimp only at after inserted ⊢
        have unpromised : placed.head?.map (Function.update (due infos) next t) ≠ some (seqno + 1) := by
          cases placed with
          | nil => simp
          | cons d tail =>
            have member := (List.insertByKey_perm inserted).mem_iff.mp List.mem_cons_self
            rcases List.mem_cons.mp member with rfl | inIterate
            · simpa using after.ne'
            · have := later d inIterate
              simpa [Function.update_of_ne (ne_of_mem_of_not_mem inIterate absent)] using this.ne'
        rw [weight, if_neg unpromised]
        split_ifs <;> simp
      rw [iSup_affine rfl fun fuel => expect_place_free occupied _]
      simp only [others, first, ← ENNReal.mul_iSup]
      rw [ih sorted later absent unavailable disjoint, weight, if_neg occupied,
        Finset.card_insert_of_notMem unavailable]
      by_cases asked : y = next
      · subst asked
        simp [unavailable]
      · by_cases inside : y ∈ available
        · have positive : (available.card : ℝ≥0∞) ≠ 0 := by
            simpa using Finset.ne_empty_of_mem inside
          rw [if_neg asked, if_pos inside, if_pos (by simp [inside]), zero_add, ← mul_assoc _ _⁻¹,
            ENNReal.mul_inv_cancel positive (by finiteness), one_mul]
        · simp [asked, inside]

/-! ## One call -/

/-- The state `reschedule` is left in by each outcome of the placement. -/
theorem expect_reschedule (fuel : ℕ) (j : Juggler) (infos : BlockioInfos) (b : ℕ)
    (k : Option ℕ × Juggler × BlockioInfos → ℝ≥0∞) :
    (reschedule fuel j infos b false).expect k =
      (place infos b fuel (j.seqno + 1) (j.noUnscheduled + 1) j.scheduled).expect fun p =>
        k (some b, { j with seqno := j.seqno + 1, scheduled := p.2, noScheduled := j.noScheduled + 1 },
          infos.set b { infos b with seqno := j.seqno + 1, nextSeqno := p.1 }) := by
  unfold reschedule
  simp

theorem expect_reschedule_mono (j : Juggler) (infos : BlockioInfos) (b : ℕ)
    (k : Option ℕ × Juggler × BlockioInfos → ℝ≥0∞) :
    Monotone fun fuel => (reschedule fuel j infos b false).expect k := by
  simp only [expect_reschedule]
  exact expect_place_mono ..

/-- A promised block is handed out. -/
theorem expect_getDevblock_promised {fuel : ℕ} {j : Juggler} {infos : BlockioInfos} {b : ℕ}
    (obsoleted : j.getObsoleted infos = some b) (k : Option ℕ × Juggler × BlockioInfos → ℝ≥0∞) :
    (getDevblock fuel j infos false).expect k =
      (reschedule fuel { j with scheduled := j.scheduled.tail, noScheduled := j.noScheduled - 1 } infos b
        false).expect k := by
  unfold getDevblock
  simp [obsoleted]

/-- Otherwise each of the unscheduled blocks is handed out with the same chance. -/
theorem expect_getDevblock_unpromised {fuel : ℕ} {j : Juggler} {infos : BlockioInfos}
    (obsoleted : j.getObsoleted infos = none) (count : j.noUnscheduled = j.unscheduled.length)
    (positive : 0 < j.noUnscheduled) (k : Option ℕ × Juggler × BlockioInfos → ℝ≥0∞) :
    (getDevblock fuel j infos false).expect k = (j.noUnscheduled : ℝ≥0∞)⁻¹ *
      ∑ i : Fin j.unscheduled.length, (reschedule fuel { j with
        unscheduled := j.unscheduled.eraseIdx i, noUnscheduled := j.noUnscheduled - 1 } infos
        (j.unscheduled.get i) false).expect k := by
  have stocked : j.unscheduled ≠ [] := by
    intro empty
    simp [count, empty] at positive
  unfold getDevblock
  simp only [obsoleted, Bool.false_and, Bool.false_eq_true, if_false, check_of _ _ (And.intro stocked positive.ne'),
    Draw.lift_ok, Draw.ret_bind, randomCustom, if_neg positive.ne', Draw.expect_bind, Draw.expect_draw]
  rw [count]
  congr 1
  refine Finset.sum_congr rfl fun i _ => ?_
  rw [unlinkNth_eq i.isLt]
  rfl

theorem expect_getDevblock_mono (j : Juggler) (infos : BlockioInfos)
    (k : Option ℕ × Juggler × BlockioInfos → ℝ≥0∞) :
    Monotone fun fuel => (getDevblock fuel j infos false).expect k := by
  intro fuel fuel' le
  unfold getDevblock
  cases obsoleted : j.getObsoleted infos with
  | some b => simpa using expect_reschedule_mono _ infos b k le
  | none =>
    simp only [Bool.false_and, Bool.false_eq_true, if_false, Draw.expect_bind]
    refine Draw.expect_mono _ fun _ => Draw.expect_mono _ fun index => Draw.expect_mono _ fun pair => ?_
    exact expect_reschedule_mono _ infos pair.1 k le

/-- The chance that the first calls answer exactly `xs`. -/
noncomputable def chance (fuel : ℕ) (xs : List ℕ) (j : Juggler) (infos : BlockioInfos) : ℝ≥0∞ :=
  (getDevblocks fuel xs.length j infos).expect fun answers => if answers = xs.map some then 1 else 0

theorem chance_nil (fuel : ℕ) (j : Juggler) (infos : BlockioInfos) : chance fuel [] j infos = 1 := by
  simp [chance, getDevblocks]

theorem chance_cons (fuel x : ℕ) (xs : List ℕ) (j : Juggler) (infos : BlockioInfos) :
    chance fuel (x :: xs) j infos =
      (getDevblock fuel j infos false).expect fun r =>
        if r.1 = some x then chance fuel xs r.2.1 r.2.2 else 0 := by
  rw [chance, List.length_cons, getDevblocks, Draw.expect_bind]
  congr 1
  funext r
  rw [Draw.expect_bind]
  by_cases asked : r.1 = some x
  · simp [asked, chance]
  · simp [asked, Draw.expect_zero]

theorem chance_mono (xs : List ℕ) : Monotone fun fuel => fun r : Juggler × BlockioInfos =>
    chance fuel xs r.1 r.2 := by
  induction xs with
  | nil => intro fuel fuel' le r; simp [chance_nil]
  | cons x xs ih =>
    intro fuel fuel' le r
    simp only [chance_cons]
    refine (expect_getDevblock_mono r.1 r.2 _ le).trans (Draw.expect_mono _ fun s => ?_)
    split_ifs
    · exact ih le s.2
    · exact le_rfl

theorem expect_reschedule_answer (fuel x : ℕ) (xs : List ℕ) (j : Juggler) (infos : BlockioInfos) (b : ℕ) :
    ((reschedule fuel j infos b false).expect fun r =>
        if r.1 = some x then chance fuel xs r.2.1 r.2.2 else 0) =
      if b = x then (reschedule fuel j infos b false).expect fun r => chance fuel xs r.2.1 r.2.2
      else 0 := by
  simp only [expect_reschedule]
  by_cases asked : b = x
  · simp [asked]
  · simp [asked, Draw.expect_zero]

/-- After `b` was taken from the lists, its new promise does not show in what follows. -/
theorem iSup_expect_reschedule {j : Juggler} {infos : BlockioInfos} {blocks : Finset ℕ} {b : ℕ}
    {xs : List ℕ} (lists : Lists j infos blocks) (absent : b ∉ blocks)
    (future : ∀ c ∈ j.scheduled, j.seqno + 1 < due infos c)
    (ih : ∀ {j : Juggler} {infos : BlockioInfos}, Invariant j infos (insert b blocks) →
      ⨆ fuel, chance fuel xs j infos =
        weight (due infos) j.scheduled j.unscheduled.toFinset j.seqno xs) :
    ⨆ fuel, ((reschedule fuel j infos b false).expect fun r => chance fuel xs r.2.1 r.2.2) =
      weight (due infos) j.scheduled (insert b j.unscheduled.toFinset) (j.seqno + 1) xs := by
  have nodup := List.nodup_append.mp lists.nodup
  have card : j.unscheduled.toFinset.card = j.noUnscheduled := by
    rw [List.toFinset_card_of_nodup nodup.2.1, lists.noUnscheduled]
  have settled (fuel : ℕ) :
      ((reschedule fuel j infos b false).expect fun r => ⨆ fuel', chance fuel' xs r.2.1 r.2.2) =
        (place infos b fuel (j.seqno + 1) (j.noUnscheduled + 1) j.scheduled).expect fun p =>
          weight (Function.update (due infos) b p.1) p.2 j.unscheduled.toFinset (j.seqno + 1) xs := by
    rw [Draw.expect_congr (reschedule_safe lists absent future) fun r found => ih found.2,
      expect_reschedule]
    simp only [due_set]
  rw [Draw.iSup_expect_diagonal (k := fun fuel r => chance fuel xs r.2.1 r.2.2)
    (expect_reschedule_mono j infos b) fun fuel fuel' le r => chance_mono xs le r.2]
  simp only [settled, ← card]
  refine expect_place_weight lists.sorted future (lists.not_mem_scheduled absent) ?_ ?_
  · simpa using lists.not_mem_unscheduled absent
  · intro c member
    simpa using fun inUnscheduled => nodup.2.2 c member c inUnscheduled rfl

/-- The chance of a sequence of answers, from any well-formed schedule. -/
theorem iSup_chance {j : Juggler} {infos : BlockioInfos} {blocks : Finset ℕ} (nonempty : blocks.Nonempty)
    (inv : Invariant j infos blocks) (xs : List ℕ) :
    ⨆ fuel, chance fuel xs j infos =
      weight (due infos) j.scheduled j.unscheduled.toFinset j.seqno xs := by
  induction xs generalizing j infos with
  | nil => simp [chance_nil, weight]
  | cons x xs ih =>
    simp only [chance_cons]
    cases obsoleted : j.getObsoleted infos with
    | some b =>
      obtain ⟨rest, scheduled, promised⟩ := getObsoleted_eq_some_iff.mp obsoleted
      have member : b ∈ blocks := inv.mem_of_scheduled (by simp [scheduled])
      have sorted := inv.sorted
      rw [scheduled] at sorted
      simp only [expect_getDevblock_promised obsoleted, expect_reschedule_answer, scheduled,
        List.tail_cons]
      rw [weight, if_pos (by simpa using promised)]
      by_cases asked : b = x
      · subst asked
        simp only [if_true, List.head?_cons, List.tail_cons]
        refine iSup_expect_reschedule (inv.pop scheduled) (Finset.notMem_erase b blocks) ?_ ?_
        · exact fun c inRest => promised ▸ (List.pairwise_cons.mp sorted).1 c inRest
        · exact fun kept => ih (by rwa [Finset.insert_erase member] at kept)
      · simp [asked]
    | none =>
      have positive := inv.unscheduled_pos nonempty obsoleted
      have nodup : j.unscheduled.Nodup := (List.nodup_append.mp inv.nodup).2.1
      have card : j.unscheduled.toFinset.card = j.noUnscheduled := by
        rw [List.toFinset_card_of_nodup nodup, inv.noUnscheduled]
      have term (i : Fin j.unscheduled.length) :
          ⨆ fuel, (if j.unscheduled.get i = x then (reschedule fuel { j with
              unscheduled := j.unscheduled.eraseIdx i, noUnscheduled := j.noUnscheduled - 1 } infos
              (j.unscheduled.get i) false).expect fun r => chance fuel xs r.2.1 r.2.2 else 0) =
            if j.unscheduled.get i = x then
              weight (due infos) j.scheduled j.unscheduled.toFinset (j.seqno + 1) xs else 0 := by
        have perm : (j.unscheduled.get i :: j.unscheduled.eraseIdx i).Perm j.unscheduled :=
          List.getElem_cons_eraseIdx_perm i.isLt
        have member : j.unscheduled.get i ∈ blocks :=
          inv.mem_of_unscheduled (perm.mem_iff.mp List.mem_cons_self)
        split_ifs
        · rw [iSup_expect_reschedule (inv.unlink perm) (Finset.notMem_erase _ blocks)
            (inv.later_of_unpromised obsoleted)
            fun kept => ih (by rwa [Finset.insert_erase member] at kept)]
          dsimp only
          rw [← List.toFinset_cons, List.toFinset_eq_of_perm _ _ perm]
        · simp
      simp only [expect_getDevblock_unpromised obsoleted inv.noUnscheduled positive,
        expect_reschedule_answer]
      rw [← ENNReal.mul_iSup, ← ENNReal.finsetSum_iSup_of_monotone]
      · simp only [term]
        rw [weight, if_neg (getObsoleted_eq_none_iff.mp obsoleted), card]
        by_cases inside : x ∈ j.unscheduled
        · obtain ⟨i, found⟩ := List.get_of_mem inside
          rw [if_pos (by simpa using inside), Finset.sum_eq_single i, if_pos found]
          · intro i' _ different
            exact if_neg fun found' => different ((List.nodup_iff_injective_get.mp nodup)
              (found'.trans found.symm))
          · simp
        · rw [if_neg (by simpa using inside), Finset.sum_eq_zero, mul_zero]
          intro i _
          refine if_neg fun found => inside ?_
          rw [← found]
          exact List.get_mem ..
      · intro i fuel fuel' le
        dsimp only
        split_ifs
        · exact (expect_reschedule_mono _ infos _ _ le).trans
            (Draw.expect_mono _ fun r => chance_mono xs le r.2)
        · exact le_rfl

/-- The juggler after adding fresh blocks to an empty one. -/
theorem Invariant.addAll_fresh {blocks : List ℕ} {infos : BlockioInfos} {held : Finset ℕ}
    {start j : Juggler} (inv : Invariant start infos held) (unscheduled : start.scheduled = [])
    (nodup : blocks.Nodup) (absent : ∀ b ∈ blocks, b ∉ held)
    (fresh : ∀ b ∈ blocks, (infos b).seqno = 0 ∧ (infos b).nextSeqno = 0)
    (added : blocks.foldlM (fun j b => j.addMacroblock infos b) start = .ok j) :
    Invariant j infos (held ∪ blocks.toFinset) ∧ j.scheduled = [] := by
  induction blocks generalizing start held with
  | nil =>
    cases added
    exact ⟨by simpa using inv, unscheduled⟩
  | cons b rest ih =>
    obtain ⟨apart, nodup⟩ := List.nodup_cons.mp nodup
    obtain ⟨seqno, nextSeqno⟩ := fresh b List.mem_cons_self
    obtain ⟨next, addedHead, invNext, rfl⟩ :=
      inv.addMacroblock_fresh (absent b List.mem_cons_self) seqno nextSeqno
    rw [List.foldlM_cons, addedHead] at added
    have kept := ih invNext unscheduled nodup ?_ (fun c member => fresh c (List.mem_cons_of_mem _ member)) added
    · rwa [List.toFinset_cons, Finset.union_insert, ← Finset.insert_union]
    · intro c member inside
      rcases Finset.mem_insert.mp inside with rfl | inHeld
      · exact apart member
      · exact absent c (List.mem_cons_of_mem _ member) inHeld

/-- With `N` fresh blocks and independent uniform draws, the calls hand out any given sequence of
blocks with probability `N⁻¹ ^ n`. The probability is that of the loop without a bound on its turns. -/
theorem getDevblocks_uniform (blocks : List ℕ) {infos : BlockioInfos} {j : Juggler}
    (nonempty : blocks ≠ []) (nodup : blocks.Nodup)
    (fresh : ∀ b ∈ blocks, (infos b).seqno = 0 ∧ (infos b).nextSeqno = 0)
    (added : blocks.foldlM (fun j b => j.addMacroblock infos b) Juggler.init = .ok j)
    (xs : List ℕ) (members : ∀ x ∈ xs, x ∈ blocks) :
    Filter.Tendsto (fun fuel => (getDevblocks fuel xs.length j infos).toPMF (some (xs.map some)))
      Filter.atTop (nhds ((blocks.length : ℝ≥0∞)⁻¹ ^ xs.length)) := by
  obtain ⟨inv, unscheduled⟩ := (Invariant.init infos).addAll_fresh rfl nodup (by simp) fresh added
  rw [Finset.empty_union] at inv
  have held : blocks.toFinset.Nonempty := by
    obtain ⟨b, rest, rfl⟩ := List.exists_cons_of_ne_nil nonempty
    exact ⟨b, by simp⟩
  have same : j.unscheduled.toFinset = blocks.toFinset := by
    ext b
    have := inv.mem_iff b
    simpa [unscheduled] using this
  have limit := iSup_chance held inv xs
  rw [unscheduled, same, weight_unpromised (by simpa using members), List.toFinset_card_of_nodup nodup]
    at limit
  simp only [Draw.toPMF_some_eq_expect]
  rw [← limit]
  exact tendsto_atTop_iSup fun fuel fuel' le => chance_mono xs le (j, infos)

/-- Two blocks, three calls. -/
theorem getDevblocks_uniform_two :
    Filter.Tendsto (fun fuel =>
        (getDevblocks fuel 3 ⟨[], [2, 1], 0, 2, 0⟩ fun _ => {}).toPMF (some [some 1, some 1, some 2]))
      Filter.atTop (nhds ((2 : ℝ≥0∞)⁻¹ ^ 3)) :=
  getDevblocks_uniform [1, 2] (by simp) (by simp) (by simp) rfl [1, 1, 2] (by simp)

end Scubed3.Juggler
