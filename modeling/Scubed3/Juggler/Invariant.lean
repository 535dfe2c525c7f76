import Scubed3.Model.Juggler
import Mathlib.Data.Finset.Basic
import Mathlib.Data.List.TakeWhile

/-! # What one call of the juggler does, and the invariant of the schedule

`Handout` says everything a call that keeps its block can do, for any state of the two lists.
`Invariant` is the shape of the lists: the schedule is strictly sorted and lies in the future, the
counters are the lengths, no block is listed twice, and a sequence number that nobody is scheduled
for only comes up while an unscheduled block is left to fill it. Both ways to discard a block keep
it, because `juggler_discard_possible` refuses exactly the discards that would leave such a hole.
-/

namespace Scubed3.Juggler

/-- The sequence number at which a block is handed out again. -/
abbrev due (infos : BlockioInfos) (b : ℕ) : ℕ := (infos b).nextSeqno

theorem due_set (infos : BlockioInfos) (b : ℕ) (info : BlockioInfo) :
    due (infos.set b info) = Function.update (due infos) b info.nextSeqno := by
  funext c
  by_cases same : c = b
  · subst same; simp [due]
  · simp [due, infos.set_of_ne info same, same]

/-- The two lists hold exactly `blocks`, each once, the first sorted on `next_seqno`. -/
structure Lists (j : Juggler) (infos : BlockioInfos) (blocks : Finset ℕ) : Prop where
  sorted : j.scheduled.SortedByKey (due infos)
  noScheduled : j.noScheduled = j.scheduled.length
  noUnscheduled : j.noUnscheduled = j.unscheduled.length
  nodup : (j.scheduled ++ j.unscheduled).Nodup
  mem_iff : ∀ b, b ∈ j.scheduled ++ j.unscheduled ↔ b ∈ blocks

/-- The invariant of the juggler between two calls. -/
structure Invariant (j : Juggler) (infos : BlockioInfos) (blocks : Finset ℕ) : Prop
    extends Lists j infos blocks where
  future : ∀ b ∈ j.scheduled, j.seqno < due infos b
  noHole : blocks.Nonempty → j.noUnscheduled = 0 →
    j.scheduled.head?.map (due infos) = some (j.seqno + 1)

theorem getObsoleted_cons (j : Juggler) (infos : BlockioInfos) {c : ℕ} {rest : List ℕ}
    (scheduled : j.scheduled = c :: rest) :
    j.getObsoleted infos = if due infos c = j.seqno + 1 then some c else none := by
  rw [getObsoleted, scheduled]

theorem getObsoleted_eq_some_iff {j : Juggler} {infos : BlockioInfos} {b : ℕ} :
    j.getObsoleted infos = some b ↔
      ∃ rest, j.scheduled = b :: rest ∧ due infos b = j.seqno + 1 := by
  cases scheduled : j.scheduled with
  | nil => simp [getObsoleted, scheduled]
  | cons c rest =>
    rw [getObsoleted_cons j infos scheduled]
    constructor
    · intro found
      split_ifs at found with promised
      cases found
      exact ⟨rest, rfl, promised⟩
    · rintro ⟨_, same, promised⟩
      cases same
      exact if_pos promised

theorem getObsoleted_eq_none_iff {j : Juggler} {infos : BlockioInfos} :
    j.getObsoleted infos = none ↔ j.scheduled.head?.map (due infos) ≠ some (j.seqno + 1) := by
  cases scheduled : j.scheduled with
  | nil => simp [getObsoleted, scheduled]
  | cons c rest => simp [getObsoleted_cons j infos scheduled]

theorem unlinkNth_eq {list : List ℕ} {index : ℕ} (bound : index < list.length) :
    unlinkNth list index = .ok (list[index], list.eraseIdx index) := by
  induction list generalizing index with
  | nil => simp at bound
  | cons b rest ih =>
    cases index with
    | zero => rfl
    | succ index =>
      have tail : unlinkNth rest index = _ := ih (by simpa using bound)
      simp only [unlinkNth, tail]
      rfl

theorem unlinkNth_perm {b : ℕ} {list rest : List ℕ} {index : ℕ}
    (unlinked : unlinkNth list index = .ok (b, rest)) : (b :: rest).Perm list := by
  induction list generalizing index rest with
  | nil => cases unlinked
  | cons c list ih =>
    cases index with
    | zero => cases unlinked; exact .refl _
    | succ index =>
      simp only [unlinkNth] at unlinked
      cases found : unlinkNth list index with
      | error e => rw [found] at unlinked; cases unlinked
      | ok pair =>
        obtain ⟨next, tail⟩ := pair
        rw [found] at unlinked
        cases unlinked
        exact (List.Perm.swap c next tail).trans ((ih found).cons c)

/-! ## What a call does, in any state -/

/-- The loop only links the block in somewhere, at a later sequence number. -/
theorem place_yields (infos : BlockioInfos) (next fuel nextSeqno available : ℕ) (iterate : List ℕ) :
    Draw.Yields (place infos next fuel nextSeqno available iterate)
      fun placed => nextSeqno < placed.1 ∧ placed.2.Perm (next :: iterate) := by
  induction fuel generalizing nextSeqno available iterate with
  | zero => exact .starve
  | succ fuel ih =>
    unfold place
    split
    · next occupied =>
      obtain ⟨c, rest, rfl⟩ : ∃ c rest, iterate = c :: rest := by
        cases iterate with
        | nil => simp at occupied
        | cons c rest => exact ⟨c, rest, rfl⟩
      refine .bind (ih _ _ rest) fun placed found => .pure ⟨by omega, ?_⟩
      exact ((found.2.cons c).trans (.swap next c rest))
    · refine .bind (m := fun _ => True) ?_ fun outcome _ => ?_
      · unfold randomCustom
        split
        · exact .raise trivial
        · next positive => exact .draw (by omega) fun _ _ => trivial
      · split
        · exact .pure ⟨by omega, .refl _⟩
        · exact (ih _ _ iterate).imp fun placed found => ⟨by omega, found.2⟩

/-- Everything `juggler_get_devblock(j, 0)` can do when it hands out `b`. -/
structure Handout (j : Juggler) (infos : BlockioInfos) (b : ℕ) (j' : Juggler)
    (infos' : BlockioInfos) : Prop where
  seqno : j'.seqno = j.seqno + 1
  infos_eq : ∃ t, j.seqno + 1 < t ∧
    infos' = infos.set b { infos b with seqno := j.seqno + 1, nextSeqno := t }
  source : (j.getObsoleted infos = some b ∧ j'.scheduled.Perm j.scheduled ∧
      j'.unscheduled = j.unscheduled) ∨
    (j.getObsoleted infos = none ∧ j'.scheduled.Perm (b :: j.scheduled) ∧
      (b :: j'.unscheduled).Perm j.unscheduled)

namespace Handout

variable {j j' : Juggler} {infos infos' : BlockioInfos} {b : ℕ}

/-- The block that is handed out is scheduled again. -/
theorem listed (handout : Handout j infos b j' infos') : b ∈ j'.scheduled := by
  rcases handout.source with ⟨obsoleted, perm, -⟩ | ⟨-, perm, -⟩
  · obtain ⟨rest, head, -⟩ := getObsoleted_eq_some_iff.mp obsoleted
    exact perm.mem_iff.mpr (by simp [head])
  · exact perm.mem_iff.mpr List.mem_cons_self

/-- Other blocks stay where they are. -/
theorem scheduled_iff (handout : Handout j infos b j' infos') {c : ℕ} (other : c ≠ b) :
    c ∈ j'.scheduled ↔ c ∈ j.scheduled := by
  rcases handout.source with ⟨-, perm, -⟩ | ⟨-, perm, -⟩
  · exact perm.mem_iff
  · rw [perm.mem_iff, List.mem_cons]
    exact or_iff_right other

end Handout

theorem reschedule_yields (fuel : ℕ) (j : Juggler) (infos : BlockioInfos) (b : ℕ) :
    Draw.Yields (reschedule fuel j infos b false) fun r => r.1 = some b ∧
      r.2.1.seqno = j.seqno + 1 ∧ r.2.1.scheduled.Perm (b :: j.scheduled) ∧
      r.2.1.unscheduled = j.unscheduled ∧ ∃ t, j.seqno + 1 < t ∧
        r.2.2 = infos.set b { infos b with seqno := j.seqno + 1, nextSeqno := t } := by
  unfold reschedule
  refine .bind (place_yields ..) fun placed found => .pure ⟨rfl, rfl, found.2, rfl, placed.1, found.1, rfl⟩

theorem getDevblock_yields (fuel : ℕ) (j : Juggler) (infos : BlockioInfos) :
    Draw.Yields (getDevblock fuel j infos false)
      fun r => ∃ b, r.1 = some b ∧ Handout j infos b r.2.1 r.2.2 := by
  unfold getDevblock
  cases obsoleted : j.getObsoleted infos with
  | some b =>
    obtain ⟨rest, scheduled, -⟩ := getObsoleted_eq_some_iff.mp obsoleted
    refine (reschedule_yields ..).imp fun r => ?_
    rintro ⟨handed, seqno, perm, unscheduled, infosEq⟩
    refine ⟨b, handed, seqno, infosEq, .inl ⟨obsoleted, ?_, unscheduled⟩⟩
    simpa [scheduled] using perm
  | none =>
    refine .bind (m := fun _ => True) (.lift (fun _ _ => trivial) fun _ _ => trivial) fun _ _ => ?_
    refine .bind (m := fun _ => True) (.of_forall_done fun _ _ _ _ => trivial) fun index _ => ?_
    refine .bind (m := fun pair => (pair.1 :: pair.2).Perm j.unscheduled)
      (.lift (fun _ found => unlinkNth_perm found) fun _ _ => trivial) fun pair perm => ?_
    refine (reschedule_yields ..).imp fun r => ?_
    rintro ⟨handed, seqno, scheduled, unscheduled, infosEq⟩
    exact ⟨pair.1, handed, seqno, infosEq, .inr ⟨obsoleted, scheduled, unscheduled ▸ perm⟩⟩

/-! ## What a call does to a well-formed schedule -/

/-- When nobody is promised the next slot, everybody is promised a later one. -/
theorem later_of_free {infos : BlockioInfos} {seqno : ℕ} {iterate : List ℕ}
    (sorted : iterate.SortedByKey (due infos)) (future : ∀ c ∈ iterate, seqno < due infos c)
    (free : iterate.head?.map (due infos) ≠ some (seqno + 1)) : ∀ c ∈ iterate, seqno + 1 < due infos c := by
  cases iterate with
  | nil => simp
  | cons c rest =>
    have first := future c List.mem_cons_self
    have different : due infos c ≠ seqno + 1 := by simpa using free
    intro d member
    rcases List.mem_cons.mp member with rfl | inRest
    · omega
    · have := (List.pairwise_cons.mp sorted).1 d inRest
      omega

/-- On a sorted schedule the loop picks a free sequence number and sorts the block in there. With
one available block it takes the very next number unless that one is already promised. -/
theorem place_safe {infos : BlockioInfos} {next fuel nextSeqno available : ℕ} {iterate : List ℕ}
    (positive : 0 < available) (sorted : iterate.SortedByKey (due infos))
    (future : ∀ c ∈ iterate, nextSeqno < due infos c) (absent : next ∉ iterate) :
    Draw.Safe (place infos next fuel nextSeqno available iterate) fun placed =>
      nextSeqno < placed.1 ∧ (∀ c ∈ iterate, due infos c ≠ placed.1) ∧
      iterate.insertByKey (Function.update (due infos) next placed.1) next = some placed.2 ∧
      (available = 1 → placed.2.head?.map (Function.update (due infos) next placed.1) =
        some (nextSeqno + 1)) := by
  induction fuel generalizing nextSeqno available iterate with
  | zero => exact .starve
  | succ fuel ih =>
    unfold place
    split
    · next occupied =>
      obtain ⟨c, rest, rfl⟩ : ∃ c rest, iterate = c :: rest := by
        cases iterate with
        | nil => simp at occupied
        | cons c rest => exact ⟨c, rest, rfl⟩
      have promised : due infos c = nextSeqno + 1 := by simpa using occupied
      obtain ⟨after, sorted⟩ := List.pairwise_cons.mp sorted
      have different : c ≠ next := fun same => absent (same ▸ List.mem_cons_self)
      have absentRest : next ∉ rest := fun member => absent (List.mem_cons_of_mem _ member)
      refine .bind (ih (by omega) sorted (fun d member => promised ▸ after d member) absentRest) ?_
      rintro ⟨t, placed⟩ ⟨later, free, inserted, -⟩
      dsimp only [List.tail_cons] at later free inserted
      refine .pure ⟨Nat.lt_of_succ_lt later, ?_, ?_, ?_⟩
      · intro d member
        rcases List.mem_cons.mp member with rfl | member
        · rw [promised]
          exact later.ne
        · exact free d member
      · have before : Function.update (due infos) next t c < Function.update (due infos) next t next := by
          rw [Function.update_of_ne different, Function.update_self, promised]
          exact later
        dsimp only
        rw [List.insertByKey, if_pos before, inserted]
        rfl
      · intro _
        simp [Function.update_of_ne different, promised]
    · next free =>
      have later := later_of_free sorted future free
      refine .bind (randomCustom_ensures positive (q := (· < available)) fun _ bound => bound)
        fun outcome bound => ?_
      split
      · refine .pure ⟨Nat.lt_succ_self _, fun c member => (later c member).ne', ?_, ?_⟩
        · cases iterate with
          | nil => rfl
          | cons c rest =>
            have different : c ≠ next := fun same => absent (same ▸ List.mem_cons_self)
            have after : Function.update (due infos) next (nextSeqno + 1) next <
                Function.update (due infos) next (nextSeqno + 1) c := by
              rw [Function.update_of_ne different, Function.update_self]
              exact later c List.mem_cons_self
            rw [List.insertByKey, if_neg after.asymm, if_pos after]
        · intro _
          simp
      · next nonzero =>
        refine (ih positive sorted later absent).imp ?_
        rintro placed ⟨after, free, inserted, -⟩
        exact ⟨Nat.lt_of_succ_lt after, free, inserted, fun one => by omega⟩

theorem linkedNext_of_not_mem {list : List ℕ} {b : ℕ} (absent : b ∉ list) : linkedNext list b = none := by
  have all : list.dropWhile (· ≠ b) = [] := by
    apply List.dropWhile_eq_nil_iff.mpr
    intro c member
    simpa using fun same : c = b => absent (same ▸ member)
  rw [linkedNext, all]
  rfl

theorem linkedNext_cons (b : ℕ) (rest : List ℕ) : linkedNext (b :: rest) b = rest.head? := by
  simp [linkedNext]

namespace Lists

variable {j : Juggler} {infos : BlockioInfos} {blocks : Finset ℕ} {b : ℕ}

theorem not_mem_scheduled (lists : Lists j infos blocks) (absent : b ∉ blocks) : b ∉ j.scheduled :=
  fun member => absent ((lists.mem_iff b).mp (List.mem_append_left _ member))

theorem not_mem_unscheduled (lists : Lists j infos blocks) (absent : b ∉ blocks) : b ∉ j.unscheduled :=
  fun member => absent ((lists.mem_iff b).mp (List.mem_append_right _ member))

theorem mem_of_scheduled (lists : Lists j infos blocks) (member : b ∈ j.scheduled) : b ∈ blocks :=
  (lists.mem_iff b).mp (List.mem_append_left _ member)

theorem mem_of_unscheduled (lists : Lists j infos blocks) (member : b ∈ j.unscheduled) : b ∈ blocks :=
  (lists.mem_iff b).mp (List.mem_append_right _ member)

/-- Only the `next_seqno` of listed blocks matters. -/
theorem congr (lists : Lists j infos blocks) (infos' : BlockioInfos)
    (same : ∀ c ∈ j.scheduled, due infos' c = due infos c) : Lists j infos' blocks :=
  { lists with
    sorted := lists.sorted.imp_of_mem fun first second below => by rwa [same _ first, same _ second] }

/-- Unlinking the head of the schedule. -/
theorem pop {rest : List ℕ} (lists : Lists j infos blocks) (scheduled : j.scheduled = b :: rest) :
    Lists { j with scheduled := rest, noScheduled := j.noScheduled - 1 } infos (blocks.erase b) := by
  have nodup := lists.nodup
  have memIff := lists.mem_iff
  rw [scheduled, List.cons_append] at nodup memIff
  obtain ⟨absent, tail⟩ := List.nodup_cons.mp nodup
  refine ⟨?_, ?_, lists.noUnscheduled, tail, fun c => ?_⟩
  · exact (List.pairwise_cons.mp (scheduled ▸ lists.sorted)).2
  · simp [lists.noScheduled, scheduled]
  · rw [Finset.mem_erase, ← memIff c, List.mem_cons]
    constructor
    · exact fun member => ⟨fun same => absent (same ▸ member), .inr member⟩
    · rintro ⟨different, same | member⟩
      · exact absurd same different
      · exact member

/-- Unlinking an unscheduled block. -/
theorem unlink {rest : List ℕ} (lists : Lists j infos blocks) (perm : (b :: rest).Perm j.unscheduled) :
    Lists { j with unscheduled := rest, noUnscheduled := j.noUnscheduled - 1 } infos
      (blocks.erase b) := by
  have whole : (b :: (j.scheduled ++ rest)).Perm (j.scheduled ++ j.unscheduled) :=
    List.perm_middle.symm.trans (perm.append_left j.scheduled)
  obtain ⟨absent, tail⟩ := List.nodup_cons.mp (whole.nodup_iff.mpr lists.nodup)
  refine ⟨lists.sorted, lists.noScheduled, ?_, tail, fun c => ?_⟩
  · have length := perm.length_eq
    simp only [List.length_cons] at length
    have count := lists.noUnscheduled
    dsimp only
    omega
  · rw [Finset.mem_erase, ← lists.mem_iff c, ← whole.mem_iff, List.mem_cons]
    constructor
    · exact fun member => ⟨fun same => absent (same ▸ member), .inr member⟩
    · rintro ⟨different, same | member⟩
      · exact absurd same different
      · exact member

/-- Linking a block into the schedule, with a new `next_seqno`. -/
theorem link {placed : List ℕ} (lists : Lists j infos blocks) (seqno : ℕ) (info : BlockioInfo)
    (absent : b ∉ blocks)
    (inserted : j.scheduled.insertByKey (Function.update (due infos) b info.nextSeqno) b = some placed) :
    Lists { j with seqno, scheduled := placed, noScheduled := j.noScheduled + 1 } (infos.set b info)
      (insert b blocks) := by
  have fresh := lists.not_mem_scheduled absent
  have perm := List.insertByKey_perm inserted
  have whole : (placed ++ j.unscheduled).Perm (b :: (j.scheduled ++ j.unscheduled)) :=
    perm.append_right j.unscheduled
  refine ⟨?_, ?_, lists.noUnscheduled, ?_, fun c => ?_⟩
  · rw [due_set]
    refine List.insertByKey_sorted (lists.sorted.imp_of_mem fun {c d} first second below => ?_) inserted
    rw [Function.update_of_ne (ne_of_mem_of_not_mem first fresh),
      Function.update_of_ne (ne_of_mem_of_not_mem second fresh)]
    exact below
  · simp [perm.length_eq, lists.noScheduled]
  · refine whole.nodup_iff.mpr (List.nodup_cons.mpr ⟨fun member => ?_, lists.nodup⟩)
    exact absent ((lists.mem_iff b).mp member)
  · rw [whole.mem_iff, List.mem_cons, lists.mem_iff, Finset.mem_insert]

/-- A fresh block is put in front of the unscheduled blocks. -/
theorem addMacroblock_fresh (lists : Lists j infos blocks) (absent : b ∉ blocks)
    (seqno : (infos b).seqno = 0) (nextSeqno : (infos b).nextSeqno = 0) :
    ∃ j', j.addMacroblock infos b = .ok j' ∧ Lists j' infos (insert b blocks) ∧
      j' = { j with unscheduled := b :: j.unscheduled, noUnscheduled := j.noUnscheduled + 1 } := by
  refine ⟨_, ?_, ?_, rfl⟩
  · have unlinked : linkedNext j.scheduled b = none ∧ linkedNext j.unscheduled b = none :=
      ⟨linkedNext_of_not_mem (lists.not_mem_scheduled absent),
        linkedNext_of_not_mem (lists.not_mem_unscheduled absent)⟩
    rw [addMacroblock, check_of _ _ unlinked, if_pos ⟨seqno, nextSeqno⟩]
    rfl
  · have perm : (j.scheduled ++ b :: j.unscheduled).Perm (b :: (j.scheduled ++ j.unscheduled)) :=
      List.perm_middle
    refine ⟨lists.sorted, lists.noScheduled, ?_, ?_, fun c => ?_⟩
    · simp [lists.noUnscheduled]
    · refine perm.nodup_iff.mpr (List.nodup_cons.mpr ⟨fun member => ?_, lists.nodup⟩)
      exact absent ((lists.mem_iff b).mp member)
    · rw [perm.mem_iff, List.mem_cons, lists.mem_iff, Finset.mem_insert]

end Lists

namespace Invariant

variable {j : Juggler} {infos : BlockioInfos} {blocks : Finset ℕ} {b : ℕ}

theorem init (infos : BlockioInfos) : Invariant Juggler.init infos ∅ where
  sorted := List.Pairwise.nil
  noScheduled := rfl
  noUnscheduled := rfl
  nodup := List.nodup_nil
  mem_iff := by simp [Juggler.init]
  future := by simp [Juggler.init]
  noHole := by simp

/-- When nobody is promised the next sequence number, an unscheduled block is there to take it. -/
theorem unscheduled_pos (inv : Invariant j infos blocks) (nonempty : blocks.Nonempty)
    (unpromised : j.getObsoleted infos = none) : 0 < j.noUnscheduled := by
  by_contra empty
  exact getObsoleted_eq_none_iff.mp unpromised (inv.noHole nonempty (by omega))

/-- The schedule is sorted: when its head is not due next, nobody in it is. -/
theorem later_of_unpromised (inv : Invariant j infos blocks) (unpromised : j.getObsoleted infos = none) :
    ∀ c ∈ j.scheduled, j.seqno + 1 < due infos c :=
  later_of_free inv.sorted inv.future (getObsoleted_eq_none_iff.mp unpromised)

/-- A fresh block is accepted at any time and becomes unscheduled. -/
theorem addMacroblock_fresh (inv : Invariant j infos blocks) (absent : b ∉ blocks)
    (seqno : (infos b).seqno = 0) (nextSeqno : (infos b).nextSeqno = 0) :
    ∃ j', j.addMacroblock infos b = .ok j' ∧ Invariant j' infos (insert b blocks) ∧
      j' = { j with unscheduled := b :: j.unscheduled, noUnscheduled := j.noUnscheduled + 1 } := by
  obtain ⟨j', added, lists, rfl⟩ := inv.toLists.addMacroblock_fresh absent seqno nextSeqno
  exact ⟨_, added, ⟨lists, inv.future, fun _ empty => by simp at empty⟩, rfl⟩

end Invariant

/-- The second half of a call, on lists from which the block has been taken. -/
theorem reschedule_safe {fuel : ℕ} {j : Juggler} {infos : BlockioInfos} {blocks : Finset ℕ} {b : ℕ}
    (lists : Lists j infos blocks) (absent : b ∉ blocks)
    (future : ∀ c ∈ j.scheduled, j.seqno + 1 < due infos c) :
    Draw.Safe (reschedule fuel j infos b false)
      fun r => r.1 = some b ∧ Invariant r.2.1 r.2.2 (insert b blocks) := by
  have fresh := lists.not_mem_scheduled absent
  unfold reschedule
  refine .bind (place_safe (by omega) lists.sorted future fresh) ?_
  rintro ⟨t, placed⟩ ⟨later, free, inserted, forced⟩
  dsimp only at later free inserted forced
  have linked := lists.link (j.seqno + 1)
    { infos b with seqno := j.seqno + 1, nextSeqno := t } absent inserted
  refine .pure ⟨rfl, linked, fun c member => ?_, fun _ empty => ?_⟩
  · rw [due_set]
    rcases List.mem_cons.mp ((List.insertByKey_perm inserted).mem_iff.mp member) with rfl | member
    · rw [Function.update_self]; exact later
    · rw [Function.update_of_ne (ne_of_mem_of_not_mem member fresh)]
      exact future c member
  · rw [due_set]
    exact forced (by dsimp only at empty; omega)

theorem getDevblock_safe {fuel : ℕ} {j : Juggler} {infos : BlockioInfos} {blocks : Finset ℕ}
    (inv : Invariant j infos blocks) (nonempty : blocks.Nonempty) :
    Draw.Safe (getDevblock fuel j infos false)
      fun r => ∃ b ∈ blocks, r.1 = some b ∧ Invariant r.2.1 r.2.2 blocks := by
  unfold getDevblock
  cases obsoleted : j.getObsoleted infos with
  | some b =>
    obtain ⟨rest, scheduled, promised⟩ := getObsoleted_eq_some_iff.mp obsoleted
    have member : b ∈ blocks := inv.mem_of_scheduled (by simp [scheduled])
    have sorted := inv.sorted
    rw [scheduled] at sorted
    have after := (List.pairwise_cons.mp sorted).1
    have lists := inv.pop scheduled
    simp only [scheduled, List.tail_cons]
    refine (reschedule_safe lists (Finset.notMem_erase b blocks) ?_).imp ?_
    · intro c inRest
      rw [← promised]
      exact after c inRest
    · rintro r ⟨handed, kept⟩
      exact ⟨b, member, handed, by rwa [Finset.insert_erase member] at kept⟩
  | none =>
    have positive := inv.unscheduled_pos nonempty obsoleted
    have stocked : j.unscheduled ≠ [] := by
      intro empty
      simp [inv.noUnscheduled, empty] at positive
    refine .bind (.lift_ok (check_of _ _ ⟨stocked, by omega⟩) (q := fun _ => True) trivial) fun _ _ => ?_
    refine .bind (randomCustom_ensures positive (q := (· < j.noUnscheduled)) fun _ bound => bound)
      fun index bound => ?_
    have bound : index < j.unscheduled.length := inv.noUnscheduled ▸ bound
    refine .bind (.lift_ok (unlinkNth_eq bound) (q := fun pair => (pair.1 :: pair.2).Perm j.unscheduled)
      (List.getElem_cons_eraseIdx_perm bound)) fun pair perm => ?_
    have member : pair.1 ∈ blocks := inv.mem_of_unscheduled (perm.mem_iff.mp List.mem_cons_self)
    have lists := inv.unlink perm
    refine (reschedule_safe lists (Finset.notMem_erase pair.1 blocks) ?_).imp ?_
    · exact inv.later_of_unpromised obsoleted
    · rintro r ⟨handed, kept⟩
      exact ⟨pair.1, member, handed, by rwa [Finset.insert_erase member] at kept⟩

end Scubed3.Juggler
