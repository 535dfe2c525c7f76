import Scubed3.Juggler.Promises
import Mathlib

/-! # The juggler can be rebuilt from the blocks alone

The juggler keeps nothing that the sequence numbers of its blocks do not say. `Settled` adds to the
invariant what ties the records to the lists: a scheduled block carries the numbers of its last
call, an unscheduled one carries zeroes, and the highest number is that of the last call. Adding
the blocks to an empty juggler, in any order, sorts them into the same schedule.
-/

namespace Scubed3.Juggler

/-- The records determine the lists and the counter. -/
structure Settled (j : Juggler) (infos : BlockioInfos) (blocks : Finset ℕ) : Prop
    extends Invariant j infos blocks where
  used : ∀ b ∈ j.scheduled, 0 < (infos b).seqno ∧ (infos b).seqno < (infos b).nextSeqno
  latest : ∀ b ∈ j.scheduled, (infos b).seqno ≤ j.seqno
  fresh : ∀ b ∈ j.unscheduled, (infos b).seqno = 0 ∧ (infos b).nextSeqno = 0
  distinct : ∀ b ∈ j.scheduled, ∀ c ∈ j.scheduled, (infos b).seqno = (infos c).seqno → b = c
  top : j.seqno = 0 ∨ ∃ b ∈ j.scheduled, (infos b).seqno = j.seqno

namespace Settled

variable {j j' : Juggler} {infos infos' : BlockioInfos} {blocks : Finset ℕ} {b : ℕ}

theorem init (infos : BlockioInfos) : Settled Juggler.init infos ∅ where
  toInvariant := Invariant.init infos
  used := by simp [Juggler.init]
  latest := by simp [Juggler.init]
  fresh := by simp [Juggler.init]
  distinct := by simp [Juggler.init]
  top := .inl rfl

/-- Records of blocks that are not listed do not matter, nor do fields other than the numbers. -/
theorem congr (settled : Settled j infos blocks) (infos' : BlockioInfos)
    (same : ∀ c ∈ blocks, (infos' c).seqno = (infos c).seqno ∧ (infos' c).nextSeqno = (infos c).nextSeqno) :
    Settled j infos' blocks := by
  have scheduled : ∀ c ∈ j.scheduled, (infos' c).seqno = (infos c).seqno ∧
      (infos' c).nextSeqno = (infos c).nextSeqno :=
    fun c member => same c (settled.mem_of_scheduled member)
  refine ⟨⟨settled.toLists.congr infos' fun c member => (scheduled c member).2, ?_, ?_⟩, ?_, ?_, ?_, ?_, ?_⟩
  · intro c member
    rw [due, (scheduled c member).2]
    exact settled.future c member
  · intro nonempty empty
    have head := settled.noHole nonempty empty
    cases list : j.scheduled with
    | nil => simp [list] at head
    | cons c rest =>
      rw [list] at head
      simpa [(scheduled c (by simp [list])).2] using head
  · intro c member
    rw [(scheduled c member).1, (scheduled c member).2]
    exact settled.used c member
  · exact fun c member => (scheduled c member).1 ▸ settled.latest c member
  · intro c member
    rw [(same c (settled.mem_of_unscheduled member)).1, (same c (settled.mem_of_unscheduled member)).2]
    exact settled.fresh c member
  · intro c member d member'
    rw [(scheduled c member).1, (scheduled d member').1]
    exact settled.distinct c member d member'
  · refine settled.top.imp_right ?_
    rintro ⟨c, member, last⟩
    exact ⟨c, member, (scheduled c member).1.trans last⟩

/-- A fresh block is added. -/
theorem add (settled : Settled j infos blocks) (absent : b ∉ blocks) (seqno : (infos b).seqno = 0)
    (nextSeqno : (infos b).nextSeqno = 0) :
    ∃ j', j.addMacroblock infos b = .ok j' ∧ Settled j' infos (insert b blocks) ∧
      j' = { j with unscheduled := b :: j.unscheduled, noUnscheduled := j.noUnscheduled + 1 } := by
  obtain ⟨j', added, inv, rfl⟩ := settled.addMacroblock_fresh absent seqno nextSeqno
  refine ⟨_, added, ⟨inv, settled.used, settled.latest, ?_, settled.distinct, settled.top⟩, rfl⟩
  intro c member
  rcases List.mem_cons.mp member with rfl | member
  · exact ⟨seqno, nextSeqno⟩
  · exact settled.fresh c member

/-- A block is handed out. -/
theorem handout (settled : Settled j infos blocks) (handout : Handout j infos b j' infos')
    (inv : Invariant j' infos' blocks) : Settled j' infos' blocks := by
  obtain ⟨t, later, infosEq⟩ := handout.infos_eq
  have own : infos' b = { infos b with seqno := j.seqno + 1, nextSeqno := t } := by
    rw [infosEq, BlockioInfos.set_same]
  have other : ∀ c, c ≠ b → infos' c = infos c := fun c different => by
    rw [infosEq, BlockioInfos.set_of_ne _ _ different]
  have seqno := handout.seqno
  have scheduled : ∀ c ∈ j'.scheduled, c ≠ b → c ∈ j.scheduled :=
    fun c member different => (handout.scheduled_iff different).mp member
  have listed := handout.listed
  refine ⟨inv, ?_, ?_, ?_, ?_, .inr ⟨b, listed, by rw [own, seqno]⟩⟩
  · intro c member
    by_cases same : c = b
    · rw [same, own]
      exact ⟨Nat.succ_pos _, later⟩
    · rw [other c same]
      exact settled.used c (scheduled c member same)
  · intro c member
    by_cases same : c = b
    · rw [same, own, seqno]
    · rw [other c same, seqno]
      exact (settled.latest c (scheduled c member same)).trans (Nat.le_succ _)
  · intro c member
    have different : c ≠ b := by
      rintro rfl
      exact List.disjoint_of_nodup_append inv.nodup listed member
    rw [other c different]
    rcases handout.source with ⟨-, -, unscheduled⟩ | ⟨-, -, perm⟩
    · exact settled.fresh c (unscheduled ▸ member)
    · exact settled.fresh c (perm.mem_iff.mp (List.mem_cons_of_mem _ member))
  · intro c member d member' same
    by_cases first : c = b
    · by_cases second : d = b
      · rw [first, second]
      · have := settled.latest d (scheduled d member' second)
        rw [first, own, other d second] at same
        dsimp only at same
        omega
    · have := settled.latest c (scheduled c member first)
      by_cases second : d = b
      · rw [second, own, other c first] at same
        dsimp only at same
        omega
      · rw [other c first, other d second] at same
        exact settled.distinct c (scheduled c member first) d (scheduled d member' second) same

end Settled

theorem Adds.settled {j j' : Juggler} {infos infos' : BlockioInfos} {held held' : Finset ℕ}
    (adds : Adds j infos held j' infos' held') (settled : Settled j infos held) :
    Settled j' infos' held' := by
  induction adds with
  | refl => exact settled
  | @add j' j'' infos' held' b info _ absent seqno nextSeqno added ih =>
    have unchanged := ih.congr (infos'.set b info) fun c member => by
      rw [BlockioInfos.set_of_ne _ _ (ne_of_mem_of_not_mem member absent)]
      exact ⟨rfl, rfl⟩
    obtain ⟨_, added', kept, -⟩ := unchanged.add absent (by simpa using seqno) (by simpa using nextSeqno)
    cases added.symm.trans added'
    exact kept

theorem History.settled {j : Juggler} {infos : BlockioInfos} {held : Finset ℕ} {calls : List Call}
    (history : History j infos held calls) : Settled j infos held := by
  induction history with
  | init infos => exact .init infos
  | adds _ adds ih => exact adds.settled ih
  | @call j j' infos infos' held calls b fuel tape rest _ ran ih =>
    obtain ⟨_, handed, handout⟩ := (getDevblock_yields fuel j infos).of_done ran
    cases handed
    obtain ⟨_, -, -, inv⟩ := (getDevblock_safe ih.toInvariant
      (getDevblock_nonempty ih.toInvariant ran)).of_done ran
    exact ih.handout handout inv

/-! ## Adding blocks in any order -/

/-- A block in use is sorted in on its `next_seqno`. -/
theorem Lists.addMacroblock_used {j : Juggler} {infos : BlockioInfos} {blocks : Finset ℕ} {b : ℕ}
    (lists : Lists j infos blocks) (absent : b ∉ blocks) (used : (infos b).seqno < (infos b).nextSeqno)
    (apart : ∀ c ∈ j.scheduled, due infos c ≠ due infos b) :
    ∃ j', j.addMacroblock infos b = .ok j' ∧ Lists j' infos (insert b blocks) ∧
      j'.scheduled.Perm (b :: j.scheduled) ∧ j'.unscheduled = j.unscheduled ∧
      j'.seqno = max j.seqno (infos b).seqno := by
  have unlinked : linkedNext j.scheduled b = none ∧ linkedNext j.unscheduled b = none :=
    ⟨linkedNext_of_not_mem (lists.not_mem_scheduled absent),
      linkedNext_of_not_mem (lists.not_mem_unscheduled absent)⟩
  obtain ⟨placed, inserted⟩ := List.insertByKey_isSome apart
  have linked := lists.link (b := b) (max j.seqno (infos b).seqno) (infos b) absent
    (by rwa [Function.update_eq_self])
  have unchanged : infos.set b (infos b) = infos := by
    funext c
    by_cases same : c = b
    · rw [same, BlockioInfos.set_same]
    · rw [BlockioInfos.set_of_ne _ _ same]
  rw [unchanged] at linked
  refine ⟨_, ?_, linked, List.insertByKey_perm inserted, rfl, rfl⟩
  rw [addMacroblock, check_of _ _ unlinked]
  have notFresh : ¬ ((infos b).seqno = 0 ∧ (infos b).nextSeqno = 0) := by omega
  simp only [notFresh, if_false, used, if_true, inserted, notifySeqno]
  by_cases higher : (infos b).seqno > j.seqno
  · rw [if_pos higher, Nat.max_eq_right higher.le]
    rfl
  · rw [if_neg higher, Nat.max_eq_left (by omega)]
    rfl

/-- Adding fresh blocks and blocks in use with distinct `next_seqno`s never fails; every block ends
up in the list its numbers put it in. -/
theorem Lists.addAll {order : List ℕ} {infos : BlockioInfos} {blocks : Finset ℕ} {start : Juggler}
    (lists : Lists start infos blocks) (nodup : order.Nodup) (absent : ∀ b ∈ order, b ∉ blocks)
    (sensible : ∀ b ∈ order, ((infos b).seqno = 0 ∧ (infos b).nextSeqno = 0) ∨
      (infos b).seqno < (infos b).nextSeqno)
    (apart : ∀ b ∈ order, (infos b).seqno < (infos b).nextSeqno → ∀ c ∈ order ++ start.scheduled,
      c ≠ b → due infos c ≠ due infos b) :
    ∃ j, order.foldlM (fun j b => j.addMacroblock infos b) start = .ok j ∧
      Lists j infos (blocks ∪ order.toFinset) ∧
      (∀ c, c ∈ j.scheduled ↔ c ∈ start.scheduled ∨ c ∈ order ∧ (infos c).seqno < (infos c).nextSeqno) ∧
      start.seqno ≤ j.seqno ∧
      (∀ b ∈ order, (infos b).seqno < (infos b).nextSeqno → (infos b).seqno ≤ j.seqno) ∧
      (j.seqno = start.seqno ∨
        ∃ b ∈ order, (infos b).seqno < (infos b).nextSeqno ∧ (infos b).seqno = j.seqno) := by
  induction order generalizing start blocks with
  | nil => exact ⟨start, rfl, by simpa using lists, by simp, le_rfl, by simp, .inl rfl⟩
  | cons b rest ih =>
    obtain ⟨different, nodup⟩ := List.nodup_cons.mp nodup
    have absentHead := absent b List.mem_cons_self
    have tail : ∀ c ∈ rest, c ∉ insert b blocks := by
      intro c member inside
      rcases Finset.mem_insert.mp inside with rfl | inBlocks
      · exact different member
      · exact absent c (List.mem_cons_of_mem _ member) inBlocks
    have union : insert b blocks ∪ rest.toFinset = blocks ∪ (b :: rest).toFinset := by
      rw [List.toFinset_cons, Finset.union_insert, Finset.insert_union]
    rcases sensible b List.mem_cons_self with ⟨seqno, nextSeqno⟩ | used
    · obtain ⟨next, added, listsNext, rfl⟩ := lists.addMacroblock_fresh absentHead seqno nextSeqno
      obtain ⟨j, folded, listsEnd, mem, lower, upper, attained⟩ := ih listsNext nodup tail
        (fun c member => sensible c (List.mem_cons_of_mem _ member))
        (fun c member used d member' => apart c (List.mem_cons_of_mem _ member) used d
          (by simp only [List.cons_append, List.mem_cons]; exact .inr member'))
      refine ⟨j, ?_, union ▸ listsEnd, fun c => ?_, lower, fun c member used => ?_, ?_⟩
      · rw [List.foldlM_cons, added]
        exact folded
      · rw [mem c, List.mem_cons]
        refine or_congr_right ⟨fun ⟨member, used⟩ => ⟨.inr member, used⟩, ?_⟩
        rintro ⟨rfl | member, used⟩
        · omega
        · exact ⟨member, used⟩
      · rcases List.mem_cons.mp member with rfl | member
        · omega
        · exact upper c member used
      · refine attained.imp_right ?_
        rintro ⟨c, member, used⟩
        exact ⟨c, List.mem_cons_of_mem _ member, used⟩
    · obtain ⟨next, added, listsNext, perm, -, seqno⟩ := lists.addMacroblock_used absentHead used
        fun c member => apart b List.mem_cons_self used c
          (List.mem_append_right _ member) (ne_of_mem_of_not_mem (lists.mem_of_scheduled member) absentHead)
      obtain ⟨j, folded, listsEnd, mem, lower, upper, attained⟩ := ih listsNext nodup tail
        (fun c member => sensible c (List.mem_cons_of_mem _ member))
        (fun c member used d member' => apart c (List.mem_cons_of_mem _ member) used d (by
          rcases List.mem_append.mp member' with inRest | inNext
          · simp [inRest]
          · rcases List.mem_cons.mp (perm.mem_iff.mp inNext) with rfl | inStart
            · simp
            · simp [inStart]))
      refine ⟨j, ?_, union ▸ listsEnd, fun c => ?_, ?_, fun c member usedC => ?_, ?_⟩
      · rw [List.foldlM_cons, added]
        exact folded
      · rw [mem c, perm.mem_iff, List.mem_cons, List.mem_cons]
        constructor
        · rintro ((rfl | inStart) | ⟨member, usedC⟩)
          · exact .inr ⟨.inl rfl, used⟩
          · exact .inl inStart
          · exact .inr ⟨.inr member, usedC⟩
        · rintro (inStart | ⟨rfl | member, usedC⟩)
          · exact .inl (.inr inStart)
          · exact .inl (.inl rfl)
          · exact .inr ⟨member, usedC⟩
      · exact (seqno ▸ le_max_left _ _).trans lower
      · rcases List.mem_cons.mp member with rfl | member
        · exact (seqno ▸ le_max_right _ _).trans lower
        · exact upper c member usedC
      · rcases attained with same | ⟨c, member, usedC, last⟩
        · rcases max_choice start.seqno (infos b).seqno with old | new
          · exact .inl (same.trans (seqno.trans old))
          · exact .inr ⟨b, List.mem_cons_self, used, (same.trans (seqno.trans new)).symm⟩
        · exact .inr ⟨c, List.mem_cons_of_mem _ member, usedC, last⟩

/-- Lists that schedule the same blocks and agree on the counter are the lists of a settled juggler. -/
theorem Settled.of_lists {j j' : Juggler} {infos : BlockioInfos} {blocks : Finset ℕ}
    (settled : Settled j infos blocks) (lists : Lists j' infos blocks)
    (members : ∀ b, b ∈ j'.scheduled ↔ b ∈ j.scheduled) (seqno : j'.seqno = j.seqno) :
    Settled j' infos blocks ∧ j'.scheduled = j.scheduled ∧ j'.noScheduled = j.noScheduled ∧
      j'.noUnscheduled = j.noUnscheduled ∧ j'.unscheduled.Perm j.unscheduled := by
  have scheduledPerm : j'.scheduled.Perm j.scheduled :=
    (List.perm_ext_iff_of_nodup (List.nodup_append.mp lists.nodup).1
      (List.nodup_append.mp settled.nodup).1).mpr members
  have scheduled : j'.scheduled = j.scheduled := lists.sorted.eq_of_perm settled.sorted scheduledPerm
  have unscheduled : j'.unscheduled.Perm j.unscheduled := by
    refine (List.perm_ext_iff_of_nodup (List.nodup_append.mp lists.nodup).2.1
      (List.nodup_append.mp settled.nodup).2.1).mpr fun b => ?_
    have first := lists.mem_iff b
    have second := settled.mem_iff b
    have apart := List.disjoint_of_nodup_append lists.nodup (a := b)
    have apart' := List.disjoint_of_nodup_append settled.nodup (a := b)
    rw [scheduled] at first apart
    simp only [List.mem_append] at first second
    tauto
  have noScheduled : j'.noScheduled = j.noScheduled := by
    rw [lists.noScheduled, settled.noScheduled, scheduled]
  have noUnscheduled : j'.noUnscheduled = j.noUnscheduled := by
    rw [lists.noUnscheduled, settled.noUnscheduled, unscheduled.length_eq]
  refine ⟨⟨⟨lists, ?_, ?_⟩, ?_, ?_, ?_, ?_, ?_⟩, scheduled, noScheduled, noUnscheduled, unscheduled⟩
  · rw [scheduled, seqno]; exact settled.future
  · rw [scheduled, seqno, noUnscheduled]; exact settled.noHole
  · rw [scheduled]; exact settled.used
  · rw [scheduled, seqno]; exact settled.latest
  · exact fun b member => settled.fresh b (unscheduled.mem_iff.mp member)
  · rw [scheduled]; exact settled.distinct
  · rw [scheduled, seqno]; exact settled.top

/-- Whatever the order, adding the blocks of a settled juggler to an empty one gives the schedule and
the counter back, and the same unscheduled blocks. -/
theorem Settled.rebuild {j : Juggler} {infos : BlockioInfos} {blocks : Finset ℕ} {order : List ℕ}
    (settled : Settled j infos blocks) (nodup : order.Nodup) (same : ∀ b, b ∈ order ↔ b ∈ blocks) :
    ∃ j', order.foldlM (fun j b => j.addMacroblock infos b) Juggler.init = .ok j' ∧
      Settled j' infos blocks ∧ j'.scheduled = j.scheduled ∧ j'.seqno = j.seqno ∧
      j'.noScheduled = j.noScheduled ∧ j'.noUnscheduled = j.noUnscheduled ∧
      j'.unscheduled.Perm j.unscheduled := by
  have used : ∀ b ∈ blocks, b ∈ j.scheduled ↔ (infos b).seqno < (infos b).nextSeqno := by
    intro b member
    refine ⟨fun scheduled => (settled.used b scheduled).2, fun below => ?_⟩
    rcases List.mem_append.mp ((settled.mem_iff b).mpr member) with scheduled | unscheduled
    · exact scheduled
    · have := settled.fresh b unscheduled
      omega
  obtain ⟨j', folded, lists, mem, -, upper, attained⟩ := (Invariant.init infos).toLists.addAll nodup
    (fun _ _ => Finset.notMem_empty _)
    (fun b member => by
      rcases List.mem_append.mp ((settled.mem_iff b).mpr ((same b).mp member)) with scheduled | unscheduled
      · exact .inr (settled.used b scheduled).2
      · exact .inl (settled.fresh b unscheduled))
    (fun b member below c member' different equal => by
      have inOrder : c ∈ order := by simpa [Juggler.init] using member'
      have first := (used b ((same b).mp member)).mpr below
      rcases List.mem_append.mp ((settled.mem_iff c).mpr ((same c).mp inOrder)) with second | unscheduled
      · exact settled.sorted.key_ne second first different equal
      · have := settled.fresh c unscheduled
        have := settled.future b first
        simp only [due] at equal this
        omega)
  have blocksEq : ∅ ∪ order.toFinset = blocks := by
    ext b
    simp [same b]
  rw [blocksEq] at lists
  have members : ∀ b, b ∈ j'.scheduled ↔ b ∈ j.scheduled := by
    intro b
    simp only [mem b, Juggler.init, List.not_mem_nil, false_or]
    constructor
    · rintro ⟨member, below⟩
      exact (used b ((same b).mp member)).mpr below
    · intro scheduled
      have member := settled.mem_of_scheduled scheduled
      exact ⟨(same b).mpr member, (used b member).mp scheduled⟩
  have seqno : j'.seqno = j.seqno := by
    have above : j.seqno ≤ j'.seqno := by
      rcases settled.top with zero | ⟨b, member, last⟩
      · omega
      · exact last ▸ upper b ((same b).mpr (settled.mem_of_scheduled member)) (settled.used b member).2
    have below : j'.seqno ≤ j.seqno := by
      rcases attained with zero | ⟨b, member, isUsed, last⟩
      · simp [zero, Juggler.init]
      · exact last ▸ settled.latest b ((used b ((same b).mp member)).mpr isUsed)
    omega
  obtain ⟨settled', scheduled, noScheduled, noUnscheduled, unscheduled⟩ :=
    settled.of_lists lists members seqno
  exact ⟨j', folded, settled', scheduled, seqno, noScheduled, noUnscheduled, unscheduled⟩

end Scubed3.Juggler
