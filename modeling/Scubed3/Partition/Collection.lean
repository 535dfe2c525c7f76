import Scubed3.Partition.Contents

/-! # Garbage collection

Before a macroblock is overwritten, what is still mapped to it moves into the current macroblock. The loop is bounded
by the length of the list of the tail block, which the loop itself sets to zero when the last mesoblock has moved.
-/

namespace Scubed3.Partition

open Blockio

variable {p : Params} {l₀ l : Partition} {cur t k m : ℕ}

/-! ## One position -/

/-- A position whose mesoblock is not mapped to the block any more is skipped. -/
theorem copyMesoblk_skip (stale : (l.dev.b.infos t).indices k ∉ live p l t) : copyMesoblk p l t k = .ok l := by
  unfold copyMesoblk
  dsimp only
  split
  · rfl
  · next inside =>
    have away : ¬ (l.blockIndices ((l.dev.b.infos t).indices k) ≠ noIndex ∧
        indexId p (l.blockIndices ((l.dev.b.infos t).indices k)) = t) :=
      fun mapped => stale (mem_live.mpr ⟨not_le.mp inside, mapped⟩)
    rw [if_neg away]
    rfl

/-- The partition after a mesoblock was copied from position `k` of `t`. -/
def copied (p : Params) (l : Partition) (cur t k : ℕ) : Partition :=
  let offset := (l.dev.b.infos t).indices k
  let l' := updateBlockIndices p ((l.setTmp (Memory.store l.dev.tmpMacroblock
    (((l.dev.b.infos cur).noIndices + 1) * p.mesoblkSize) (readMesoblk p l.dev t k))).setInfo cur
      (withRef (l.dev.b.infos cur) offset)) offset cur (l.dev.b.infos cur).noIndices
  l'.setInfo t (obsoleted (l.dev.b.infos t))

theorem copied_infos (p : Params) (l : Partition) (cur t k b : ℕ) : (copied p l cur t k).dev.b.infos b =
    if b = t then obsoleted (l.dev.b.infos t)
    else if b = cur then withRef (l.dev.b.infos cur) ((l.dev.b.infos t).indices k) else l.dev.b.infos b := by
  change ((l.dev.b.infos.set cur _).set t _) b = _
  by_cases isTail : b = t
  · rw [if_pos isTail, isTail, BlockioInfos.set_same]
  · rw [if_neg isTail, BlockioInfos.set_of_ne _ _ isTail]
    by_cases isCur : b = cur
    · rw [if_pos isCur, isCur, BlockioInfos.set_same]
    · rw [if_neg isCur, BlockioInfos.set_of_ne _ _ isCur]

/-- A position whose mesoblock is still mapped to the block is copied. -/
theorem copyMesoblk_copy (consistent : Consistent p l) (current : l.dev.bi = some cur) (different : t ≠ cur)
    (alive : (l.dev.b.infos t).indices k ∈ live p l t) (room : (l.dev.b.infos cur).noIndices < p.b.mmpm) :
    copyMesoblk p l t k = .ok (copied p l cur t k) := by
  obtain ⟨inside, mapped⟩ := mem_live.mp alive
  have own := consistent.owned_of_mem_live alive
  have count := consistent.counted t own fun found => different (Option.some.inj (current.symm.trans found)).symm
  have some : (l.dev.b.infos t).noNonobsolete ≠ 0 := by
    rw [count]
    exact (Finset.card_pos.mpr ⟨_, alive⟩).ne'
  unfold copyMesoblk
  dsimp only
  rw [if_neg (not_le.mpr inside), if_pos ⟨mapped.1, mapped.2⟩, current]
  dsimp only
  rw [mesoblk_eq room]
  refine Except.bind_eq_ok_iff.mpr ⟨_, rfl, Except.bind_eq_ok_iff.mpr ⟨_, addBlockref_eq_ok_iff.mpr ⟨room, rfl⟩, ?_⟩⟩
  have tail : ((l.dev.b.infos.set cur (withRef (l.dev.b.infos cur) ((l.dev.b.infos t).indices k))) t) =
      l.dev.b.infos t := BlockioInfos.set_of_ne _ _ different
  refine obsoleteMesoblk_eq_ok_iff.mpr ⟨?_, ?_⟩
  · change ((l.dev.b.infos.set cur (withRef (l.dev.b.infos cur) ((l.dev.b.infos t).indices k))) t).noNonobsolete ≠ 0
    rwa [tail]
  · unfold copied
    dsimp only
    congr 2
    exact tail.symm

theorem copied_relocated (different : t ≠ cur) (alive : (l.dev.b.infos t).indices k ∈ live p l t) :
    Relocated p cur ((l.dev.b.infos t).indices k) l (copied p l cur t k) := by
  obtain ⟨-, mapped⟩ := mem_live.mp alive
  have infos := copied_infos p l cur t k
  refine ⟨⟨rfl, fun c => ?_, fun c => ?_⟩, rfl, rfl, ?_, fun b old => ?_, fun b other notOld => ?_⟩
  · rw [infos]
    split
    · next same => rw [same]; exact ⟨rfl, rfl, rfl⟩
    · split
      · next same => rw [same]; exact ⟨rfl, rfl, rfl⟩
      · exact ⟨rfl, rfl, rfl⟩
  · rw [infos]
    split
    · next same => rw [same]; rfl
    · split
      · next same => rw [same]; rfl
      · rfl
  · rw [infos, if_neg different.symm, if_pos rfl]
  · rw [infos, if_pos (old.unique mapped), old.unique mapped]
  · rw [infos, if_neg fun (same : b = t) => notOld (same ▸ mapped), if_neg other]

/-! ## All positions -/

/-- The loop arrived at position `k` of `t`. -/
structure Collecting (p : Params) (cur t : ℕ) (l₀ : Partition) (k : ℕ) (l : Partition) : Prop where
  consistent : Consistent p l
  moved : Moved p l₀ l
  outputInitialized : l.outputInitialized = l₀.outputInitialized
  updated : l.dev.updated = l₀.dev.updated
  content : ∀ m < l₀.noBlockIndices, content p l m = content p l₀ m
  behind : ∀ m ∈ live p l t, k ≤ indexNo p (l.blockIndices m)
  together : live p l t ∪ live p l cur = live p l₀ t ∪ live p l₀ cur
  subset : live p l t ⊆ live p l₀ t
  elsewhere : ∀ m, m ∉ live p l₀ t → l.blockIndices m = l₀.blockIndices m
  list : ∀ i, (l.dev.b.infos t).indices i = (l₀.dev.b.infos t).indices i
  length : (l.dev.b.infos t).noIndices = (l₀.dev.b.infos t).noIndices ∨ (l.dev.b.infos t).noIndices = 0
  others : ∀ b, b ≠ t → b ≠ cur → l.dev.b.infos b = l₀.dev.b.infos b
  emptied : (l.dev.b.infos t).noNonobsolete = 0 → (l.dev.b.infos t).noIndices = 0

section Loop

variable (different : t ≠ cur)

include different

theorem disjoint_live (p : Params) (l : Partition) : Disjoint (live p l t) (live p l cur) :=
  Finset.disjoint_left.mpr fun _ left right => different ((mem_live.mp left).2.unique (mem_live.mp right).2)

theorem Collecting.card (current : l₀.dev.bi = some cur) (collecting : Collecting p cur t l₀ k l) :
    (live p l t).card + (l.dev.b.infos cur).noIndices = (live p l₀ t).card + (live p l₀ cur).card := by
  rw [← collecting.consistent.card_live_current (collecting.moved.bi.trans current),
    ← Finset.card_union_of_disjoint (disjoint_live different p l), collecting.together,
    Finset.card_union_of_disjoint (disjoint_live different p l₀)]

/-- One turn of the loop. -/
theorem Collecting.step (current : l₀.dev.bi = some cur) (addressable : Addressable p cur)
    (roomy : (live p l₀ t).card + (live p l₀ cur).card ≤ p.b.mmpm) (collecting : Collecting p cur t l₀ k l)
    (listed : k < (l.dev.b.infos t).noIndices) :
    ∃ l', copyMesoblk p l t k = .ok l' ∧ Collecting p cur t l₀ (k + 1) l' := by
  have consistent := collecting.consistent
  have currentNow := collecting.moved.bi.trans current
  by_cases alive : (l.dev.b.infos t).indices k ∈ live p l t
  · have count := collecting.card different current
    have some : 0 < (live p l t).card := Finset.card_pos.mpr ⟨_, alive⟩
    have room : (l.dev.b.infos cur).noIndices < p.b.mmpm := by omega
    have relocated := copied_relocated different alive
    set m := (l.dev.b.infos t).indices k with mEq
    obtain ⟨inside, mapped⟩ := mem_live.mp alive
    have away : ¬ Mapped p l m cur := fun here => different (mapped.unique here)
    obtain ⟨own, position, entry⟩ := consistent.placed m inside t mapped
    have here : indexNo p (l.blockIndices m) = k := consistent.distinct t own _ position _ listed entry
    have kept (i : ℕ) (small : i < (l.dev.b.infos cur).noIndices) :
        ramMesoblk p (copied p l cur t k) i = ramMesoblk p l i := by
      refine Memory.slice_store_disjoint _ _ (.inl ?_)
      rw [← Nat.succ_mul]
      exact Nat.mul_le_mul_right _ (by omega)
    have liveTail := relocated.live_other addressable room different
    have liveCur := relocated.live_current addressable room inside
    have tailNow : (copied p l cur t k).dev.b.infos t = obsoleted (l.dev.b.infos t) := relocated.old t mapped
    refine ⟨copied p l cur t k, copyMesoblk_copy consistent currentNow different alive room,
      consistent.relocate currentNow inside away addressable room relocated, ?_, collecting.outputInitialized,
      collecting.updated, fun m' bound => ?_, fun m' member => ?_, ?_, ?_, fun m' notIn => ?_, fun i => ?_, ?_,
      fun b notTail notCur => ?_, ?_⟩
    · exact collecting.moved.trans (copyMesoblk_moved l t k |>.value _
        (copyMesoblk_copy consistent currentNow different alive room))
    · rw [← collecting.content m' bound]
      by_cases same : m' = m
      · subst same
        rw [relocated.content_self currentNow addressable room, content_disk mapped (fun found => different
          (Option.some.inj (found.symm.trans currentNow))), here]
        exact Memory.slice_store_same ..
      · exact relocated.content_other consistent currentNow same (collecting.moved.noBlockIndices ▸ bound) kept
    · rw [liveTail, Finset.mem_erase] at member
      obtain ⟨other, before⟩ := member
      rw [relocated.entry_other other]
      refine Nat.lt_of_le_of_ne (collecting.behind m' before) fun same => other ?_
      exact consistent.indexNo_inj before alive (same.symm.trans here.symm)
    · rw [liveTail, liveCur, ← collecting.together]
      ext m'
      simp only [Finset.mem_union, Finset.mem_erase, Finset.mem_insert]
      by_cases same : m' = m
      · simp [same, alive]
      · simp [same]
    · rw [liveTail]
      exact (Finset.erase_subset _ _).trans collecting.subset
    · rw [relocated.entry_other fun (same : m' = m) => notIn (collecting.subset (same ▸ alive)), collecting.elsewhere m' notIn]
    · rw [tailNow]
      exact collecting.list i
    · rw [tailNow]
      unfold obsoleted
      dsimp only
      split
      · exact .inr rfl
      · exact collecting.length
    · rw [relocated.others b notCur (fun old => notTail (old.unique mapped)), collecting.others b notTail notCur]
    · rw [tailNow]
      exact fun none => if_pos none
  · refine ⟨l, copyMesoblk_skip alive, { collecting with behind := fun m' member => ?_ }⟩
    refine Nat.lt_of_le_of_ne (collecting.behind m' member) fun same => alive ?_
    obtain ⟨bound, mapped⟩ := mem_live.mp member
    rw [same, (consistent.placed m' bound t mapped).2.2]
    exact member

/-- The loop moves everything that is mapped to the tail block. -/
theorem Collecting.finish (current : l₀.dev.bi = some cur) (addressable : Addressable p cur)
    (roomy : (live p l₀ t).card + (live p l₀ cur).card ≤ p.b.mmpm) {turns : ℕ}
    (enough : (l₀.dev.b.infos t).noIndices ≤ k + turns) (collecting : Collecting p cur t l₀ k l) :
    ∃ l' k', copyMesoblks p t turns k l = .ok l' ∧ Collecting p cur t l₀ k' l' ∧ live p l' t = ∅ := by
  -- when the loop ends there is no position left
  have ends {k : ℕ} {l : Partition} (collecting : Collecting p cur t l₀ k l) (past : ¬ k < (l.dev.b.infos t).noIndices) :
      live p l t = ∅ := by
    refine Finset.eq_empty_of_forall_notMem fun m member => past ?_
    obtain ⟨bound, mapped⟩ := mem_live.mp member
    exact (collecting.behind m member).trans_lt (collecting.consistent.placed m bound t mapped).2.1
  induction turns generalizing k l with
  | zero =>
    have past : ¬ k < (l.dev.b.infos t).noIndices := by
      rcases collecting.length with same | zero
      all_goals omega
    unfold copyMesoblks
    rw [if_neg past]
    exact ⟨l, k, rfl, collecting, ends collecting past⟩
  | succ turns ih =>
    unfold copyMesoblks
    by_cases listed : k < (l.dev.b.infos t).noIndices
    · obtain ⟨next, ran, collectingNext⟩ := collecting.step different current addressable roomy listed
      obtain ⟨l', k', rest, done⟩ := ih (by omega) collectingNext
      rw [if_pos listed]
      exact ⟨l', k', Except.bind_eq_ok_iff.mpr ⟨next, ran, rest⟩, done⟩
    · rw [if_neg listed]
      exact ⟨l, k, rfl, collecting, ends collecting listed⟩

end Loop

theorem getMacroblockStatus_eq {dev : BlockioDev} (own : t ∈ owned p dev) (noBits : dev.status.noBits = p.b.maxMacroblocks) :
    getMacroblockStatus p dev t = .ok (if dev.status.used t then .used else .free) := by
  obtain ⟨inside, owner⟩ := mem_owned.mp own
  unfold getMacroblockStatus
  rw [check_of _ _ (by rw [owner]; simp), check_of _ _ inside]
  exact getMacroblockStatusBynum_eq (noBits ▸ inside.trans_le p.sound.total_le)

/-- Before anything was moved. -/
theorem Collecting.start (consistent : Consistent p l)
    (emptied : (l.dev.b.infos t).noNonobsolete = 0 → (l.dev.b.infos t).noIndices = 0) :
    Collecting p cur t l 0 l :=
  ⟨consistent, .refl l, rfl, rfl, fun _ _ => rfl, fun _ _ => Nat.zero_le _, rfl, subset_rfl, fun _ _ => rfl,
    fun _ => rfl, .inl rfl, fun _ _ _ => rfl, emptied⟩

/-- A tail block that is not the current one is emptied. -/
theorem copyOldBlockToCurrent_collects (consistent : Consistent p l) (noBits : l.dev.status.noBits = p.b.maxMacroblocks)
    (current : l.dev.bi = some cur) (tail : l.dev.tailMacroblock = some t) (own : t ∈ owned p l.dev)
    (different : t ≠ cur) (used : (live p l t).Nonempty → l.dev.status.used t = true)
    (idle : live p l t = ∅ → (l.dev.b.infos t).noIndices = 0)
    (movable : live p l t = ∅ ∨ Addressable p cur ∧ (live p l t).card + (live p l cur).card ≤ p.b.mmpm) :
    ∃ l' k, copyOldBlockToCurrent p l = .ok l' ∧ Collecting p cur t l k l' ∧ live p l' t = ∅ := by
  have counted := consistent.counted t own fun found => different (Option.some.inj (current.symm.trans found)).symm
  have emptied : (l.dev.b.infos t).noNonobsolete = 0 → (l.dev.b.infos t).noIndices = 0 := fun none =>
    idle (Finset.card_eq_zero.mp (counted.symm.trans none))
  have start : Collecting p cur t l 0 l := .start consistent emptied
  unfold copyOldBlockToCurrent
  simp only [tail, getMacroblockStatus_eq own noBits]
  by_cases isUsed : l.dev.status.used t = true
  · simp only [isUsed, if_true]
    rcases movable with none | ⟨addressable, roomy⟩
    · have stops : copyMesoblks p t p.b.mmpm 0 l = .ok l := by
        have past : ¬ 0 < (l.dev.b.infos t).noIndices := by
          rw [idle none]
          exact lt_irrefl 0
        cases p.b.mmpm with
        | zero => exact if_neg past
        | succ turns => exact if_neg past
      exact ⟨l, 0, stops, start, none⟩
    · have enough : (l.dev.b.infos t).noIndices ≤ 0 + p.b.mmpm := (consistent.bounded t own).trans_eq (Nat.zero_add _).symm
      obtain ⟨l', k', ran, collected⟩ := start.finish different current addressable roomy enough
      exact ⟨l', k', ran, collected⟩
  · have none : live p l t = ∅ := by
      by_contra some
      exact isUsed (used (Finset.nonempty_iff_ne_empty.mpr some))
    refine ⟨l, 0, ?_, start, none⟩
    simp only [isUsed]
    rfl

theorem copyOldBlockToCurrent_none (tail : l.dev.tailMacroblock = none) : copyOldBlockToCurrent p l = .ok l := by
  unfold copyOldBlockToCurrent
  rw [tail]
  rfl

/-- Nothing is copied from a tail block with an empty list. -/
theorem copyOldBlockToCurrent_empty (tail : l.dev.tailMacroblock = some t) (own : t ∈ owned p l.dev)
    (noBits : l.dev.status.noBits = p.b.maxMacroblocks) (empty : (l.dev.b.infos t).noIndices = 0) :
    copyOldBlockToCurrent p l = .ok l := by
  have past : ¬ 0 < (l.dev.b.infos t).noIndices := by omega
  have stops : copyMesoblks p t p.b.mmpm 0 l = .ok l := by
    cases p.b.mmpm with
    | zero => exact if_neg past
    | succ turns => exact if_neg past
  unfold copyOldBlockToCurrent
  simp only [tail, getMacroblockStatus_eq own noBits]
  by_cases isUsed : l.dev.status.used t = true
  · simp only [isUsed, if_true]
    exact stops
  · simp only [isUsed]
    rfl

/-! ## The contents survive -/

/-- Every mesoblock reads the same, also one that cannot be read. -/
theorem Collecting.doRead_eq {l' : Partition} (consistent : Consistent p l) (collected : Collecting p cur t l k l')
    (bound : m < l.noBlockIndices) {muoff size ooff : ℕ} {out : Bytes} (inside : muoff + size ≤ p.mesoblkSize) :
    doRead p l' m muoff size out ooff = doRead p l m muoff size out ooff := by
  have boundNow : m < l'.noBlockIndices := collected.moved.noBlockIndices.symm ▸ bound
  by_cases mapped : l.blockIndices m = noIndex
  · have notLive : m ∉ live p l t := fun member => (mem_live.mp member).2.1 mapped
    have mappedNow : l'.blockIndices m = noIndex := (collected.elsewhere m notLive).trans mapped
    by_cases last : l.dev.bi = some (indexId p noIndex)
    · unfold doRead
      dsimp only
      rw [mapped, mappedNow, collected.moved.bi, if_pos last, if_pos last, indexNo_noIndex, mesoblk_fails]
      rfl
    · rw [Partition.doRead_eq (collected.consistent.readable boundNow fun _ => collected.moved.bi ▸ last) inside,
        Partition.doRead_eq (consistent.readable bound fun _ => last) inside, collected.content m bound]
  · have mappedNow : l'.blockIndices m ≠ noIndex := by
      by_cases alive : m ∈ live p l t
      · have member : m ∈ live p l' t ∪ live p l' cur := collected.together ▸ Finset.mem_union_left _ alive
        rcases Finset.mem_union.mp member with here | here
        all_goals exact (mem_live.mp here).2.1
      · rwa [collected.elsewhere m alive]
    rw [Partition.doRead_eq (collected.consistent.readable boundNow fun never => absurd never mappedNow) inside,
      Partition.doRead_eq (consistent.readable bound fun never => absurd never mapped) inside,
      collected.content m bound]

/-- The states from which garbage is collected: the current macroblock was just selected. -/
structure WellFormed (p : Params) (l : Partition) : Prop extends Consistent p l where
  noBits : l.dev.status.noBits = p.b.maxMacroblocks
  used : ∀ m < l.noBlockIndices, ∀ b, Mapped p l m b → l.dev.status.used b = true
  idle : ∀ b ∈ owned p l.dev, l.dev.bi ≠ some b → live p l b = ∅ → (l.dev.b.infos b).noIndices = 0
  blank : ∃ cur, l.dev.bi = some cur ∧ (l.dev.b.infos cur).noIndices = 0
  tail : ∀ t, l.dev.tailMacroblock = some t → t ∈ owned p l.dev

/-- Nothing is lost, and a tail block other than the current one is empty afterwards. -/
structure Lossless (p : Params) (l l' : Partition) : Prop where
  device : SameDevice l.dev l'.dev
  reads : ∀ m < l.noBlockIndices, ∀ muoff size ooff out, muoff + size ≤ p.mesoblkSize →
    doRead p l' m muoff size out ooff = doRead p l m muoff size out ooff
  emptied : ∀ t cur, l.dev.tailMacroblock = some t → l.dev.bi = some cur → t ≠ cur →
    (∀ m ∈ live p l t, Mapped p l' m cur) ∧
    (l'.dev.b.infos t).noIndices = 0 ∧ (l'.dev.b.infos t).noNonobsolete = 0 ∧
    (l'.dev.b.infos cur).noIndices = (live p l t).card ∧ (live p l t).card ≤ p.b.mmpm
  kept : ∀ t cur, l.dev.tailMacroblock = some t → l.dev.bi = some cur →
    (∀ m, m ∉ live p l t → l'.blockIndices m = l.blockIndices m) ∧
    ∀ b, b ≠ t → b ≠ cur → l'.dev.b.infos b = l.dev.b.infos b
  consistent : Consistent p l'

theorem Lossless.refl (consistent : Consistent p l)
    (same : ∀ t cur, l.dev.tailMacroblock = some t → l.dev.bi = some cur → t = cur) : Lossless p l l :=
  ⟨.refl _, fun _ _ _ _ _ _ _ => rfl, fun t cur tail current different => absurd (same t cur tail current) different,
    fun _ _ _ _ => ⟨fun _ _ => rfl, fun _ _ _ => rfl⟩, consistent⟩

/-- What is stored fits in 32 bits, so the macroblock that is read back is addressable. -/
theorem Lossless.addressable {l' : Partition} (lossless : Lossless p l l') (tail : l.dev.tailMacroblock = some t)
    (current : l.dev.bi = some cur) (different : t ≠ cur) (alive : m ∈ live p l t) : Addressable p cur := by
  have mapped := (lossless.emptied t cur tail current different).1 m alive
  rw [← mapped.2]
  exact indexId_lt (lossless.consistent.index_lt m)

theorem WellFormed.live_current (wellFormed : WellFormed p l) (current : l.dev.bi = some cur) :
    (l.dev.b.infos cur).noIndices = 0 ∧ live p l cur = ∅ := by
  obtain ⟨b, found, empty⟩ := wellFormed.blank
  obtain rfl := Option.some.inj (found.symm.trans current)
  exact ⟨empty, Finset.card_eq_zero.mp ((wellFormed.card_live_current found).trans empty)⟩

/-- Garbage collection fails nowhere and loses nothing, exactly when the entries of the table can hold the positions
that it stores. -/
theorem collection_lossless_iff (wellFormed : WellFormed p l) :
    (∃ l', copyOldBlockToCurrent p l = .ok l' ∧ Lossless p l l') ↔
      ∀ t cur, l.dev.tailMacroblock = some t → l.dev.bi = some cur → t ≠ cur → (live p l t).Nonempty →
        Addressable p cur := by
  have consistent := wellFormed.toConsistent
  constructor
  · rintro ⟨l', -, lossless⟩ t cur tail current different ⟨m, alive⟩
    exact lossless.addressable tail current different alive
  · intro addressable
    obtain ⟨cur, current, empty⟩ := wellFormed.blank
    obtain ⟨-, none⟩ := wellFormed.live_current current
    cases tail : l.dev.tailMacroblock with
    | none =>
      exact ⟨l, copyOldBlockToCurrent_none tail, .refl consistent fun t _ found => nomatch tail.symm.trans found⟩
    | some t =>
      have own := wellFormed.tail t tail
      by_cases same : t = cur
      · subst same
        refine ⟨l, copyOldBlockToCurrent_empty tail own wellFormed.noBits empty, .refl consistent fun t' cur' found found' => ?_⟩
        rw [← Option.some.inj (tail.symm.trans found), ← Option.some.inj (current.symm.trans found')]
      have elsewhere : l.dev.bi ≠ some t := fun found => same (Option.some.inj (current.symm.trans found)).symm
      have few : (live p l t).card ≤ p.b.mmpm := (consistent.card_live_le t).trans (consistent.bounded t own)
      have movable : live p l t = ∅ ∨ Addressable p cur ∧ (live p l t).card + (live p l cur).card ≤ p.b.mmpm := by
        rcases (live p l t).eq_empty_or_nonempty with isEmpty | some
        · exact .inl isEmpty
        · refine .inr ⟨addressable t cur tail current same some, ?_⟩
          rw [none, Finset.card_empty, Nat.add_zero]
          exact few
      have used : (live p l t).Nonempty → l.dev.status.used t = true := by
        rintro ⟨m, alive⟩
        obtain ⟨bound, mapped⟩ := mem_live.mp alive
        exact wellFormed.used m bound t mapped
      obtain ⟨l', k, ran, collected, moved⟩ := copyOldBlockToCurrent_collects consistent wellFormed.noBits current tail
        own same used (wellFormed.idle t own elsewhere) movable
      have ownNow : t ∈ owned p l'.dev := by
        rw [owned_congr (by rw [collected.moved.rest]; rfl) fun c => (collected.moved.infos c).2.2]
        exact own
      have zero : (l'.dev.b.infos t).noNonobsolete = 0 := by
        rw [collected.consistent.counted t ownNow (collected.moved.bi ▸ elsewhere), moved, Finset.card_empty]
      have count := collected.card same current
      rw [moved, none, Finset.card_empty, Nat.zero_add, Nat.add_zero] at count
      refine ⟨l', ran, collected.moved.toSameDevice, fun m bound _ _ _ _ inside => collected.doRead_eq consistent bound inside,
        fun t' cur' found found' _ => ?_, fun t' cur' found found' => ?_, collected.consistent⟩
      · obtain rfl := Option.some.inj (tail.symm.trans found)
        obtain rfl := Option.some.inj (current.symm.trans found')
        refine ⟨fun m alive => ?_, collected.emptied zero, zero, count, few⟩
        have member : m ∈ live p l' t ∪ live p l' cur := collected.together ▸ Finset.mem_union_left _ alive
        rw [moved, Finset.empty_union] at member
        exact (mem_live.mp member).2
      · obtain rfl := Option.some.inj (tail.symm.trans found)
        obtain rfl := Option.some.inj (current.symm.trans found')
        exact ⟨collected.elsewhere, collected.others⟩

/-! ## One mesoblock -/

/-- A partition of one mesoblock, which macroblock `t` holds; `cur` was just selected. -/
def oneMesoblk (p : Params) (cur t : ℕ) : Partition where
  dev := {
    b := {
      infos := fun c => {
        dev := if c = cur ∨ c = t then some 1 else none
        noIndices := if c = t then 1 else 0
        noNonobsolete := if c = t then 1 else 0 }
      unallocated := []
      base := fun _ => 0 }
    self := 1
    status := { noBits := p.b.maxMacroblocks, bits := fun _ => BitVec.allOnes 32 }
    bi := some cur
    tailMacroblock := some t }
  noBlockIndices := 1
  blockIndices := fun _ => blockIndex p t 0

theorem wellFormed_oneMesoblk (different : t ≠ cur) (curInside : cur < p.b.totalMacroblocks)
    (tInside : t < p.b.totalMacroblocks) (addressable : Addressable p t) : WellFormed p (oneMesoblk p cur t) := by
  have mmpm := p.mmpm_pos
  have own (b : ℕ) : b ∈ owned p (oneMesoblk p cur t).dev ↔ b = cur ∨ b = t := by
    rw [mem_owned]
    change b < _ ∧ (if b = cur ∨ b = t then some 1 else none) = some 1 ↔ _
    split
    · next mine => exact iff_of_true ⟨by rcases mine with rfl | rfl; exacts [curInside, tInside], rfl⟩ mine
    · next other => simp [other]
  have mapped (m b : ℕ) : Mapped p (oneMesoblk p cur t) m b ↔ b = t := by
    rw [Mapped]
    change blockIndex p t 0 ≠ noIndex ∧ indexId p (blockIndex p t 0) = b ↔ _
    rw [addressable.indexId mmpm, and_iff_right (blockIndex_ne_noIndex t mmpm), eq_comm]
  have alive (b : ℕ) : live p (oneMesoblk p cur t) b = if b = t then {0} else ∅ := by
    ext m
    rw [mem_live, mapped]
    change m < 1 ∧ _ ↔ _
    split
    · next same => simp [same]
    · next other => simp [other]
  refine ⟨⟨fun m => blockIndex_lt .., fun b _ => ?_, fun b _ i first j second _ => ?_, fun m bound b isMapped => ?_,
    fun b found => ?_, fun b _ _ => ?_⟩, rfl, fun m _ b isMapped => ?_, fun b _ _ none => ?_, ⟨cur, rfl, if_neg different.symm⟩,
    fun b found => ?_⟩
  · change (if b = t then 1 else 0) ≤ _
    split
    · exact mmpm
    · exact Nat.zero_le _
  · change i < (if b = t then 1 else 0) at first
    change j < (if b = t then 1 else 0) at second
    split at first
    · next same =>
      rw [if_pos same] at second
      omega
    · omega
  · obtain rfl := (mapped m b).mp isMapped
    change m < 1 at bound
    change _ ∧ indexNo p (blockIndex p b 0) < (if b = b then 1 else 0) ∧ 0 = m
    rw [indexNo_blockIndex b mmpm, if_pos rfl]
    exact ⟨(own b).mpr (.inr rfl), Nat.one_pos, by omega⟩
  · obtain rfl : cur = b := Option.some.inj found
    refine ⟨(own cur).mpr (.inl rfl), fun k listed => ?_⟩
    change k < (if cur = t then 1 else 0) at listed
    rw [if_neg different.symm] at listed
    omega
  · rw [alive]
    change (if b = t then 1 else 0) = _
    split
    · rfl
    · rfl
  · change (BitVec.allOnes 32).getLsbD (b % 32) = true
    rw [BitVec.getLsbD_allOnes]
    exact decide_eq_true (Nat.mod_lt _ (by decide))
  · rw [alive] at none
    change (if b = t then 1 else 0) = 0
    by_cases same : b = t
    · rw [if_pos same] at none
      exact absurd none (Finset.singleton_ne_empty 0)
    · exact if_neg same
  · exact (own b).mpr (.inr (Option.some.inj found).symm)

theorem collection_lossless_iff_oneMesoblk :
    ∃ l', copyOldBlockToCurrent (.smallest 2 (by decide)) (oneMesoblk (.smallest 2 (by decide)) 0 1) = .ok l' ∧
      Lossless (.smallest 2 (by decide)) (oneMesoblk (.smallest 2 (by decide)) 0 1) l' := by
  refine (collection_lossless_iff (wellFormed_oneMesoblk (by decide) (by decide) (by decide) (by decide))).mpr ?_
  intro t cur _ current _ _
  obtain rfl : 0 = cur := Option.some.inj current
  exact Nat.two_pow_pos _

/-! ## More than 512 terabytes -/

/-- With a gigabyte in each macroblock, the entries of the table can address `2 ^ 19` macroblocks. -/
def terabytes : Geometry where
  macroblockLog := 30
  mesoblkLog := 17
  mmpm := 8191
  bitmapOffset := 33024
  maxMacroblocks := 784384
  totalMacroblocks := 2 ^ 19 + 1

theorem terabytes_accepted : terabytes.Accepted := by
  refine ⟨⟨30, 17, (2 ^ 19 + 1) * 2 ^ 30, by rfl⟩, by decide⟩

/-- A device of this size, with the complement for a cipher and a constant for a hash. -/
def terabytesParams : Params where
  b := terabytes
  accepted := terabytes_accepted
  c := Cipher.complement _
  hash _ _ := 0

/-- What is moved into the last macroblock of such a device is lost. -/
theorem collection_loses : WellFormed terabytesParams (oneMesoblk terabytesParams (2 ^ 19) 0) ∧
    ¬ ∃ l', copyOldBlockToCurrent terabytesParams (oneMesoblk terabytesParams (2 ^ 19) 0) = .ok l' ∧
      Lossless terabytesParams (oneMesoblk terabytesParams (2 ^ 19) 0) l' := by
  have wellFormed : WellFormed terabytesParams (oneMesoblk terabytesParams (2 ^ 19) 0) :=
    wellFormed_oneMesoblk (by decide) (by decide) (by decide) (by decide)
  refine ⟨wellFormed, ?_⟩
  rintro ⟨l', -, lossless⟩
  have mapped : Mapped terabytesParams (oneMesoblk terabytesParams (2 ^ 19) 0) 0 0 := by decide
  have addressable := lossless.addressable rfl rfl (by decide) (mem_live.mpr ⟨Nat.one_pos, mapped⟩)
  exact absurd addressable (by decide)

end Scubed3.Partition
