import Scubed3.Partition.Backing

/-! # The phases of the current macroblock

A macroblock is selected, collects what is left in the block that comes next, is filled, and is written out. Then there
is no current macroblock until the next one is selected. `Intact` is what holds all the time. The step from one phase to
the next keeps the contents of every mesoblock.
-/

namespace Scubed3.Partition

open Blockio

variable {p : Params} {l l' : Partition} {cur m : ℕ}

/-- The table, the lists, the counters, the juggler and the device agree. -/
structure Intact (p : Params) (l : Partition) : Prop extends Consistent p l where
  alive : Alive p l.dev
  sized : l.noBlockIndices = (blank p l.dev).noBlockIndices
  addressable : ∀ b ∈ owned p l.dev, Addressable p (b + 1)
  idle : ∀ b ∈ owned p l.dev, l.dev.bi ≠ some b → live p l b = ∅ → (l.dev.b.infos b).noIndices = 0
  unused : ∀ b ∈ l.dev.j.unscheduled, (l.dev.b.infos b).noIndices = 0
  tail : ∀ b, l.dev.bi = some b → l.dev.tailMacroblock = l.dev.j.getObsoleted l.dev.b.infos
  backed : Backed p l
  shelved : Shelved p l.dev.b.base

theorem Intact.known (intact : Intact p l) : Known p l.dev := intact.alive.toKnown

theorem Intact.small (intact : Intact p l) : l.noBlockIndices ≤ 2 ^ 32 :=
  intact.sized.trans_le (blank_noBlockIndices_lt p l.dev).le

/-- Nothing is mapped to the macroblock that comes next. -/
def Vacant (p : Params) (l : Partition) : Prop :=
  ∀ t, l.dev.j.getObsoleted l.dev.b.infos = some t → live p l t = ∅

/-- A macroblock can be selected. -/
structure Between (p : Params) (l : Partition) : Prop extends Intact p l where
  none : l.dev.bi = none
  vacant : Vacant p l

/-- The current macroblock was just selected. -/
structure Fresh (p : Params) (l : Partition) (cur : ℕ) : Prop extends Intact p l where
  bi : l.dev.bi = some cur
  blank : (l.dev.b.infos cur).noIndices = 0

/-- The current macroblock has collected what was left in the tail block. -/
structure Ready (p : Params) (l : Partition) (cur : ℕ) : Prop extends Intact p l where
  bi : l.dev.bi = some cur
  collected : ∀ t, l.dev.tailMacroblock = some t → t ≠ cur → live p l t = ∅

/-- Every mesoblock has the same contents, and the device is as large as before. -/
structure Kept (p : Params) (l l' : Partition) : Prop where
  noBlockIndices : l'.noBlockIndices = l.noBlockIndices
  content : ∀ m < l.noBlockIndices, content p l' m = content p l m
  unmapped : ∀ m < l.noBlockIndices, l'.blockIndices m = noIndex ↔ l.blockIndices m = noIndex
  owned : owned p l'.dev = owned p l.dev
  noMacroblocks : l'.dev.noMacroblocks = l.dev.noMacroblocks
  reservedMacroblocks : l'.dev.reservedMacroblocks = l.dev.reservedMacroblocks

namespace Kept

theorem refl (l : Partition) : Kept p l l := ⟨rfl, fun _ _ => rfl, fun _ _ => Iff.rfl, rfl, rfl, rfl⟩

theorem trans {l'' : Partition} (first : Kept p l l') (second : Kept p l' l'') : Kept p l l'' := by
  have inside {m : ℕ} (bound : m < l.noBlockIndices) : m < l'.noBlockIndices := first.noBlockIndices ▸ bound
  exact ⟨second.noBlockIndices.trans first.noBlockIndices,
    fun m bound => (second.content m (inside bound)).trans (first.content m bound),
    fun m bound => (second.unmapped m (inside bound)).trans (first.unmapped m bound),
    second.owned.trans first.owned, second.noMacroblocks.trans first.noMacroblocks,
    second.reservedMacroblocks.trans first.reservedMacroblocks⟩

end Kept

theorem getObsoleted_congr {j : Juggler} {infos infos' : BlockioInfos}
    (same : ∀ c ∈ j.scheduled, (infos' c).nextSeqno = (infos c).nextSeqno) : j.getObsoleted infos' = j.getObsoleted infos := by
  cases scheduled : j.scheduled with
  | nil => rw [Juggler.getObsoleted, Juggler.getObsoleted, scheduled]
  | cons c rest =>
    rw [Juggler.getObsoleted_cons j infos' scheduled, Juggler.getObsoleted_cons j infos scheduled, Juggler.due,
      same c (by simp [scheduled])]

/-- A block that lists nothing has nothing. -/
theorem Consistent.live_eq_empty (consistent : Consistent p l) {b : ℕ} (empty : (l.dev.b.infos b).noIndices = 0) :
    live p l b = ∅ :=
  Finset.card_eq_zero.mp (Nat.le_zero.mp (empty ▸ consistent.card_live_le b))

/-! ## Writing the current macroblock -/

/-- The partition after the current macroblock was written. -/
def flushed (p : Params) (l : Partition) (cur : ℕ) : Partition := { l with dev := afterWrite p l.dev cur }

theorem flushed_infos (p : Params) (l : Partition) (cur c : ℕ) : (flushed p l cur).dev.b.infos c =
    if c = cur then { l.dev.b.infos cur with noNonobsolete := (l.dev.b.infos cur).noIndices } else l.dev.b.infos c := by
  change (l.dev.b.infos.set cur _) c = _
  split
  · next same => rw [same, BlockioInfos.set_same]
  · next other => exact BlockioInfos.set_of_ne _ _ other

/-- Only the counter of the current macroblock changes. -/
theorem flushed_lists (p : Params) (l : Partition) (cur c : ℕ) :
    ((flushed p l cur).dev.b.infos c).noIndices = (l.dev.b.infos c).noIndices ∧
      ((flushed p l cur).dev.b.infos c).indices = (l.dev.b.infos c).indices := by
  rw [flushed_infos]
  split
  · next same => rw [same]; exact ⟨rfl, rfl⟩
  · exact ⟨rfl, rfl⟩

theorem flushed_mapped (p : Params) (l : Partition) (cur m b : ℕ) : Mapped p (flushed p l cur) m b ↔ Mapped p l m b := Iff.rfl

theorem flushed_live (p : Params) (l : Partition) (cur b : ℕ) : live p (flushed p l cur) b = live p l b := rfl

theorem flushed_getObsoleted (p : Params) (l : Partition) (cur : ℕ) :
    (flushed p l cur).dev.j.getObsoleted (flushed p l cur).dev.b.infos = l.dev.j.getObsoleted l.dev.b.infos :=
  getObsoleted_congr fun c _ => (afterWrite_infos l.dev cur c).2.1

theorem Consistent.flush (consistent : Consistent p l) (current : l.dev.bi = some cur) : Consistent p (flushed p l cur) := by
  have own : owned p (flushed p l cur).dev = owned p l.dev := owned_afterWrite ..
  refine ⟨consistent.index_lt, fun b member => ?_, fun b member => ?_, fun m bound b mapped => ?_, nofun, fun b member _ => ?_⟩
  · rw [(flushed_lists p l cur b).1]
    exact consistent.bounded b (own ▸ member)
  · rw [(flushed_lists p l cur b).1, (flushed_lists p l cur b).2]
    exact consistent.distinct b (own ▸ member)
  · rw [own, (flushed_lists p l cur b).1, (flushed_lists p l cur b).2]
    exact consistent.placed m bound b mapped
  · rw [flushed_infos, flushed_live]
    split
    · next same =>
      rw [same, consistent.card_live_current current]
    · next other =>
      refine consistent.counted b (own ▸ member) fun found => other ?_
      exact Option.some.inj (found.symm.trans current)

/-- What was in the buffer can be read from the device. -/
theorem Consistent.content_flush (consistent : Consistent p l) (current : l.dev.bi = some cur)
    (noBits : l.dev.status.noBits = p.b.maxMacroblocks) (bound : m < l.noBlockIndices) :
    content p (flushed p l cur) m = content p l m := by
  by_cases never : l.blockIndices m = noIndex
  · rw [content_unmapped never, content_unmapped (l := flushed p l cur) never]
  obtain ⟨own, position, -⟩ := consistent.placed m bound _ ⟨never, rfl⟩
  have bounded := consistent.bounded _ own
  have seqno (c : ℕ) : ((flushed p l cur).dev.b.infos c).seqno = (l.dev.b.infos c).seqno := (afterWrite_infos l.dev cur c).1
  rw [content_disk (l := flushed p l cur) ⟨never, rfl⟩ (b := indexId p (l.blockIndices m)) nofun]
  by_cases here : indexId p (l.blockIndices m) = cur
  · rw [here] at position bounded
    rw [content_ram ⟨never, rfl⟩ (here ▸ current), here]
    unfold readMesoblk
    rw [seqno]
    exact dec_encode cur l.dev.b.base bounded noBits position
  · have elsewhere : l.dev.bi ≠ some (indexId p (l.blockIndices m)) := fun found =>
      here (Option.some.inj (found.symm.trans current))
    rw [content_disk ⟨never, rfl⟩ elsewhere]
    unfold readMesoblk
    rw [seqno]
    congr 1
    exact slice_blit_other cur l.dev.b.base _ _ here (macroblock_bound (position.trans_le bounded))

/-- The current macroblock can be written when nothing is mapped to the one that comes next. -/
theorem Intact.flush (intact : Intact p l) (current : l.dev.bi = some cur) (vacant : Vacant p l) :
    writeCurrentMacroblock p l.dev = .ok (flushed p l cur).dev ∧ Between p (flushed p l cur) ∧ Kept p l (flushed p l cur) := by
  obtain ⟨own, -⟩ := intact.current cur current
  have same : owned p (flushed p l cur).dev = owned p l.dev := owned_afterWrite ..
  have ran : writeCurrentMacroblock p l.dev = .ok (flushed p l cur).dev := by
    refine (writeCurrentMacroblock_eq_ok_iff p).mpr ⟨cur, current, ?_, (mem_owned.mp own).1, intact.bounded cur own, rfl⟩
    rw [(mem_owned.mp own).2]
    exact Option.some_ne_none _
  refine ⟨ran, ⟨⟨intact.toConsistent.flush current, intact.alive.output ran, intact.sized, ?_, fun b member _ none => ?_,
    fun b member => ?_, nofun, intact.backed.afterWrite intact.alive intact.toConsistent current intact.small,
    intact.backed.shelved intact.alive intact.toConsistent current intact.sized intact.addressable vacant⟩,
    rfl, fun t found => vacant t (flushed_getObsoleted p l cur ▸ found)⟩,
    rfl, fun m => intact.toConsistent.content_flush current intact.known.noBits, fun _ _ => Iff.rfl, same, rfl, rfl⟩
  · rw [same]
    exact intact.addressable
  · rw [(flushed_lists p l cur b).1]
    by_cases here : b = cur
    · rw [here, ← intact.card_live_current current, ← here]
      exact Finset.card_eq_zero.mpr none
    · exact intact.idle b (same ▸ member) (fun found => here (Option.some.inj (found.symm.trans current))) none
  · rw [(flushed_lists p l cur b).1]
    exact intact.unused b member

/-! ## Selecting the next macroblock -/

/-- The macroblock that comes next lists nothing. -/
theorem Between.blank (between : Between p l) {next : ℕ} {j : Juggler} {infos : BlockioInfos}
    (handout : Juggler.Handout l.dev.j l.dev.b.infos next j infos) : (l.dev.b.infos next).noIndices = 0 := by
  rcases handout.source with ⟨obsoleted, -⟩ | ⟨-, -, perm⟩
  · obtain ⟨rest, scheduled, -⟩ := Juggler.getObsoleted_eq_some_iff.mp obsoleted
    have own : next ∈ owned p l.dev := between.known.settled.mem_of_scheduled (by simp [scheduled])
    refine between.idle next own ?_ (between.vacant next obsoleted)
    rw [between.none]
    exact nofun
  · exact between.unused next (perm.mem_iff.mp List.mem_cons_self)

/-- Only the two sequence numbers of the block that is handed out change. -/
theorem handout_infos {j j' : Juggler} {infos infos' : BlockioInfos} {next : ℕ}
    (handout : Juggler.Handout j infos next j' infos') (c : ℕ) : (infos' c).noIndices = (infos c).noIndices ∧
      (infos' c).indices = (infos c).indices ∧ (infos' c).noNonobsolete = (infos c).noNonobsolete ∧
      (infos' c).dev = (infos c).dev ∧ (c ≠ next → infos' c = infos c) := by
  obtain ⟨t, -, infosEq⟩ := handout.infos_eq
  by_cases same : c = next
  · rw [infosEq, same, BlockioInfos.set_same]
    exact ⟨rfl, rfl, rfl, rfl, fun other => absurd rfl other⟩
  · rw [infosEq, BlockioInfos.set_of_ne _ _ same]
    exact ⟨rfl, rfl, rfl, rfl, fun _ => rfl⟩

/-- Selecting a macroblock that holds nothing changes no contents. -/
theorem Between.select (between : Between p l) {dev : BlockioDev} {fuel : ℕ} {tape rest : List ℕ}
    (ran : (selectNextMacroblock fuel l.dev).run tape = .done dev rest) :
    ∃ next, Fresh p { l with dev } next ∧ Kept p l { l with dev } := by
  have alive := between.alive.select ran
  obtain ⟨known, same⟩ := between.known.select ran
  obtain ⟨-, next, j, infos, handout, called, small, rfl⟩ := selectNext_done ran
  set l' : Partition := { l with
    dev := { l.dev with
      updated := false, bi := some next, j, tailMacroblock := j.getObsoleted infos
      b := { l.dev.b with infos } } } with l'Eq
  have blank := between.blank handout
  have lists := handout_infos handout
  have nothing : live p l next = ∅ := between.toConsistent.live_eq_empty blank
  have own : next ∈ owned p l'.dev := known.settled.mem_of_scheduled handout.listed
  have consistent : Consistent p l' := by
    refine ⟨between.index_lt, fun b member => ?_, fun b member => ?_, fun m bound b mapped => ?_, fun b found => ?_,
      fun b member _ => ?_⟩
    · exact (lists b).1 ▸ between.bounded b (same ▸ member)
    · change ∀ i < (infos b).noIndices, ∀ j < (infos b).noIndices, (infos b).indices i = (infos b).indices j → i = j
      rw [(lists b).1, (lists b).2.1]
      exact between.distinct b (same ▸ member)
    · change _ ∧ _ < (infos b).noIndices ∧ (infos b).indices _ = m
      rw [same, (lists b).1, (lists b).2.1]
      exact between.placed m bound b mapped
    · obtain rfl : next = b := Option.some.inj found
      refine ⟨own, fun k listed => ?_⟩
      change k < (infos next).noIndices at listed
      rw [(lists next).1, blank] at listed
      exact absurd listed (Nat.not_lt_zero k)
    · refine (lists b).2.2.1.trans (between.counted b (same ▸ member) ?_)
      rw [between.none]
      exact nofun
  have unscheduled : ∀ b ∈ j.unscheduled, b ∈ l.dev.j.unscheduled := by
    rcases handout.source with ⟨-, -, same⟩ | ⟨-, -, perm⟩
    · exact fun b member => same ▸ member
    · exact fun b member => perm.mem_iff.mp (List.mem_cons_of_mem _ member)
  refine ⟨next, ⟨⟨consistent, alive, between.sized, ?_, fun b member _ none => ?_, fun b member => ?_, fun b _ => rfl,
    between.backed.select handout between.none _ _, between.shelved⟩, rfl, ?_⟩, rfl, fun m bound => ?_, fun _ _ => Iff.rfl, same, rfl, rfl⟩
  · rw [same]
    exact between.addressable
  · refine (lists b).1.trans (between.idle b (same ▸ member) ?_ none)
    rw [between.none]
    exact nofun
  · exact (lists b).1.trans (between.unused b (unscheduled b member))
  · exact (lists next).1.trans blank
  · by_cases never : l.blockIndices m = noIndex
    · rw [content_unmapped never, content_unmapped (l := l') never]
    have away : indexId p (l.blockIndices m) ≠ next := by
      intro here
      have member : m ∈ live p l next := mem_live.mpr ⟨bound, never, here⟩
      rw [nothing] at member
      exact absurd member (Finset.notMem_empty m)
    rw [content_disk (l := l') ⟨never, rfl⟩ fun found => away (Option.some.inj found).symm,
      content_disk ⟨never, rfl⟩ (by rw [between.none]; exact nofun)]
    unfold readMesoblk
    rw [show l'.dev.b.infos (indexId p (l.blockIndices m)) = l.dev.b.infos _ from (lists _).2.2.2.2 away]

theorem Between.select_safe (between : Between p l) (some : (owned p l.dev).Nonempty) (fuel : ℕ) :
    Draw.Safe (selectNextMacroblock fuel l.dev) fun dev => ∃ next, Fresh p { l with dev } next ∧ Kept p l { l with dev } :=
  (between.known.select_safe fuel between.none some).reached.imp fun _ ⟨_, _, _, ran⟩ => between.select ran

end Scubed3.Partition
