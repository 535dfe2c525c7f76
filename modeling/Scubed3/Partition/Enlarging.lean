import Scubed3.Device.Resize
import Scubed3.Partition.View
import Mathlib

/-! # Enlarging a partition

A resize adds macroblocks that hold nothing and mesoblocks that were never written. What the old mesoblocks contain stays
as it is, and the new ones are zero.
-/

namespace Scubed3.Partition

open Blockio

variable {p : Params} {l l' : Partition} {dev : BlockioDev} {cur m b reservedMacroblocks noBlockIndices : ℕ}

/-- The partition after `scubed3_reinit`, with more macroblocks and mesoblocks. -/
def enlarged (l : Partition) (dev : BlockioDev) (reservedMacroblocks noBlockIndices : ℕ) : Partition where
  dev := { dev with reservedMacroblocks }
  noBlockIndices
  blockIndices m := if l.noBlockIndices ≤ m ∧ m < noBlockIndices then noIndex else l.blockIndices m
  outputInitialized := l.outputInitialized

section Grown

variable (grown : Grown l.dev dev)
include grown

/-- What an allocation leaves as it is. -/
theorem grown_fields : dev.bi = l.dev.bi ∧ dev.tailMacroblock = l.dev.tailMacroblock ∧ dev.tmpMacroblock = l.dev.tmpMacroblock ∧
    dev.b.base = l.dev.b.base ∧ dev.self = l.dev.self ∧ dev.updated = l.dev.updated := by
  rw [grown.rest]
  exact ⟨rfl, rfl, rfl, rfl, rfl, rfl⟩

/-- The records of the macroblocks that the partition had. -/
theorem grown_infos (own : b ∈ owned p l.dev) : dev.b.infos b = l.dev.b.infos b := by
  rcases grown.infos b with same | ⟨free, -⟩
  · exact same
  · exact nomatch free.symm.trans (mem_owned.mp own).2

/-- The other macroblocks of the partition hold nothing. -/
theorem grown_owned (own : b ∈ owned p dev) : b ∈ owned p l.dev ∨
    (dev.b.infos b).noIndices = 0 ∧ (dev.b.infos b).noNonobsolete = 0 := by
  obtain ⟨-, -, -, -, self, -⟩ := grown_fields grown
  obtain ⟨bound, taken⟩ := mem_owned.mp own
  rcases grown.infos b with same | ⟨-, prepared⟩
  · rw [same, self] at taken
    exact .inl (mem_owned.mpr ⟨bound, taken⟩)
  · rw [prepared]
    exact .inr ⟨rfl, rfl⟩

theorem grown_subset : owned p l.dev ⊆ owned p dev := by
  intro b own
  rw [mem_owned, grown_infos grown own, (grown_fields grown).2.2.2.2.1]
  exact mem_owned.mp own

/-- The block that comes next is the same. -/
theorem grown_getObsoleted (known : Known p l.dev) : dev.j.getObsoleted dev.b.infos = l.dev.j.getObsoleted l.dev.b.infos := by
  have same : dev.j.getObsoleted dev.b.infos = l.dev.j.getObsoleted dev.b.infos := by
    unfold Juggler.getObsoleted
    rw [grown.scheduled, grown.seqno]
  rw [same]
  refine getObsoleted_congr fun c scheduled => ?_
  rw [grown_infos grown (known.settled.mem_of_scheduled scheduled)]

end Grown

theorem enlarged_old (bound : m < l.noBlockIndices) :
    (enlarged l dev reservedMacroblocks noBlockIndices).blockIndices m = l.blockIndices m :=
  if_neg fun between => absurd bound (not_lt.mpr between.1)

theorem enlarged_new (new : l.noBlockIndices ≤ m) (bound : m < noBlockIndices) :
    (enlarged l dev reservedMacroblocks noBlockIndices).blockIndices m = noIndex := if_pos ⟨new, bound⟩

variable (more : l.noBlockIndices ≤ noBlockIndices)
include more

theorem enlarged_live (b : ℕ) : live p (enlarged l dev reservedMacroblocks noBlockIndices) b = live p l b := by
  ext m
  rw [mem_live, mem_live, Mapped, Mapped]
  by_cases old : m < l.noBlockIndices
  · rw [enlarged_old old]
    exact and_congr_left fun _ => iff_of_true (old.trans_le more) old
  · refine iff_of_false (fun inside => ?_) fun inside => old inside.1
    obtain ⟨bound, mapped⟩ := inside
    exact mapped.1 (enlarged_new (not_lt.mp old) bound)

omit more in
theorem Consistent.live_eq_empty_of_not_owned (consistent : Consistent p l) (other : b ∉ owned p l.dev) : live p l b = ∅ := by
  refine Finset.eq_empty_of_forall_notMem fun m inside => ?_
  obtain ⟨bound, mapped⟩ := mem_live.mp inside
  exact other (consistent.placed m bound b mapped).1

/-- The table stays consistent. -/
theorem Consistent.enlarge (consistent : Consistent p l) (grown : Grown l.dev dev) :
    Consistent p (enlarged l dev reservedMacroblocks noBlockIndices) := by
  obtain ⟨bi, -⟩ := grown_fields grown
  have old {b : ℕ} (own : b ∈ owned p l.dev) := grown_infos (p := p) grown own
  refine ⟨fun m => ?_, fun b own => ?_, fun b own => ?_, fun m bound b mapped => ?_, fun b current => ?_, fun b own elsewhere => ?_⟩
  · unfold enlarged
    dsimp only
    split
    · decide
    · exact consistent.index_lt m
  · rcases grown_owned grown own with before | ⟨none, -⟩
    · exact (old before).symm ▸ consistent.bounded b before
    · exact none.trans_le (Nat.zero_le _)
  · rcases grown_owned grown own with before | ⟨none, -⟩
    · exact (old before).symm ▸ consistent.distinct b before
    · exact fun i first => absurd (first.trans_eq none) (Nat.not_lt_zero i)
  · obtain ⟨before, mapped'⟩ := mem_live.mp (enlarged_live more b ▸ mem_live.mpr ⟨bound, mapped⟩)
    obtain ⟨own, listed⟩ := consistent.placed m before b mapped'
    rw [enlarged_old before]
    exact ⟨grown_subset grown own, (old own).symm ▸ listed⟩
  · obtain ⟨own, lives⟩ := consistent.current b (bi ▸ current)
    rw [enlarged_live more]
    exact ⟨grown_subset grown own, (old own).symm ▸ lives⟩
  · rw [enlarged_live more]
    by_cases before : b ∈ owned p l.dev
    · exact (old before).symm ▸ consistent.counted b before fun current => elsewhere (bi.trans current)
    · rw [consistent.live_eq_empty_of_not_owned before, Finset.card_empty]
      exact ((grown_owned grown own).resolve_left before).2

/-- Everything stays intact, when the device with the new macroblocks is in order. -/
theorem Intact.enlarge (intact : Intact p l) (grown : Grown l.dev dev) (small : reservedMacroblocks < 2 ^ 32)
    (alive : Alive p dev)
    (sized : noBlockIndices = (blank p { dev with reservedMacroblocks }).noBlockIndices)
    (addressable : ∀ b ∈ owned p dev, Addressable p (b + 1)) :
    Intact p (enlarged l dev reservedMacroblocks noBlockIndices) := by
  obtain ⟨bi, tail, tmp, base, self, -⟩ := grown_fields grown
  have old {b : ℕ} (own : b ∈ owned p l.dev) := grown_infos (p := p) grown own
  have shelf : onShelf (enlarged l dev reservedMacroblocks noBlockIndices).dev = onShelf l.dev := by
    unfold onShelf enlarged
    rw [bi, grown.scheduled]
  have backed := intact.backed
  refine ⟨intact.toConsistent.enlarge more grown, alive.reserve small, sized, addressable, fun b own elsewhere none => ?_,
    fun b member => ?_, fun b current => ?_, ⟨?_, fun c member i listed => ?_, fun m bound never c member k => ?_,
      fun m bound b mapped elsewhere => ?_⟩, ?_⟩
  · rw [enlarged_live more] at none
    by_cases before : b ∈ owned p l.dev
    · exact (congrArg BlockioInfo.noIndices (old before)).trans (intact.idle b before (fun current => elsewhere (bi.trans current)) none)
    · exact ((grown_owned grown own).resolve_left before).1
  · have own := alive.settled.mem_of_unscheduled member
    by_cases before : b ∈ owned p l.dev
    · refine (congrArg BlockioInfo.noIndices (old before)).trans (intact.unused b ?_)
      refine (List.mem_append.mp ((intact.known.settled.mem_iff b).mpr before)).resolve_left fun scheduled => ?_
      rw [← grown.scheduled] at scheduled
      exact List.disjoint_of_nodup_append alive.settled.nodup scheduled member
    · exact ((grown_owned grown own).resolve_left before).1
  · refine (tail.trans (intact.tail b (bi ▸ current))).trans (grown_getObsoleted grown intact.known).symm
  · rw [shelf]
    exact base ▸ backed.distinct
  · rw [shelf] at member
    exact (base ▸ backed.inside c member i (base ▸ listed)).trans_le more
  · rw [shelf] at member
    intro listed
    rw [show (enlarged l dev reservedMacroblocks noBlockIndices).dev.b.base = l.dev.b.base from base] at listed
    by_cases before : m < l.noBlockIndices
    · exact backed.unmapped m before (enlarged_old before ▸ never) c member k listed
    · exact before (listed.2 ▸ backed.inside c member k listed.1)
  · obtain ⟨before, mapped'⟩ := mem_live.mp (enlarged_live more b ▸ mem_live.mpr ⟨bound, mapped⟩)
    rw [shelf, enlarged_old before, show (enlarged l dev reservedMacroblocks noBlockIndices).dev.b.base = l.dev.b.base from base]
    exact backed.placed m before b mapped' (bi ▸ elsewhere)
  · exact (show (enlarged l dev reservedMacroblocks noBlockIndices).dev.b.base = l.dev.b.base from base) ▸ intact.shelved

/-- The bytes stay as they are. -/
theorem Intact.enlarge_view (intact : Intact p l) (grown : Grown l.dev dev) :
    view p (enlarged l dev reservedMacroblocks noBlockIndices) = view p l := by
  obtain ⟨bi, -, tmp, base, -⟩ := grown_fields grown
  have contents (m : ℕ) (bound : m < l.noBlockIndices) :
      content p (enlarged l dev reservedMacroblocks noBlockIndices) m = content p l m := by
    by_cases never : l.blockIndices m = noIndex
    · rw [content_unmapped never, content_unmapped ((enlarged_old bound).trans never)]
    · have own := (intact.placed m bound _ ⟨never, rfl⟩).1
      have entry : (enlarged l dev reservedMacroblocks noBlockIndices).blockIndices m = l.blockIndices m := enlarged_old bound
      unfold content ramMesoblk readMesoblk
      rw [entry]
      unfold enlarged
      dsimp only
      rw [bi, tmp, base, grown_infos grown own]
  have size : (enlarged l dev reservedMacroblocks noBlockIndices).noBlockIndices = noBlockIndices := rfl
  funext a
  unfold view
  rw [size]
  by_cases before : a / p.mesoblkSize < l.noBlockIndices
  · rw [if_pos before, if_pos (before.trans_le more), contents _ before]
  · rw [if_neg before]
    split
    · next bound =>
      rw [content_unmapped (enlarged_new (not_lt.mp before) bound), Memory.ofBlock_apply _ (Nat.mod_lt _ p.mesoblkSize_pos)]
    · rfl
omit more

theorem Between.enlarge (between : Between p l) (grown : Grown l.dev dev)
    (intact : Intact p (enlarged l dev reservedMacroblocks noBlockIndices)) (more : l.noBlockIndices ≤ noBlockIndices) :
    Between p (enlarged l dev reservedMacroblocks noBlockIndices) := by
  refine ⟨intact, (grown_fields grown).1.trans between.none, fun t first => ?_⟩
  rw [enlarged_live more]
  exact between.vacant t ((grown_getObsoleted grown between.known).symm.trans first)

/-- Between two operations a partition can be enlarged. -/
theorem Tidy.enlarge (tidy : Tidy p l) (grown : Grown l.dev dev)
    (intact : Intact p (enlarged l dev reservedMacroblocks noBlockIndices)) (more : l.noBlockIndices ≤ noBlockIndices) :
    Tidy p (enlarged l dev reservedMacroblocks noBlockIndices) := by
  obtain ⟨bi, tail, -⟩ := grown_fields grown
  cases tidy with
  | between between output => exact .between (between.enlarge grown intact more) output
  | @fresh cur fresh output =>
    refine .fresh ⟨intact, bi.trans fresh.bi, ?_⟩ output
    exact (congrArg BlockioInfo.noIndices (grown_infos grown (fresh.current cur fresh.bi).1)).trans fresh.blank
  | @ready cur ready output =>
    refine .ready ⟨intact, bi.trans ready.bi, fun t found different => ?_⟩ output
    rw [enlarged_live more]
    exact ready.collected t (tail.symm.trans found) different

/-- The number of mesoblocks is the one that opening will compute, when the reserve is not negative. -/
theorem usableMesoblks_blank {no reserved : ℕ} (ordered : reserved ≤ no) :
    usableMesoblks p no reserved = if no ≤ reserved then 0 else usableMesoblks p no reserved := by
  split
  · next above =>
    obtain rfl := le_antisymm above ordered
    rw [usableMesoblks, Nat.add_sub_cancel_left, Nat.mod_self, Nat.zero_mul, Nat.zero_mod]
  · rfl

/-- A resize that is answered changes no bytes. -/
theorem Tidy.resize {entry entry' : Entry} {fuel : ℕ} {size reserved : ℤ} {tape rest : List ℕ} (tidy : Tidy p entry.l)
    (ran : (Control.resize p fuel entry size reserved).run tape = .done (.ok, entry') rest) (nonneg : 0 ≤ reserved)
    (addressable : ∀ b ∈ owned p entry'.l.dev, Addressable p (b + 1)) :
    Tidy p entry'.l ∧ view p entry'.l = view p entry.l ∧ entry.l.noBlockIndices ≤ entry'.l.noBlockIndices ∧
      entry'.l.dev.b.base = entry.l.dev.b.base ∧ entry'.l.dev.updated = true ∧ entry'.l.dev.bi ≠ none := by
  obtain ⟨reply, -⟩ | ⟨-, -, ordered, -, few, grown, l, dev, mid, mid', allocated, started, selected, same, -⟩ :=
    Control.resize_done ran
  · exact absurd rfl reply
  obtain ⟨alive, grownBy, count⟩ := tidy.intact.alive.allocateTurns allocated
  obtain ⟨more, rfl⟩ := Control.reinit_eq_ok_iff.mp started
  dsimp only at more selected
  set reservedMacroblocks := (reserved % 2 ^ 32).toNat with reservedEq
  set noBlockIndices := usableMesoblks p grown.noMacroblocks reservedMacroblocks
  set l := enlarged entry.l grown reservedMacroblocks noBlockIndices with lEq
  have total := few.trans (p.sound.total_le.trans p.sound.maxMacroblocks_lt.le)
  have small : reservedMacroblocks < 2 ^ 32 := by omega
  have known : Known p l.dev := alive.toKnown.reserve small
  have own : owned p entry'.l.dev = owned p grown := by
    rw [same]
    split at selected
    · exact (known.select selected).2
    · cases selected
      rfl
  have intact : Intact p l := tidy.intact.enlarge more grownBy small alive (usableMesoblks_blank (by omega))
    fun b inside => addressable b (own ▸ inside)
  have tidy' := tidy.enlarge grownBy intact more
  have bytes : view p l = view p entry.l := tidy.intact.enlarge_view more grownBy
  have base : l.dev.b.base = entry.l.dev.b.base := (grown_fields grownBy).2.2.2.1
  by_cases idle : l.dev.bi = none
  · -- the first macroblock is selected
    change (if l.dev.bi = none then selectNextMacroblock fuel l.dev else pure l.dev).run mid = _ at selected
    rw [if_pos idle] at selected
    have between : Between p l := by
      cases tidy' with
      | between between => exact between
      | fresh fresh => exact nomatch fresh.bi.symm.trans idle
      | ready ready => exact nomatch ready.bi.symm.trans idle
    have output : l.outputInitialized = false := by
      cases tidy' with
      | between _ output => exact output
      | fresh _ output => exact output
      | ready ready => exact nomatch ready.bi.symm.trans idle
    obtain ⟨next, fresh, kept⟩ := between.select selected
    obtain ⟨-, _, _, _, -, -, -, devEq⟩ := selectNext_done selected
    rw [same]
    refine ⟨.fresh ⟨fresh.toIntact.flag true l.outputInitialized, fresh.bi, fresh.blank⟩ output,
      ((kept.trans (.flag { l with dev } true l.outputInitialized)).view).trans bytes, more, ?_, rfl, ?_⟩
    · refine Eq.trans ?_ base
      change dev.b.base = _
      rw [devEq]
    · exact fun none => nomatch fresh.bi.symm.trans none
  · change (if l.dev.bi = none then selectNextMacroblock fuel l.dev else pure l.dev).run mid = _ at selected
    rw [if_neg idle] at selected
    cases selected
    rw [same]
    refine ⟨?_, (Kept.flag l true l.outputInitialized).view.trans bytes, more, base, rfl, idle⟩
    cases tidy' with
    | between between => exact absurd between.none idle
    | fresh fresh output => exact .fresh ⟨fresh.toIntact.flag true l.outputInitialized, fresh.bi, fresh.blank⟩ output
    | ready ready output => exact .ready (ready.flag true l.outputInitialized) output

end Scubed3.Partition
