import Scubed3.Device.Advertised
import Scubed3.Device.Orderly
import Scubed3.Partition.Ending
import Mathlib

/-! # When `do_write` returns

A write that has to make room goes round and round until a macroblock comes up that is not completely in use. With two
macroblocks in reserve there always is one. With one macroblock in reserve there is none once every mesoblock was written:
all macroblocks but the current one are full then, and what is collected from one of them fills the next one.
-/

namespace Scubed3

open Blockio Scubed3.Partition Juggler Volume

variable {p : Params} {l : Partition} {entry : Entry} {log : List Change} {m muoff size : ℕ}

namespace Partition

theorem Intact.card_mul_mmpm_lt (intact : Intact p l) : (owned p l.dev).card * p.b.mmpm < 2 ^ 32 := by
  have few : (owned p l.dev).card ≤ 2 ^ (32 - p.b.mesobits) := by
    refine (Finset.card_le_card fun b own => ?_).trans (Finset.card_range _).le
    exact Finset.mem_range.mpr (lt_trans (Nat.lt_succ_self b) (intact.addressable b own))
  calc (owned p l.dev).card * p.b.mmpm ≤ 2 ^ (32 - p.b.mesobits) * p.b.mmpm := Nat.mul_le_mul_right _ few
    _ < 2 ^ (32 - p.b.mesobits) * 2 ^ p.b.mesobits :=
        Nat.mul_lt_mul_of_pos_left (p.sound.mmpm ▸ Nat.lt_succ_self _) (Nat.two_pow_pos _)
    _ = 2 ^ 32 := two_pow_mesobits p

/-- The macroblocks that are not reserved offer all their mesoblocks. -/
theorem Intact.usable (intact : Intact p l) (some : 0 < l.noBlockIndices) :
    l.dev.reservedMacroblocks < (owned p l.dev).card ∧
      l.noBlockIndices = ((owned p l.dev).card - l.dev.reservedMacroblocks) * p.b.mmpm := by
  have sized := intact.sized
  rw [blank, intact.known.noMacroblocks] at sized
  dsimp only at sized
  split at sized
  · omega
  · next above =>
    have few := intact.card_mul_mmpm_lt
    have pos := p.mmpm_pos
    have small : (owned p l.dev).card < 2 ^ 32 := (Nat.le_mul_of_pos_right _ pos).trans_lt few
    rw [Control.usableMesoblks_of_lt (not_le.mp above) small, Nat.mod_eq_of_lt] at sized
    · exact ⟨not_le.mp above, sized⟩
    · exact (Nat.mul_le_mul_right _ (Nat.sub_le ..)).trans_lt few

/-- The mesoblocks in use leave room exactly when more than one macroblock is reserved, or some mesoblock was never
written. -/
theorem Intact.room_iff (intact : Intact p l) (some : 0 < l.noBlockIndices) (reserved : 1 ≤ l.dev.reservedMacroblocks) :
    (inUse l).card < ((owned p l.dev).card - 1) * p.b.mmpm ↔
      2 ≤ l.dev.reservedMacroblocks ∨ ∃ m < l.noBlockIndices, l.blockIndices m = noIndex := by
  obtain ⟨above, usable⟩ := intact.usable some
  have bound : (inUse l).card ≤ l.noBlockIndices :=
    (Finset.card_le_card (Finset.filter_subset ..)).trans (Finset.card_range _).le
  by_cases two : 2 ≤ l.dev.reservedMacroblocks
  · refine iff_of_true (bound.trans_lt ?_) (.inl two)
    rw [usable]
    exact Nat.mul_lt_mul_of_pos_right (by omega) p.mmpm_pos
  · have one : l.dev.reservedMacroblocks = 1 := by omega
    rw [one] at usable
    rw [← usable, or_iff_right two]
    constructor
    · intro few
      by_contra all
      push Not at all
      refine few.ne ?_
      rw [inUse, Finset.filter_true_of_mem fun m member => all m (Finset.mem_range.mp member), Finset.card_range]
    · rintro ⟨m, inside, never⟩
      have missing : inUse l ⊂ Finset.range l.noBlockIndices :=
        Finset.filter_ssubset.mpr ⟨m, Finset.mem_range.mpr inside, not_not.mpr never⟩
      exact (Finset.card_lt_card missing).trans_eq (Finset.card_range _)

end Partition

/-! ## A full partition -/

/-- Two macroblocks take turns, and the only mesoblock is in the one that comes next. `l'` is what becomes of `l` when the
buffer is prepared. -/
@[mk_iff] structure Stuck (l l' : Partition) : Prop where
  scheduled : l.dev.j.scheduled = [1, 0]
  noUnscheduled : l.dev.j.noUnscheduled = 0
  first : (l.dev.b.infos 1).nextSeqno = l.dev.j.seqno + 1
  second : (l.dev.b.infos 0).nextSeqno = l.dev.j.seqno + 2
  seqno : l.dev.j.seqno = 2
  tail : l.dev.tailMacroblock = some 1
  bi : l.dev.bi = some 0
  reserved : l.dev.reservedMacroblocks = 1
  noBlockIndices : l.noBlockIndices = 1
  written : l.blockIndices 0 ≠ noIndex
  elsewhere : indexId (.smallest 2 Geometry.two_fits) (l.blockIndices 0) ≠ 0
  current : l'.dev.bi = some 0
  full : (l'.dev.b.infos 0).noIndices = 1

instance (l l' : Partition) : Decidable (Stuck l l') := decidable_of_iff _ (stuck_iff l l').symm

/-- Create a partition of two macroblocks, one of them reserved, write its mesoblock, and cycle. -/
def fillPartition : Draw Failure (Partition × Partition × Entry) := do
  let entry ← createPartition 2 Geometry.two_fits 2 1
  let l ← cleanReq (.smallest 2 Geometry.two_fits) 8 entry.l 0 1 fun _ => 7
  if entry.l.noBlockIndices = 1 ∧ l.dev.bi = some 1 ∧ ¬ Repeats l then
    let l ← Partition.cycle (.smallest 2 Geometry.two_fits) 8 l
    let l' ← initializeOutput (.smallest 2 Geometry.two_fits) (touched l)
    if Stuck l l' then return (l, l', entry) else .starve
  else .starve

theorem Orderly.fillPartition : ∃ (entry : Entry) (log : List Change) (l' : Partition),
    Orderly (.smallest 2 (by decide)) (.opened entry) log ∧ Stuck entry.l l' ∧
      initializeOutput (.smallest 2 (by decide)) (touched entry.l) = .ok l' := by
  have ran : (do let _ ← Scubed3.fillPartition; return : Draw Failure Unit).run [0, 0, 0, 1, 0, 0, 0] = .done () [] := by
    decide +kernel
  obtain ⟨⟨l, l', entry⟩, _, filled, -⟩ := Draw.bind_done_iff.mp ran
  unfold Scubed3.fillPartition at filled
  obtain ⟨entry', _, created, filled⟩ := Draw.bind_done_iff.mp filled
  obtain ⟨l₁, _, cleaned, filled⟩ := Draw.bind_done_iff.mp filled
  split at filled
  · next holds =>
    obtain ⟨l₂, _, cycled, filled⟩ := Draw.bind_done_iff.mp filled
    obtain ⟨l₃, _, initialised, filled⟩ := Draw.bind_done_iff.mp filled
    split at filled
    · next stuck =>
      cases filled
      obtain ⟨one, current, clean⟩ := holds
      have history := Orderly.createPartition (fun c bound => ?_) (by decide) created
      · have later := Orderly.write history (by decide) (by decide) (by decide) (by rw [one]; decide) cleaned
        exact ⟨_, _, _, .cycle later current clean cycled, stuck, (Draw.lift_done_iff.mp initialised).1⟩
      · obtain rfl | rfl : c = 0 ∨ c = 1 := by omega
        all_goals
          unfold Foreign
          decide +kernel
    · cases filled
  · cases filled

namespace Stuck

variable {l' : Partition}

/-- The two macroblocks go on like this. -/
def turns (stuck : Stuck l l') : Turns where
  juggler := l.dev.j
  records := l.dev.b.infos
  due := 1
  other := 0
  scheduled := stuck.scheduled
  noUnscheduled := stuck.noUnscheduled
  differ := by decide
  first := stuck.first
  second := stuck.second

theorem fair (stuck : Stuck l l') : Fair (.smallest 2 (by decide)) l stuck.turns.schedule where
  current := by
    rw [stuck.tail, stuck.bi]
    decide
  alone := stuck.turns.alone
  again b own := by
    have fits (i : ℕ) (few : i ≤ 2) : (stuck.turns.schedule.records (i + 1) (stuck.turns.schedule.block i)).nextSeqno < 2 ^ 64 := by
      rw [stuck.turns.nextSeqno_eq, show stuck.turns.juggler.seqno = 2 from stuck.seqno]
      omega
    have below : b < 2 := (mem_owned.mp own).1
    obtain rfl | rfl : b = 0 ∨ b = 1 := by omega
    · exact ⟨1, le_rfl, rfl, fun i few => fits i (few.trans (by decide))⟩
    · exact ⟨2, by decide, rfl, fits⟩

theorem makesRoom (stuck : Stuck l l') (initialised : initializeOutput (.smallest 2 (by decide)) (touched l) = .ok l') :
    MakesRoom (.smallest 2 (by decide)) l 0 := ⟨l', 0, initialised, stuck.current, stuck.elsewhere, stuck.full⟩

theorem unused (stuck : Stuck l l') : ¬ (2 ≤ l.dev.reservedMacroblocks ∨ ∃ m < l.noBlockIndices, l.blockIndices m = noIndex) := by
  rintro (two | ⟨m, inside, never⟩)
  · rw [stuck.reserved] at two
    exact absurd two (by decide)
  · obtain rfl : m = 0 := Nat.lt_one_iff.mp (stuck.noBlockIndices ▸ inside)
    exact stuck.written never

end Stuck

/-! ## Results -/

end Scubed3
