import Scubed3.Device.Growth
import Scubed3.Model.FileSystem
import Mathlib.Data.Finset.Max
import Mathlib.Data.Nat.Prime.Basic

/-! # The size of the file

The size that the file system reports is computed next to the number of mesoblocks, in 32-bit fields as well. It is
the size of the partition as long as that is below four gigabytes, and as long as a resize does not store a
negative reserve or take back what was advertised.
-/

namespace Scubed3.Control

open Blockio Scubed3.Partition

variable {p : Params} {fuel addr no reserved : ℕ} {b : Blockio} {dev : BlockioDev} {entry entry' : Entry}
  {tape rest : List ℕ}

/-- The file has the size of the partition, whose macroblocks but the reserved ones are usable. -/
structure Advertised (p : Params) (entry : Entry) : Prop where
  size : ∀ readonly, (entry.stat readonly).size = entry.l.noBlockIndices * p.mesoblkSize
  usable : entry.l.noBlockIndices =
    if entry.l.dev.noMacroblocks > entry.l.dev.reservedMacroblocks then
      (entry.l.dev.noMacroblocks - entry.l.dev.reservedMacroblocks) * p.b.mmpm
    else 0
  current : 0 < entry.l.noBlockIndices → entry.l.dev.bi ≠ none

/-! ## The products -/

theorem mmpm_odd (p : Params) : Nat.Coprime (2 ^ 32) p.b.mmpm := by
  have even : 2 ∣ p.b.mmpm + 1 := p.sound.mmpm ▸ dvd_pow_self 2 p.sound.mesobits_pos.ne'
  refine Nat.Coprime.pow_left 32 ((Nat.Prime.coprime_iff_not_dvd Nat.prime_two).mpr ?_)
  omega

theorem entrySize_eq (above : reserved < no) (small : no < 2 ^ 32) :
    entrySize p no reserved = (no - reserved) * p.b.mmpm * p.mesoblkSize % 2 ^ 32 := by
  have difference : (no + 2 ^ 32 - reserved) % 2 ^ 32 = no - reserved := by omega
  rw [entrySize, difference, Nat.mod_mul_mod, Nat.mul_right_comm]

theorem usableMesoblks_of_lt (above : reserved < no) (small : no < 2 ^ 32) :
    usableMesoblks p no reserved = (no - reserved) * p.b.mmpm % 2 ^ 32 := by
  have difference : (no + 2 ^ 32 - reserved) % 2 ^ 32 = no - reserved := by omega
  rw [usableMesoblks, difference]

/-- The number of mesoblocks for a negative reserve is not zero. -/
theorem usableMesoblks_pos_of_above (below : no < reserved) (small : reserved < 2 ^ 32) :
    0 < usableMesoblks p no reserved := by
  rw [usableMesoblks, Nat.mod_eq_of_lt (show no + 2 ^ 32 - reserved < 2 ^ 32 by omega)]
  refine Nat.pos_of_ne_zero fun zero => ?_
  have divides : 2 ^ 32 ∣ no + 2 ^ 32 - reserved :=
    (mmpm_odd p).dvd_of_dvd_mul_right (Nat.dvd_of_mod_eq_zero zero)
  have := Nat.le_of_dvd (by omega) divides
  omega

/-- With usable macroblocks, the fields are right exactly when the size fits in 32 bits. -/
theorem sizes_iff (above : reserved < no) (small : no < 2 ^ 32) :
    (entrySize p no reserved = usableMesoblks p no reserved * p.mesoblkSize ∧
      usableMesoblks p no reserved = (no - reserved) * p.b.mmpm) ↔
    (no - reserved) * p.b.mmpm * p.mesoblkSize < 2 ^ 32 := by
  rw [entrySize_eq above small, usableMesoblks_of_lt above small]
  constructor
  · rintro ⟨size, usable⟩
    rw [usable] at size
    exact size ▸ Nat.mod_lt _ (Nat.two_pow_pos 32)
  · intro fits
    have usable : (no - reserved) * p.b.mmpm < 2 ^ 32 :=
      (Nat.le_mul_of_pos_right _ p.mesoblkSize_pos).trans_lt fits
    rw [Nat.mod_eq_of_lt fits, Nat.mod_eq_of_lt usable]
    exact ⟨rfl, rfl⟩

/-! ## Opening -/

/-- What is read from a device are 32-bit numbers. -/
theorem counts_lt (inventory : Inventory p b addr dev) :
    dev.noMacroblocks < 2 ^ 32 ∧ dev.reservedMacroblocks < 2 ^ 32 := by
  rcases (ours p b).eq_empty_or_nonempty with none | some
  · obtain ⟨count, reserved, -⟩ := inventory.empty none
    rw [count, reserved]
    decide
  · obtain ⟨top, member, upper⟩ := (ours p b).exists_max_image (fun c => (record p b.base c).seqno) some
    have summary := inventory.summary top member upper
    rw [summary.noMacroblocks, summary.reservedMacroblocks]
    exact ⟨Binio.readUint32Be_lt _ _, Binio.readUint32Be_lt _ _⟩

/-- `scubed3_init` computes the number of mesoblocks and leaves those of macroblocks alone. -/
theorem init_fields {l : Partition} {missing : Bool} (ran : Partition.init p dev = .ok (l, missing)) :
    l.noBlockIndices = (blank p dev).noBlockIndices ∧ l.dev.noMacroblocks = dev.noMacroblocks ∧
      l.dev.reservedMacroblocks = dev.reservedMacroblocks := by
  have started := init_eq_ok_iff.mp ran
  split at started
  · cases started
    exact ⟨rfl, rfl, rfl⟩
  · obtain ⟨l', replayed, j, -, same⟩ := started
    cases same
    obtain ⟨device, size⟩ := (replay_all_sameSize (blank p dev) dev.replay).value l' replayed
    refine ⟨size, ?_, ?_⟩
    · change l'.dev.noMacroblocks = _
      rw [device.rest]
      rfl
    · change l'.dev.reservedMacroblocks = _
      rw [device.rest]
      rfl

/-- Selecting a macroblock keeps the counts. -/
theorem selectNext_fields {dev' : BlockioDev} (ran : (selectNextMacroblock fuel dev).run tape = .done dev' rest) :
    dev'.noMacroblocks = dev.noMacroblocks ∧ dev'.reservedMacroblocks = dev.reservedMacroblocks ∧ dev'.bi ≠ none := by
  obtain ⟨-, id, j, infos, -, -, -, rfl⟩ := selectNext_done ran
  exact ⟨rfl, rfl, by simp⟩

/-- An open advertises the right size exactly when it fits in 32 bits. -/
theorem opened_advertised_iff {add missing : Bool} (found : devInit p b addr = .ok dev)
    (ran : (openCreateCommon p fuel b addr add).run tape = .done (.opened entry missing) rest) :
    Advertised p entry ↔ dev.noMacroblocks ≤ dev.reservedMacroblocks ∨
      (dev.noMacroblocks - dev.reservedMacroblocks) * p.b.mmpm * p.mesoblkSize < 2 ^ 32 := by
  obtain ⟨dev', l, found', -, started, -, size, -, rebuilt, selected⟩ := openCreateCommon_opened ran
  cases found'.symm.trans found
  obtain ⟨usable, count, reserved⟩ := init_fields started
  have small := (counts_lt ((devInit_yields b addr).value dev found)).1
  obtain ⟨countEnd, reservedEnd⟩ : entry.l.dev.noMacroblocks = dev.noMacroblocks ∧
      entry.l.dev.reservedMacroblocks = dev.reservedMacroblocks := by
    split at selected
    · obtain ⟨countNext, reservedNext, -⟩ := selectNext_fields selected
      exact ⟨countNext.trans count, reservedNext.trans reserved⟩
    · rw [selected]
      exact ⟨count, reserved⟩
  have indices : entry.l.noBlockIndices = (blank p dev).noBlockIndices := by
    rw [rebuilt]
    exact usable
  by_cases none : dev.noMacroblocks ≤ dev.reservedMacroblocks
  · have zero : entry.l.noBlockIndices = 0 := indices.trans (if_pos none)
    rw [if_neg (not_lt.mpr none)] at size
    refine iff_of_true ⟨fun _ => ?_, ?_, fun some => ?_⟩ (.inl none)
    · rw [zero, Nat.zero_mul]
      exact size
    · rw [countEnd, reservedEnd, zero, if_neg (not_lt.mpr none)]
    · omega
  · have above := not_le.mp none
    replace indices := indices.trans (if_neg none)
    rw [if_pos above] at size
    rw [or_iff_right none, ← sizes_iff above small, ← indices, ← size]
    constructor
    · rintro ⟨size', usable', -⟩
      rw [countEnd, reservedEnd, if_pos above] at usable'
      exact ⟨size' false, usable'⟩
    · rintro ⟨size', usable'⟩
      refine ⟨fun _ => size', by rw [countEnd, reservedEnd, if_pos above, usable'], fun some => ?_⟩
      have positive : entry.size > 0 := size' ▸ Nat.mul_pos some p.mesoblkSize_pos
      rw [if_pos positive] at selected
      exact (selectNext_fields selected).2.2

/-! ## Resizing -/

theorem allocateTurns_count {size : ℕ} {dev dev' : BlockioDev} {tape : List ℕ}
    (ran : (allocateTurns size dev).run tape = .done dev' rest) :
    dev'.noMacroblocks = dev.noMacroblocks + size := by
  induction size generalizing dev tape with
  | zero =>
    cases ran
    rfl
  | succ size ih =>
    obtain ⟨next, _, first, others⟩ := Draw.bind_done_iff.mp ran
    obtain ⟨no, i, j, status, bound, -, -, -, -, rfl⟩ := allocateMacroblock_done first
    rw [ih others, setAllocation, Nat.add_right_comm, Nat.add_assoc]

/-- What a resize that is answered OK stores. -/
theorem resize_fields {size reserve : ℤ} (ran : (resize p fuel entry size reserve).run tape = .done (.ok, entry') rest) :
    reserve ≤ size ∧ (entry'.l.dev.noMacroblocks : ℤ) = size ∧ entry'.l.dev.noMacroblocks < 2 ^ 32 ∧
      entry'.l.dev.reservedMacroblocks = (reserve % 2 ^ 32).toNat ∧
      entry'.size = (if entry'.l.dev.noMacroblocks > entry'.l.dev.reservedMacroblocks then
        entrySize p entry'.l.dev.noMacroblocks entry'.l.dev.reservedMacroblocks else entry.size) ∧
      entry'.l.noBlockIndices = usableMesoblks p entry'.l.dev.noMacroblocks entry'.l.dev.reservedMacroblocks ∧
      entry'.l.dev.bi ≠ none := by
  rcases resize_done ran with ⟨refused, -⟩ | ⟨-, idle, -⟩
  · exact absurd rfl refused
  by_cases grows : Grows p entry size reserve
  swap
  · obtain ⟨message, refused⟩ := resize_refused fuel idle grows
    rw [refused] at ran
    cases ran
  rw [resize_grows fuel idle grows] at ran
  obtain ⟨grown, mid, allocated, ran⟩ := Draw.bind_done_iff.mp ran
  obtain ⟨l, _, started, ran⟩ := Draw.bind_done_iff.mp ran
  obtain ⟨reinitialised, rfl⟩ := Draw.lift_done_iff.mp started
  obtain ⟨-, rfl⟩ := reinit_eq_ok_iff.mp reinitialised
  obtain ⟨dev, _, selected, answered⟩ := Draw.bind_done_iff.mp ran
  cases answered
  have count := allocateTurns_count allocated
  have larger := grows.larger
  obtain ⟨countEnd, reservedEnd, current⟩ : dev.noMacroblocks = grown.noMacroblocks ∧
      dev.reservedMacroblocks = (reserve % 2 ^ 32).toNat ∧ dev.bi ≠ none := by
    split at selected
    · exact selectNext_fields selected
    · next busy =>
      cases selected
      exact ⟨rfl, rfl, busy⟩
  have bound := p.sound.maxMacroblocks_lt
  have total := p.sound.total_le
  have enough := grows.available
  dsimp only
  rw [countEnd, reservedEnd]
  exact ⟨grows.ordered, by omega, by omega, rfl, rfl, rfl, current⟩

/-- A resize that is answered OK advertises the right size exactly when the reserve is not negative, what is
usable fits in 32 bits, and nothing was advertised if there is nothing. -/
theorem resized_advertised_iff {size reserve : ℤ} (lower : -2 ^ 31 ≤ reserve) (upper : size < 2 ^ 31)
    (ran : (resize p fuel entry size reserve).run tape = .done (.ok, entry') rest) :
    Advertised p entry' ↔ 0 ≤ reserve ∧ (reserve < size → (size - reserve).toNat * p.b.mmpm * p.mesoblkSize < 2 ^ 32) ∧
      (reserve = size → entry.size = 0) := by
  obtain ⟨ordered, count, small, stored, advertised, indices, current⟩ := resize_fields ran
  by_cases nonneg : 0 ≤ reserve
  swap
  · -- the stored reserve is above the number of macroblocks, but the difference wraps around
    refine iff_of_false (fun right => ?_) fun fits => nonneg fits.1
    have usable := right.usable
    rw [if_neg (by omega), indices] at usable
    have some : 0 < usableMesoblks p entry'.l.dev.noMacroblocks entry'.l.dev.reservedMacroblocks :=
      usableMesoblks_pos_of_above (by omega) (by omega)
    omega
  · by_cases above : reserve < size
    · have difference : entry'.l.dev.noMacroblocks - entry'.l.dev.reservedMacroblocks = (size - reserve).toNat := by omega
      have more : entry'.l.dev.noMacroblocks > entry'.l.dev.reservedMacroblocks := by omega
      have sizes := sizes_iff (p := p) more small
      rw [if_pos more] at advertised
      rw [difference, ← indices, ← advertised] at sizes
      constructor
      · rintro ⟨size', usable, -⟩
        rw [if_pos more, difference] at usable
        exact ⟨nonneg, fun _ => sizes.mp ⟨size' false, usable⟩, fun same => absurd same above.ne⟩
      · rintro ⟨-, fits, -⟩
        obtain ⟨size', usable⟩ := sizes.mpr (fits above)
        exact ⟨fun _ => size', by rw [if_pos more, difference, usable], fun _ => current⟩
    · have same : entry'.l.dev.reservedMacroblocks = entry'.l.dev.noMacroblocks := by omega
      have nothing : entry'.l.noBlockIndices = 0 := by
        rw [indices, same, usableMesoblks, Nat.add_sub_cancel_left, Nat.mod_self, Nat.zero_mul, Nat.zero_mod]
      rw [same, if_neg (lt_irrefl _)] at advertised
      constructor
      · intro right
        have size' := right.size false
        rw [nothing, Nat.zero_mul] at size'
        exact ⟨nonneg, fun below => absurd below above, fun _ => advertised.symm.trans size'⟩
      · rintro ⟨-, -, zero⟩
        refine ⟨fun _ => ?_, ?_, fun some => absurd nothing some.ne'⟩
        · rw [nothing, Nat.zero_mul]
          exact advertised.trans (zero (by omega))
        · rw [nothing, same, if_neg (lt_irrefl _)]

/-- When the advertised size is the usable size, after an open and after a resize. -/
theorem advertised_iff (p : Params) :
    (∀ fuel b addr add tape rest dev entry missing, devInit p b addr = .ok dev →
      (openCreateCommon p fuel b addr add).run tape = .done (.opened entry missing) rest →
      (Advertised p entry ↔ dev.noMacroblocks ≤ dev.reservedMacroblocks ∨
        (dev.noMacroblocks - dev.reservedMacroblocks) * p.b.mmpm * p.mesoblkSize < 2 ^ 32)) ∧
    ∀ fuel entry entry' (size reserve : ℤ) tape rest, -2 ^ 31 ≤ reserve → size < 2 ^ 31 →
      (resize p fuel entry size reserve).run tape = .done (.ok, entry') rest →
      (Advertised p entry' ↔ 0 ≤ reserve ∧
        (reserve < size → (size - reserve).toNat * p.b.mmpm * p.mesoblkSize < 2 ^ 32) ∧
        (reserve = size → entry.size = 0)) :=
  ⟨fun _ _ _ _ _ _ _ _ _ found ran => opened_advertised_iff found ran,
    fun _ _ _ _ _ _ _ lower upper ran => resized_advertised_iff lower upper ran⟩

theorem advertised_iff_createdEntry : ∃ entry rest,
    (resize (.smallest 2 (by decide)) 4 (createdEntry 2) 2 1).run [0, 0, 0, 0] = .done (.ok, entry) rest ∧
      Advertised (.smallest 2 (by decide)) entry := by
  have ran : (do
      let (reply, _) ← resize (.smallest 2 (by decide)) 4 (createdEntry 2) 2 1
      return reply : Draw Failure Reply).run [0, 0, 0, 0] = .done .ok [] := by
    decide +kernel
  obtain ⟨⟨reply, entry⟩, rest, resized, answered⟩ := Draw.bind_done_iff.mp ran
  obtain rfl : reply = .ok := (Outcome.done.inj answered).1
  exact ⟨entry, rest, resized, ((advertised_iff _).2 4 _ entry 2 1 _ rest (by decide) (by decide) resized).mpr
    (by decide)⟩

/-! ## Eight gigabytes -/

/-- Eight macroblocks of a gigabyte, each with one data mesoblock of half a gigabyte. -/
def gigabytesGeometry : Geometry where
  macroblockLog := 30
  mesoblkLog := 29
  mmpm := 1
  bitmapOffset := 264
  maxMacroblocks := 2 ^ 32 - 2112
  totalMacroblocks := 8

theorem gigabytesGeometry_accepted : gigabytesGeometry.Accepted := by
  refine ⟨⟨30, 29, 2 ^ 33, by rfl⟩, by decide⟩

/-- The complement for a cipher and a constant for a hash. -/
def gigabytes : Params where
  b := gigabytesGeometry
  accepted := gigabytesGeometry_accepted
  c := Cipher.complement _
  hash _ _ := 0

/-- A partition of half of them is an empty file. -/
theorem resize_advertises_nothing : ∃ entry entry' rest, Advertised gigabytes entry ∧
    (resize gigabytes 4 entry 8 0).run (List.replicate 10 0) = .done (.ok, entry') rest ∧
    ¬ Advertised gigabytes entry' := by
  let entry : Entry := { createdEntry 8 with
    l := { dev := { (createdEntry 8).l.dev with status := Bitmap.init gigabytes.b.maxMacroblocks } } }
  have ran : (do
      let (reply, entry) ← resize gigabytes 4 entry 8 0
      return (reply, entry.size, entry.l.noBlockIndices) : Draw Failure (Reply × ℕ × ℕ)).run (List.replicate 10 0) =
        .done (.ok, 0, 8) [] := by
    decide +kernel
  obtain ⟨⟨reply, entry'⟩, rest, resized, answered⟩ := Draw.bind_done_iff.mp ran
  obtain ⟨rfl, empty, indices⟩ : reply = .ok ∧ entry'.size = 0 ∧ entry'.l.noBlockIndices = 8 := by
    simpa using (Outcome.done.inj answered).1
  refine ⟨entry, entry', rest, ⟨fun _ => (Nat.zero_mul _).symm, rfl, fun some => absurd some (by decide)⟩,
    resized, fun right => ?_⟩
  have size := right.size false
  change entry'.size = _ at size
  rw [empty, indices] at size
  exact absurd size (Nat.mul_pos (by decide) gigabytes.mesoblkSize_pos).ne

end Scubed3.Control
