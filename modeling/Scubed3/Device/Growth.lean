import Scubed3.Device.Resize

/-! # When a resize keeps what it promises

A resize of a partition whose records agree never fails while it allocates or selects. It can only fail when the
new number of mesoblocks is computed: `scubed3_reinit` does not shrink. The tests of `control_resize` do not see
that coming, and they let a negative number of reserved macroblocks pass.
-/

namespace Scubed3.Blockio

variable {p : Params} {dev : BlockioDev}

/-- The status of a macroblock that is free can be changed. -/
theorem changeMacroblockStatus_returns (dev : BlockioDev) {i : ℕ} (small : i < dev.status.noBits) (unused : dev.status.used i = false) :
    ∃ dev', changeMacroblockStatus dev i .used = .ok dev' := by
  unfold changeMacroblockStatus
  rw [getMacroblockStatusBynum_eq small, unused]
  unfold Bitmap.setbitSafe
  rw [check_of _ _ small]
  exact ⟨_, rfl⟩

/-- Allocating a macroblock only fails when there is none. -/
theorem Known.allocate_safe (known : Known p dev) (some : 0 < dev.b.unallocated.length) :
    Draw.Safe (allocateMacroblock dev) fun dev' => Known p dev' ∧ Grown dev dev' ∧
      dev'.noMacroblocks = dev.noMacroblocks + 1 ∧
      dev'.b.unallocated.length + 1 = dev.b.unallocated.length := by
  suffices safe : Draw.Safe (allocateMacroblock dev) fun _ => True by
    refine safe.reached.imp fun dev' ⟨_, tape, rest, ran⟩ => ?_
    obtain ⟨known', grown, count, -⟩ := known.allocate ran
    obtain ⟨no, i, j, status, bound, -, -, -, -, rfl⟩ := allocateMacroblock_done ran
    refine ⟨known', grown, count, ?_⟩
    change (dev.b.unallocated.eraseIdx no).length + 1 = _
    rw [List.length_eraseIdx_of_lt bound]
    omega
  unfold allocateMacroblock
  refine .bind (randomCustom_ensures some (q := (· < dev.b.unallocated.length)) fun _ bound => bound) fun no bound => ?_
  rw [List.getElem?_eq_getElem bound]
  obtain ⟨inside, free⟩ := (known.coherent.mem_iff _).mp (List.getElem_mem bound)
  set i := dev.b.unallocated[no]
  have absent : i ∉ owned p dev := fun own => by
    rw [(mem_owned.mp own).2] at free
    cases free
  have small : i < dev.status.noBits := by
    have := p.sound.total_le
    rw [known.noBits]
    omega
  have unused : dev.status.used i = false := by
    by_contra used
    exact absent ((known.used i (known.noBits ▸ small)).mp (by simpa using used))
  have own : (dev.b.infos.set i (prepareBlock (dev.b.infos i) dev.self)) i = prepareBlock (dev.b.infos i) dev.self :=
    BlockioInfos.set_same ..
  obtain ⟨j, added, -, -⟩ := (known.settled.congr (dev.b.infos.set i (prepareBlock (dev.b.infos i) dev.self))
    fun c member => by
      rw [BlockioInfos.set_of_ne _ _ (ne_of_mem_of_not_mem member absent)]
      exact ⟨rfl, rfl⟩).add absent (by rw [own]; rfl) (by rw [own]; rfl)
  refine .bind (.lift_ok added (q := fun _ => True) trivial) fun j' _ => ?_
  obtain ⟨_, changed⟩ := changeMacroblockStatus_returns (setAllocation dev j' (dev.noMacroblocks + 1) dev.status
    (dev.b.infos.set i (prepareBlock (dev.b.infos i) dev.self)) (dev.b.unallocated.eraseIdx no)) small unused
  exact .lift_ok changed trivial

/-- The loop of `blockio_dev_allocate_macroblocks` does not fail when there are enough of them. -/
theorem Known.allocateTurns_safe {size : ℕ} (known : Known p dev) (enough : size ≤ dev.b.unallocated.length) :
    Draw.Safe (allocateTurns size dev) fun dev' => Known p dev' ∧ Grown dev dev' ∧
      dev'.noMacroblocks = dev.noMacroblocks + size := by
  induction size generalizing dev with
  | zero => exact .pure ⟨known, .refl dev, rfl⟩
  | succ size ih =>
    unfold allocateTurns
    refine .bind (known.allocate_safe (by omega)) fun next ⟨knownNext, grown, count, left⟩ => ?_
    refine (ih knownNext (by omega)).imp fun dev' ⟨known', grown', count'⟩ => ?_
    exact ⟨known', grown.trans grown', by omega⟩

/-- After a resize a partition without a current macroblock selects one; it does not fail. -/
theorem Known.selectIfIdle_safe (known : Known p dev) (fuel : ℕ) (some : 0 < dev.noMacroblocks) :
    Draw.Safe (if dev.bi = none then selectNextMacroblock fuel dev else pure dev) fun dev' =>
      dev'.noMacroblocks = dev.noMacroblocks ∧ dev'.reservedMacroblocks = dev.reservedMacroblocks := by
  split
  · next idle =>
    have nonempty : (owned p dev).Nonempty := Finset.card_pos.mp (known.noMacroblocks ▸ some)
    refine (known.select_safe fuel idle nonempty).reached.imp fun dev' ⟨_, tape, rest, ran⟩ => ?_
    obtain ⟨-, id, j, infos, -, -, -, rfl⟩ := selectNext_done ran
    exact ⟨rfl, rfl⟩
  · exact .pure ⟨rfl, rfl⟩

end Scubed3.Blockio

namespace Scubed3.Control

open Blockio Scubed3.Partition

variable {p : Params} {entry : Entry} {size reserved : ℤ}

/-- The command gets as far as allocating macroblocks. -/
structure Grows (p : Params) (entry : Entry) (size reserved : ℤ) : Prop where
  ordered : reserved ≤ size
  larger : entry.l.dev.noMacroblocks < size.toNat
  available : size.toNat ≤ p.b.totalMacroblocks
  unclaimed : size.toNat - entry.l.dev.noMacroblocks ≤ entry.l.dev.b.unallocated.length

/-- There is a number of mesoblocks to promise, and it is not smaller than the one promised before. -/
structure Fits (p : Params) (entry : Entry) (size reserved : ℤ) : Prop where
  nonneg : 0 ≤ reserved
  kept : entry.l.noBlockIndices ≤ (size - reserved).toNat * p.b.mmpm
  small : (size - reserved).toNat * p.b.mmpm < 2 ^ 32

/-- The command is refused without effect, or it is answered OK and promises what there is. It never fails. -/
def Promised (p : Params) (entry : Entry) (size : ℤ) : Outcome Failure (Reply × Entry) → Prop
  | .failed _ => False
  | .starved => True
  | .done (.refused _, entry') _ => entry' = entry
  | .done (.ok, entry') _ =>
    entry'.l.dev.reservedMacroblocks ≤ entry'.l.dev.noMacroblocks ∧ (entry'.l.dev.noMacroblocks : ℤ) = size ∧
      entry'.l.noBlockIndices =
        (entry'.l.dev.noMacroblocks - entry'.l.dev.reservedMacroblocks) * p.b.mmpm ∧
      entry.l.noBlockIndices ≤ entry'.l.noBlockIndices

/-- A command that does not get that far is refused. -/
theorem resize_refused (fuel : ℕ) (idle : entry.inuse = false) (stays : ¬ Grows p entry size reserved) :
    ∃ message, resize p fuel entry size reserved = pure (.refused message, entry) := by
  unfold resize
  dsimp only
  rw [if_neg (by simp [idle])]
  split
  · exact ⟨_, rfl⟩
  · next sense =>
    split
    · exact ⟨_, rfl⟩
    · next larger =>
      split
      · exact ⟨_, rfl⟩
      · next available =>
        split
        · exact ⟨_, rfl⟩
        · next more =>
          have few : entry.l.dev.b.unallocated.length < size.toNat - entry.l.dev.noMacroblocks := by
            by_contra enough
            exact stays ⟨by omega, by omega, by omega, by omega⟩
          refine ⟨"not enough unclaimed blocks available for resize", ?_⟩
          unfold allocateMacroblocks
          rw [if_pos few]
          rfl

/-- What the command does once it gets that far. -/
theorem resize_grows (fuel : ℕ) (idle : entry.inuse = false) (grows : Grows p entry size reserved) :
    resize p fuel entry size reserved = do
      let dev ← allocateTurns (size.toNat - entry.l.dev.noMacroblocks) entry.l.dev
      let dev := { dev with reservedMacroblocks := (reserved % 2 ^ 32).toNat }
      let size := if dev.noMacroblocks > dev.reservedMacroblocks then
          entrySize p dev.noMacroblocks dev.reservedMacroblocks
        else entry.size
      let l ← Partition.reinit p { entry.l with dev }
      let dev ← (if l.dev.bi = none then selectNextMacroblock fuel l.dev else pure l.dev)
      return (.ok, { entry with size, l := { l with dev := { dev with updated := true } } }) := by
  obtain ⟨ordered, larger, available, unclaimed⟩ := grows
  unfold resize allocateMacroblocks
  dsimp only
  rw [if_neg (by simp [idle]), if_neg (by omega), if_neg (by omega), if_neg (by omega), if_neg (by omega),
    if_neg (by omega)]
  exact Draw.bind_bind ..

/-- The number of mesoblocks for a number of reserved macroblocks that is not negative. -/
theorem usableMesoblks_eq {no : ℕ} (nonneg : 0 ≤ reserved) (ordered : reserved ≤ size) (count : (no : ℤ) = size)
    (int32 : size < 2 ^ 31) :
    usableMesoblks p no (reserved % 2 ^ 32).toNat = (size - reserved).toNat * p.b.mmpm % 2 ^ 32 := by
  have stored : (reserved % 2 ^ 32).toNat = reserved.toNat := by omega
  have difference : (no + 2 ^ 32 - reserved.toNat) % 2 ^ 32 = (size - reserved).toNat := by omega
  rw [usableMesoblks, stored, difference]

/-- What the fields promise after a resize to `size` macroblocks, for the number of mesoblocks that is computed. -/
theorem promised_fields_iff (p : Params) (entry : Entry) {no : ℕ} (ordered : reserved ≤ size) (count : (no : ℤ) = size) (lower : -2 ^ 31 ≤ reserved)
    (upper : size < 2 ^ 31) :
    ((reserved % 2 ^ 32).toNat ≤ no ∧ (no : ℤ) = size ∧
      usableMesoblks p no (reserved % 2 ^ 32).toNat = (no - (reserved % 2 ^ 32).toNat) * p.b.mmpm ∧
      entry.l.noBlockIndices ≤ usableMesoblks p no (reserved % 2 ^ 32).toNat) ↔ Fits p entry size reserved := by
  by_cases nonneg : 0 ≤ reserved
  · have stored : (reserved % 2 ^ 32).toNat ≤ no := by omega
    have difference : no - (reserved % 2 ^ 32).toNat = (size - reserved).toNat := by omega
    rw [usableMesoblks_eq nonneg ordered count upper, difference]
    constructor
    · rintro ⟨-, -, exact, kept⟩
      have small := Nat.mod_lt ((size - reserved).toNat * p.b.mmpm) (Nat.two_pow_pos 32)
      rw [exact] at small kept
      exact ⟨nonneg, kept, small⟩
    · rintro ⟨-, kept, small⟩
      rw [Nat.mod_eq_of_lt small]
      exact ⟨stored, count, rfl, kept⟩
  · -- the field holds a number above 2 ^ 31
    refine iff_of_false (fun promised => ?_) fun fits => nonneg fits.nonneg
    have := promised.1
    omega

theorem reinit_shrinks {l : Partition}
    (less : usableMesoblks p l.dev.noMacroblocks l.dev.reservedMacroblocks < l.noBlockIndices) :
    reinit p l = .error (.fatal "scubed3_reinit shrinking not supported") := by
  unfold reinit
  dsimp only
  rw [if_neg (by omega), if_pos less]
  rfl

/-- A resize keeps what it promises exactly when there is something to promise. -/
theorem resize_promised_iff (known : Known p entry.l.dev) (idle : entry.inuse = false)
    (lower : -2 ^ 31 ≤ reserved) (upper : size < 2 ^ 31) {fuel : ℕ} {tape : List ℕ}
    (ended : (resize p fuel entry size reserved).run tape ≠ .starved) :
    Promised p entry size ((resize p fuel entry size reserved).run tape) ↔
      (Grows p entry size reserved → Fits p entry size reserved) := by
  by_cases grows : Grows p entry size reserved
  swap
  · obtain ⟨message, refused⟩ := resize_refused fuel idle grows
    rw [refused]
    exact iff_of_true rfl fun grows' => absurd grows' grows
  rw [resize_grows fuel idle grows] at ended ⊢
  rw [Draw.run_bind] at ended ⊢
  have allocated := (known.allocateTurns_safe grows.unclaimed).result tape
  cases growing : (allocateTurns (size.toNat - entry.l.dev.noMacroblocks) entry.l.dev).run tape with
  | starved => rw [growing] at ended; exact absurd rfl ended
  | failed e => rw [growing] at allocated; exact allocated.elim
  | done grown mid =>
    rw [growing] at allocated ended
    obtain ⟨knownGrown, -, added⟩ := allocated
    dsimp only at ended ⊢
    have larger := grows.larger
    have count : (grown.noMacroblocks : ℤ) = size := by omega
    have fields := promised_fields_iff p entry grows.ordered count lower upper
    rw [Draw.run_bind] at ended ⊢
    by_cases shrinks : usableMesoblks p grown.noMacroblocks (reserved % 2 ^ 32).toNat < entry.l.noBlockIndices
    · rw [reinit_shrinks shrinks]
      refine iff_of_false id fun fits => ?_
      have := (fields.mpr (fits grows)).2.2.2
      omega
    · rw [reinit_eq_ok_iff.mpr ⟨not_lt.mp shrinks, rfl⟩] at ended ⊢
      have knownSized := knownGrown.reserve (show (reserved % 2 ^ 32).toNat < 2 ^ 32 by omega)
      have selected := (knownSized.selectIfIdle_safe fuel (by dsimp only; omega)).result mid
      rw [Draw.lift_ok, Draw.run_ret] at ended ⊢
      dsimp only at ended ⊢
      rw [Draw.run_bind] at ended ⊢
      cases selecting : (if grown.bi = none then selectNextMacroblock fuel
          { grown with reservedMacroblocks := (reserved % 2 ^ 32).toNat } else pure
          { grown with reservedMacroblocks := (reserved % 2 ^ 32).toNat }).run mid with
      | starved => rw [selecting] at ended; exact absurd rfl ended
      | failed e => rw [selecting] at selected; exact selected.elim
      | done dev rest =>
        rw [selecting] at selected
        obtain ⟨countSame, reservedSame⟩ := selected
        change (dev.reservedMacroblocks ≤ dev.noMacroblocks ∧ (dev.noMacroblocks : ℤ) = size ∧ _ =
          (dev.noMacroblocks - dev.reservedMacroblocks) * p.b.mmpm ∧ _) ↔ _
        rw [countSame, reservedSame]
        exact fields.trans ⟨fun fits _ => fits, fun fits => fits grows⟩

/-! ## A partition without macroblocks -/

/-- A partition right after it was created on an unused device. -/
def createdEntry (total : ℕ) : Entry where
  size := 0
  l := { dev := { b := { unallocated := List.range total, base := fun _ => 0 }, self := 1, status := Bitmap.init 1984 } }

theorem known_createdEntry {total : ℕ} (few : total ≤ 1984) :
    Known (.smallest total few) (createdEntry total).l.dev := by
  have none : owned (.smallest total few) (createdEntry total).l.dev = ∅ := by
    ext c
    simp [mem_owned, createdEntry]
  refine ⟨?_, ⟨List.nodup_range, fun c => ?_⟩, rfl, fun i _ => ?_, ?_, Nat.two_pow_pos 32, rfl, fun c found => ?_⟩
  · rw [none]
    exact .init _
  · simp [createdEntry, Params.smallest, Geometry.smallest]
  · rw [none]
    simp [createdEntry, Bitmap.init, Bitmap.used]
  · rw [none]
    rfl
  · cases found

theorem resize_promised_iff_createdEntry :
    Promised (.smallest 2 (by decide)) (createdEntry 2) 2
      ((resize (.smallest 2 (by decide)) 4 (createdEntry 2) 2 1).run [0, 0, 0, 0, 0]) := by
  have ran : (do
      let (reply, _) ← resize (.smallest 2 (by decide)) 4 (createdEntry 2) 2 1
      return reply : Draw Failure Reply).run [0, 0, 0, 0, 0] = .done .ok [0] := by
    decide +kernel
  refine (resize_promised_iff (known_createdEntry (by decide)) rfl (by decide) (by decide) fun starved => ?_).mpr
    fun _ => ⟨by decide, by decide, by decide⟩
  rw [Draw.run_bind, starved] at ran
  cases ran

/-- A negative number of reserved macroblocks is accepted, and so is one that leaves less than before: then
the daemon ends. -/
theorem resize_overpromises :
    Known (.smallest 2 (by decide)) (createdEntry 2).l.dev ∧ (createdEntry 2).inuse = false ∧
      ¬ Promised (.smallest 2 (by decide)) (createdEntry 2) 1
        ((resize (.smallest 2 (by decide)) 4 (createdEntry 2) 1 (-1)).run [0, 0, 0]) ∧
      ∃ entry rest, (resize (.smallest 2 (by decide)) 4 (createdEntry 2) 1 0).run [0, 0, 0, 0] =
          .done (.ok, entry) rest ∧ entry.inuse = false ∧
        ¬ Promised (.smallest 2 (by decide)) entry 2 ((resize (.smallest 2 (by decide)) 4 entry 2 2).run rest) ∧
        (resize (.smallest 2 (by decide)) 4 entry 2 2).run rest =
          .failed (.fatal "scubed3_reinit shrinking not supported") := by
  refine ⟨known_createdEntry (by decide), rfl, ?_, ?_⟩
  · have ran : (do
        let (reply, entry) ← resize (.smallest 2 (by decide)) 4 (createdEntry 2) 1 (-1)
        return (reply, entry.l.dev.noMacroblocks, entry.l.dev.reservedMacroblocks) :
          Draw Failure (Reply × ℕ × ℕ)).run [0, 0, 0] = .done (.ok, 1, 2 ^ 32 - 1) [] := by
      decide +kernel
    obtain ⟨⟨reply, entry⟩, _, resized, answered⟩ := Draw.bind_done_iff.mp ran
    obtain ⟨rfl, count, reserved⟩ : reply = .ok ∧ entry.l.dev.noMacroblocks = 1 ∧
        entry.l.dev.reservedMacroblocks = 2 ^ 32 - 1 := by
      simpa using (Outcome.done.inj answered).1
    rw [resized]
    rintro ⟨below, -⟩
    omega
  · have ran : (do
        let (reply, entry) ← resize (.smallest 2 (by decide)) 4 (createdEntry 2) 1 0
        return (reply, entry.inuse) : Draw Failure (Reply × Bool)).run [0, 0, 0, 0] = .done (.ok, false) [0] := by
      decide +kernel
    have ends : (do
        let (_, entry) ← resize (.smallest 2 (by decide)) 4 (createdEntry 2) 1 0
        let (reply, _) ← resize (.smallest 2 (by decide)) 4 entry 2 2
        return reply : Draw Failure Reply).run [0, 0, 0, 0] =
          .failed (.fatal "scubed3_reinit shrinking not supported") := by
      decide +kernel
    obtain ⟨⟨reply, entry⟩, rest, resized, answered⟩ := Draw.bind_done_iff.mp ran
    obtain ⟨rfl, idle⟩ : reply = .ok ∧ entry.inuse = false := by
      simpa using (Outcome.done.inj answered).1
    rw [Draw.run_bind, resized] at ends
    dsimp only at ends
    rw [Draw.run_bind] at ends
    have failed : (resize (.smallest 2 (by decide)) 4 entry 2 2).run rest =
        .failed (.fatal "scubed3_reinit shrinking not supported") := by
      cases shrinking : (resize (.smallest 2 (by decide)) 4 entry 2 2).run rest with
      | done answer rest => rw [shrinking] at ends; cases ends
      | failed e => rw [shrinking] at ends; cases ends; rfl
      | starved => rw [shrinking] at ends; cases ends
    refine ⟨entry, rest, resized, idle, ?_, failed⟩
    rw [failed]
    exact id

end Scubed3.Control
