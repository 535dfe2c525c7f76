import Scubed3.Device.Open

/-! # Allocating macroblocks and resizing

A resize takes random free macroblocks; to the juggler they are fresh blocks. What the partition had
before is not touched. When it had nothing, the first macroblock is selected.
-/

namespace Scubed3.Blockio

variable (p : Params)

/-- Replace what an allocation changes. -/
def setAllocation (dev : BlockioDev) (j : Juggler) (noMacroblocks : ℕ) (status : Bitmap) (infos : BlockioInfos)
    (unallocated : List ℕ) : BlockioDev :=
  { dev with j, noMacroblocks, status, b := { dev.b with infos, unallocated } }

/-- Macroblocks that belonged to nobody were added; nothing else changed. -/
structure Grown (dev dev' : BlockioDev) : Prop where
  rest : dev' = setAllocation dev dev'.j dev'.noMacroblocks dev'.status dev'.b.infos dev'.b.unallocated
  infos : ∀ c, dev'.b.infos c = dev.b.infos c ∨
    (dev.b.infos c).dev = none ∧ dev'.b.infos c = prepareBlock (dev.b.infos c) dev.self
  scheduled : dev'.j.scheduled = dev.j.scheduled
  seqno : dev'.j.seqno = dev.j.seqno

variable {p}

theorem Grown.refl (dev : BlockioDev) : Grown dev dev := ⟨rfl, fun _ => .inl rfl, rfl, rfl⟩

theorem Grown.trans {dev dev' dev'' : BlockioDev} (first : Grown dev dev') (second : Grown dev' dev'') :
    Grown dev dev'' := by
  have owner : dev'.self = dev.self := by rw [first.rest]; rfl
  refine ⟨second.rest.trans ?_, fun c => ?_, second.scheduled.trans first.scheduled,
    second.seqno.trans first.seqno⟩
  · rw [first.rest]
    rfl
  · rcases second.infos c with same | ⟨free, prepared⟩
    · rw [same]
      exact first.infos c
    · rcases first.infos c with same | ⟨-, prepared'⟩
      · rw [same] at free prepared
        exact .inr ⟨free, by rw [prepared, owner]⟩
      · rw [prepared'] at free
        cases free

/-- All that the change of a status does. -/
theorem changeMacroblockStatus_used {dev dev' : BlockioDev} {index : ℕ}
    (ran : changeMacroblockStatus dev index .used = .ok dev') :
    ∃ status, dev' = { dev with status } ∧ status.noBits = dev.status.noBits ∧
      ∀ c, status.used c = (dev.status.used c || c == index) := by
  unfold changeMacroblockStatus at ran
  simp only [Except.bind_eq_ok_iff, Except.pure_eq_ok_iff] at ran
  obtain ⟨_, -, _, -, status, set, rfl⟩ := ran
  refine ⟨status, rfl, ?_, Bitmap.used_setbitSafe set⟩
  unfold Bitmap.setbitSafe at set
  simp only [Except.bind_eq_ok_iff, Except.pure_eq_ok_iff] at set
  obtain ⟨_, -, rfl⟩ := set
  rfl

/-- All that one turn of the loop does. -/
theorem allocateMacroblock_done {dev dev' : BlockioDev} {tape rest : List ℕ}
    (ran : (allocateMacroblock dev).run tape = .done dev' rest) :
    ∃ no i j status, ∃ bound : no < dev.b.unallocated.length, dev.b.unallocated[no] = i ∧
      dev.j.addMacroblock (dev.b.infos.set i (prepareBlock (dev.b.infos i) dev.self)) i = .ok j ∧
      status.noBits = dev.status.noBits ∧ (∀ c, status.used c = (dev.status.used c || c == i)) ∧
      dev' = setAllocation dev j (dev.noMacroblocks + 1) status
        (dev.b.infos.set i (prepareBlock (dev.b.infos i) dev.self)) (dev.b.unallocated.eraseIdx no) := by
  unfold allocateMacroblock at ran
  obtain ⟨no, _, -, taking⟩ := Draw.bind_done_iff.mp ran
  cases found : dev.b.unallocated[no]? with
  | none =>
    rw [found] at taking
    cases taking
  | some i =>
    rw [found] at taking
    obtain ⟨j, _, adding, marking⟩ := Draw.bind_done_iff.mp taking
    obtain ⟨added, rfl⟩ := Draw.lift_done_iff.mp adding
    obtain ⟨marked, -⟩ := Draw.lift_done_iff.mp marking
    obtain ⟨status, rfl, size, used⟩ := changeMacroblockStatus_used marked
    obtain ⟨bound, taken⟩ := List.getElem?_eq_some_iff.mp found
    exact ⟨no, i, j, status, bound, taken, added, size, used, rfl⟩

/-- A macroblock that belonged to nobody becomes one of the partition. -/
theorem Known.allocate {dev dev' : BlockioDev} {tape rest : List ℕ} (known : Known p dev)
    (ran : (allocateMacroblock dev).run tape = .done dev' rest) :
    Known p dev' ∧ Grown dev dev' ∧ dev'.noMacroblocks = dev.noMacroblocks + 1 ∧ owned p dev ⊆ owned p dev' := by
  obtain ⟨no, i, j', status, bound, taken, added, size, used, rfl⟩ := allocateMacroblock_done ran
  obtain ⟨inside, free⟩ := (known.coherent.mem_iff i).mp (taken ▸ List.getElem_mem bound)
  have absent : i ∉ owned p dev := fun own => by
    rw [(mem_owned.mp own).2] at free
    cases free
  set infos' := dev.b.infos.set i (prepareBlock (dev.b.infos i) dev.self) with infosEq
  have own : infos' i = prepareBlock (dev.b.infos i) dev.self := BlockioInfos.set_same ..
  have other (c : ℕ) (different : c ≠ i) : infos' c = dev.b.infos c := BlockioInfos.set_of_ne _ _ different
  have ownedNow : owned p (setAllocation dev j' (dev.noMacroblocks + 1) status infos'
      (dev.b.unallocated.eraseIdx no)) = insert i (owned p dev) := by
    ext c
    rw [mem_owned, Finset.mem_insert, mem_owned]
    change c < p.b.totalMacroblocks ∧ (infos' c).dev = some dev.self ↔ _
    by_cases same : c = i
    · rw [same, own]
      simp [prepareBlock, inside]
    · rw [other c same]
      simp [same]
  obtain ⟨j'', added', settled, rfl⟩ := (known.settled.congr infos' fun c member => by
      rw [other c (ne_of_mem_of_not_mem member absent)]
      exact ⟨rfl, rfl⟩).add absent (by rw [own]; rfl) (by rw [own]; rfl)
  cases added'.symm.trans added
  have erased : dev.b.unallocated.eraseIdx no = dev.b.unallocated.erase i := by
    rw [← taken]
    exact (known.coherent.nodup.erase_getElem no bound).symm
  refine ⟨⟨?_, ?_, ?_, ?_, ?_, known.reserved_lt, known.replay, fun c current => ?_⟩, ⟨rfl, fun c => ?_, rfl, rfl⟩,
    rfl, ?_⟩
  · rw [ownedNow]
    exact settled
  · have taken : Coherent p { dev.b with infos := infos', unallocated := dev.b.unallocated.erase i } :=
      known.coherent.take (by simp [prepareBlock])
    change Coherent p { dev.b with infos := infos', unallocated := dev.b.unallocated.eraseIdx no }
    rw [erased]
    exact taken
  · exact size.trans known.noBits
  · intro c small
    rw [ownedNow, Finset.mem_insert]
    change status.used c = true ↔ _
    rw [used, Bool.or_eq_true, known.used c small, beq_iff_eq, or_comm]
  · rw [ownedNow, Finset.card_insert_of_notMem absent, ← known.noMacroblocks]
    rfl
  · obtain ⟨listed, seqno, small⟩ := known.current c current
    have different := ne_of_mem_of_not_mem (known.settled.mem_of_scheduled listed) absent
    change c ∈ dev.j.scheduled ∧ (infos' c).seqno = dev.j.seqno ∧ (infos' c).nextSeqno < 2 ^ 64
    rw [other c different]
    exact ⟨listed, seqno, small⟩
  · change infos' c = _ ∨ _
    by_cases same : c = i
    · rw [same]
      exact .inr ⟨free, own⟩
    · exact .inl (other c same)
  · rw [ownedNow]
    exact Finset.subset_insert _ _

/-- A partition on disk stays on disk. -/
theorem Alive.allocate {dev dev' : BlockioDev} {tape rest : List ℕ} (alive : Alive p dev)
    (ran : (allocateMacroblock dev).run tape = .done dev' rest) :
    Alive p dev' ∧ Grown dev dev' ∧ dev'.noMacroblocks = dev.noMacroblocks + 1 := by
  obtain ⟨known, grown, count, subset⟩ := alive.toKnown.allocate ran
  obtain ⟨j, infos, blocks, reserved, onDisk, behind, logged⟩ := alive.disk
  have rest := grown.rest
  refine ⟨⟨known, j, infos, blocks, reserved, ?_, ⟨behind.subset.trans subset, ?_, fun c elsewhere => ?_⟩, ?_⟩, grown,
    count⟩
  · rw [rest]; exact onDisk
  · rw [grown.seqno, rest]; exact behind.counter
  · have bi : dev'.bi = dev.bi := by rw [rest]; rfl
    obtain ⟨listed, numbers⟩ := behind.same c (bi ▸ elsewhere)
    rw [grown.scheduled]
    refine ⟨listed, fun member => ?_⟩
    rcases grown.infos c with same | ⟨free, -⟩
    · rw [same]
      exact numbers member
    · -- a scheduled block is not free
      have own := (mem_owned.mp (behind.subset (onDisk.mem_of_scheduled member))).2
      cases free.symm.trans own
  · rw [rest]; exact logged

/-- The loop of `blockio_dev_allocate_macroblocks`. -/
theorem Alive.allocateTurns {size : ℕ} {dev dev' : BlockioDev} {tape rest : List ℕ} (alive : Alive p dev)
    (ran : (allocateTurns size dev).run tape = .done dev' rest) :
    Alive p dev' ∧ Grown dev dev' ∧ dev'.noMacroblocks = dev.noMacroblocks + size := by
  induction size generalizing dev tape with
  | zero =>
    cases ran
    exact ⟨alive, .refl _, rfl⟩
  | succ size ih =>
    obtain ⟨next, _, first, others⟩ := Draw.bind_done_iff.mp ran
    obtain ⟨aliveNext, grown, count⟩ := alive.allocate first
    obtain ⟨aliveEnd, grownEnd, countEnd⟩ := ih aliveNext others
    exact ⟨aliveEnd, grown.trans grownEnd, by omega⟩

/-- The number of macroblocks that are kept back can be changed at any time. -/
theorem Known.reserve {dev : BlockioDev} (known : Known p dev) {reservedMacroblocks : ℕ}
    (small : reservedMacroblocks < 2 ^ 32) : Known p { dev with reservedMacroblocks } :=
  ⟨known.settled, known.coherent, known.noBits, known.used, known.noMacroblocks, small, known.replay, known.current⟩

theorem Alive.reserve {dev : BlockioDev} (alive : Alive p dev) {reservedMacroblocks : ℕ}
    (small : reservedMacroblocks < 2 ^ 32) : Alive p { dev with reservedMacroblocks } := by
  obtain ⟨j, infos, blocks, reserved, onDisk, behind, logged⟩ := alive.disk
  exact ⟨alive.toKnown.reserve small, j, infos, blocks, reserved, onDisk, ⟨behind.subset, behind.counter, behind.same⟩,
    logged⟩

end Scubed3.Blockio

namespace Scubed3.Control

open Blockio Scubed3.Partition

variable {p : Params}

theorem reinit_eq_ok_iff {l l' : Partition} : reinit p l = .ok l' ↔
    l.noBlockIndices ≤ usableMesoblks p l.dev.noMacroblocks l.dev.reservedMacroblocks ∧
      l' = { l with
        noBlockIndices := usableMesoblks p l.dev.noMacroblocks l.dev.reservedMacroblocks
        blockIndices := fun m => if l.noBlockIndices ≤ m ∧
          m < usableMesoblks p l.dev.noMacroblocks l.dev.reservedMacroblocks then noIndex
          else l.blockIndices m } := by
  unfold reinit
  dsimp only
  by_cases same : l.noBlockIndices = usableMesoblks p l.dev.noMacroblocks l.dev.reservedMacroblocks
  · rw [if_pos same, Except.pure_eq_ok_iff, eq_comm]
    have unchanged : (fun m => if l.noBlockIndices ≤ m ∧ m < l.noBlockIndices then noIndex else l.blockIndices m) =
        l.blockIndices := by
      funext m
      exact if_neg fun between => absurd between.2 (not_lt.mpr between.1)
    rw [← same, unchanged]
    simp
  · rw [if_neg same, Except.ite_throw_eq_ok_iff, not_lt, Except.pure_eq_ok_iff, eq_comm (b := l')]

/-- All that a resize does when it is answered. -/
theorem resize_done {fuel : ℕ} {entry entry' : Entry} {size reserved : ℤ} {reply : Reply} {tape rest : List ℕ}
    (ran : (resize p fuel entry size reserved).run tape = .done (reply, entry') rest) :
    (reply ≠ .ok ∧ entry' = entry) ∨ reply = .ok ∧ entry.inuse = false ∧ reserved ≤ size ∧
      entry.l.dev.noMacroblocks < size.toNat ∧ size.toNat ≤ p.b.totalMacroblocks ∧
      ∃ grown l dev mid mid', (allocateTurns (size.toNat - entry.l.dev.noMacroblocks) entry.l.dev).run tape =
          .done grown mid ∧
        reinit p { entry.l with dev := { grown with reservedMacroblocks := (reserved % 2 ^ 32).toNat } } = .ok l ∧
        (if l.dev.bi = none then selectNextMacroblock fuel l.dev else pure l.dev).run mid = .done dev mid' ∧
        entry'.l = { l with dev := { dev with updated := true } } ∧ entry'.inuse = false := by
  unfold resize at ran
  dsimp only at ran
  by_cases busy : entry.inuse = true
  · rw [if_pos busy] at ran
    cases ran
    exact .inl ⟨by simp, rfl⟩
  rw [if_neg busy] at ran
  by_cases nonsense : ¬ reserved ≤ size ∨ ¬ 0 ≤ size
  · rw [if_pos nonsense] at ran
    cases ran
    exact .inl ⟨by simp, rfl⟩
  rw [if_neg nonsense] at ran
  by_cases smaller : size.toNat < entry.l.dev.noMacroblocks
  · rw [if_pos smaller] at ran
    cases ran
    exact .inl ⟨by simp, rfl⟩
  rw [if_neg smaller] at ran
  by_cases large : size.toNat > p.b.totalMacroblocks
  · rw [if_pos large] at ran
    cases ran
    exact .inl ⟨by simp, rfl⟩
  rw [if_neg large] at ran
  by_cases nothing : size.toNat - entry.l.dev.noMacroblocks = 0
  · rw [if_pos nothing] at ran
    cases ran
    exact .inl ⟨by simp, rfl⟩
  rw [if_neg nothing] at ran
  obtain ⟨grown, _, allocating, growing⟩ := Draw.bind_done_iff.mp ran
  unfold allocateMacroblocks at allocating
  by_cases few : entry.l.dev.b.unallocated.length < size.toNat - entry.l.dev.noMacroblocks
  · rw [if_pos few] at allocating
    cases allocating
    cases growing
    exact .inl ⟨by simp, rfl⟩
  · rw [if_neg few] at allocating
    obtain ⟨dev, _, allocated, returned⟩ := Draw.bind_done_iff.mp allocating
    cases returned
    obtain ⟨l, _, started, selecting⟩ := Draw.bind_done_iff.mp growing
    obtain ⟨reinitialised, rfl⟩ := Draw.lift_done_iff.mp started
    obtain ⟨dev', mid', selected, answered⟩ := Draw.bind_done_iff.mp selecting
    cases answered
    refine .inr ⟨rfl, by simpa using busy, ?_, by omega, by omega, dev, l, dev', _, rest, allocated, reinitialised,
      selected, rfl, by simpa using busy⟩
    exact not_not.mp fun above => nonsense (.inl above)

/-- A resize keeps the partition alive. -/
theorem alive_of_resize {fuel : ℕ} {entry entry' : Entry} {size reserved : ℤ} {reply : Reply} {tape rest : List ℕ}
    (alive : Alive p entry.l.dev)
    (ran : (resize p fuel entry size reserved).run tape = .done (reply, entry') rest) : Alive p entry'.l.dev := by
  rcases resize_done ran with ⟨-, rfl⟩ | ⟨-, -, -, -, -, grown, l, dev, mid, mid', allocated, started, selected,
    same, -⟩
  · exact alive
  · obtain ⟨aliveGrown, -, -⟩ := alive.allocateTurns allocated
    have small : (reserved % 2 ^ 32).toNat < 2 ^ 32 := by omega
    obtain ⟨-, rfl⟩ := reinit_eq_ok_iff.mp started
    have aliveSized := aliveGrown.reserve small
    have aliveEnd : Alive p dev := by
      split at selected
      · exact aliveSized.select selected
      · cases selected
        exact aliveSized
    rw [same]
    exact aliveEnd.sameDevice (Moved.flags (p := p) { entry.l with dev } true false).toSameDevice

end Scubed3.Control
