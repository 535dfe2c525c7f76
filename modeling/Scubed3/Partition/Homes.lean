import Scubed3.Device.Ledger
import Scubed3.Partition.Neighbours

/-! # Where a partition reads

Every mesoblock that was written is in a macroblock of the partition, so a read goes there and nowhere else. A step of
a partition only changes macroblocks that it holds, or that belonged to nobody. So what a partition reads stays the
same, whatever the others do.
-/

namespace Scubed3.Blockio

open List Memory

/-- Other macroblocks than `mine` stay what they are. -/
structure Spares (p : Params) (mine : List ℕ) (b b' : Blockio) : Prop where
  seqno : ∀ c ∉ mine, (b'.infos c).seqno = (b.infos c).seqno
  macroblock : ∀ c ∉ mine, slice b'.base (c * p.macroblockSize) p.macroblockSize =
    slice b.base (c * p.macroblockSize) p.macroblockSize

variable {p : Params} {mine : List ℕ} {dev dev' : BlockioDev} {b b' b'' : Blockio}

theorem Writes.mem_held (writes : Writes p mine dev dev') (holds : Holds p mine dev) {c : ℕ} :
    c ∈ held dev' ↔ c ∈ held dev := by
  rw [writes.holds.own, holds.own, writes.owners, writes.self]

namespace Spares

theorem refl (b : Blockio) : Spares p mine b b := ⟨fun _ _ => rfl, fun _ _ => rfl⟩

theorem trans (first : Spares p mine b b') (second : Spares p mine b' b'') : Spares p mine b b'' :=
  ⟨fun c other => (second.seqno c other).trans (first.seqno c other),
    fun c other => (second.macroblock c other).trans (first.macroblock c other)⟩

/-- Nothing is written. -/
theorem of_base (base : b'.base = b.base) (seqno : ∀ c ∉ mine, (b'.infos c).seqno = (b.infos c).seqno) :
    Spares p mine b b' := ⟨seqno, fun c _ => by rw [base]⟩

variable {fuel : ℕ} {tape rest : List ℕ} (holds : Holds p mine dev)

section
include holds

theorem ne {c i : ℕ} (other : c ∉ mine) (listed : i ∈ dev.b.unallocated ∨ i ∈ held dev) : c ≠ i := by
  rintro rfl
  exact other (holds.mem_mine.mpr listed)

theorem select (ran : (selectNextMacroblock fuel dev).run tape = .done dev' rest) : Spares p mine dev.b dev'.b := by
  have writes := holds.select ran
  obtain ⟨-, id, j, infos, handout, -, -, rfl⟩ := selectNext_done ran
  refine .of_base rfl fun c other => ?_
  obtain ⟨t, -, rfl⟩ := handout.infos_eq
  have listed := (writes.mem_held holds).mp (mem_append_left _ (mem_append_left _ handout.listed))
  exact congrArg BlockioInfo.seqno (BlockioInfos.set_of_ne _ _ (ne holds other (.inr listed)))

theorem output (ran : writeCurrentMacroblock p dev = .ok dev') : Spares p mine dev.b dev'.b := by
  obtain ⟨id, current, -, -, -, rfl⟩ := (writeCurrentMacroblock_eq_ok_iff p).mp ran
  refine ⟨fun c _ => (afterWrite_infos dev id c).1, fun c other => ?_⟩
  have different := ne holds other (.inr (holds.current id current))
  exact slice_blit_other (n := p.macroblockSize) id dev.b.base _ 0 different (Nat.zero_add _).le

theorem allocate (ran : (allocateMacroblock dev).run tape = .done dev' rest) :
    Spares p mine dev.b dev'.b ∧ ∀ c ∈ held dev, c ∈ held dev' := by
  obtain ⟨no, i, j, status, bound, taken, added, -, -, rfl⟩ := allocateMacroblock_done ran
  refine ⟨.of_base rfl fun c other => ?_, fun c listed => ?_⟩
  · exact congrArg BlockioInfo.seqno (BlockioInfos.set_of_ne _ _ (ne holds other (.inl (taken ▸ getElem_mem bound))))
  · exact ((addMacroblock_perm added).append_right _).mem_iff.mpr (mem_cons_of_mem _ listed)

end

theorem allocateTurns {size : ℕ} (holds : Holds p mine dev) (nodup : mine.Nodup)
    (ran : (allocateTurns size dev).run tape = .done dev' rest) :
    Spares p mine dev.b dev'.b ∧ ∀ c ∈ held dev, c ∈ held dev' := by
  induction size generalizing dev tape with
  | zero =>
    cases ran
    exact ⟨.refl _, fun _ => id⟩
  | succ size ih =>
    obtain ⟨next, _, first, others⟩ := Draw.bind_done_iff.mp ran
    obtain ⟨spares, kept⟩ := allocate holds first
    obtain ⟨sparesEnd, keptEnd⟩ := ih (holds.allocate nodup first).1.holds others
    exact ⟨spares.trans sparesEnd, fun c listed => keptEnd c (kept c listed)⟩

/-- The scan only takes what belongs to nobody. -/
theorem devInit {addr : ℕ} (coherent : Coherent p b) (ran : devInit p b addr = .ok dev) :
    Spares p b.unallocated b dev.b := by
  have inventory := (devInit_yields b addr).value dev ran
  refine .of_base inventory.base fun c other => ?_
  have untaken : ¬ (c ∈ ours p b ∨ c ∈ dev.j.unscheduled) := fun taken =>
    other ((coherent.mem_iff c).mpr (inventory.free taken))
  rw [not_or] at untaken
  rw [inventory.info_other c untaken.1 untaken.2]

theorem freed (dev : BlockioDev) : Spares p mine dev.b (freed p dev) := by
  refine .of_base rfl fun c _ => ?_
  unfold Blockio.freed
  dsimp only
  split <;> rfl

end Spares

end Scubed3.Blockio

namespace Scubed3.Partition

open List Blockio Memory

/-- Every mesoblock that was written is in a macroblock of the partition. -/
def Homed (p : Params) (l : Partition) : Prop := ∀ m c, Mapped p l m c → c ∈ held l.dev

variable {p : Params} {mine : List ℕ} {l l' : Partition} {b' : Blockio} {fuel : ℕ}

/-! ## Reading -/

section Reading

variable (homed : Homed p l) (spares : Spares p mine l.dev.b b') (apart : ∀ c ∈ held l.dev, c ∉ mine)

include spares in
theorem readMesoblkPart_beside {id no : ℕ} (other : id ∉ mine) :
    readMesoblkPart p (beside l b').dev id no = readMesoblkPart p l.dev id no := by
  unfold readMesoblkPart
  by_cases inside : id < p.b.totalMacroblocks ∧ no < p.b.mmpm
  · rw [check_of _ _ inside]
    have block : slice b'.base (id * p.macroblockSize + (no + 1) * p.mesoblkSize) p.mesoblkSize =
        slice l.dev.b.base (id * p.macroblockSize + (no + 1) * p.mesoblkSize) p.mesoblkSize :=
      slice_within (spares.macroblock id other) (macroblock_bound inside.2)
    unfold readMesoblk
    rw [show (beside l b').dev.b = b' from rfl, spares.seqno id other, block]
  · unfold check
    rw [if_neg inside]
    rfl

include homed spares apart

theorem doRead_beside (mesoff muoff size : ℕ) (out : Bytes) (ooff : ℕ) :
    doRead p (beside l b') mesoff muoff size out ooff = doRead p l mesoff muoff size out ooff := by
  unfold doRead
  change (if l.dev.bi = some (indexId p (l.blockIndices mesoff)) then _ else
    if l.blockIndices mesoff = noIndex then _ else _) = _
  by_cases current : l.dev.bi = some (indexId p (l.blockIndices mesoff))
  · rw [if_pos current, if_pos current]
    rfl
  by_cases never : l.blockIndices mesoff = noIndex
  · rw [if_neg current, if_neg current, if_pos never, if_pos never]
  · have other : indexId p (l.blockIndices mesoff) ∉ mine := apart _ (homed mesoff _ ⟨never, rfl⟩)
    rw [if_neg current, if_neg current, if_neg never, if_neg never]
    exact congrArg (· >>= _) (readMesoblkPart_beside spares other)

/-- Whatever is read. -/
theorem reqRead_beside (rOffset size : ℕ) (buf : Bytes) :
    reqRead p (beside l b') rOffset size buf = reqRead p l rOffset size buf := by
  unfold reqRead
  simp only [doRead_beside homed spares apart]
  rfl

end Reading

/-! ## Steps -/

/-- A step of a partition spares the others. -/
theorem Step.spares (holds : Holds p mine l.dev) (step : Step p fuel l l') : Spares p mine l.dev.b l'.dev.b := by
  cases step with
  | moved moved =>
    refine .of_base ?_ fun c _ => (moved.infos c).1
    rw [moved.rest]
    rfl
  | output ran => exact .output holds ran
  | select ran => exact .select holds ran

theorem Homed.congr (homed : Homed p l) (blockIndices : l'.blockIndices = l.blockIndices)
    (lists : ∀ c ∈ held l.dev, c ∈ held l'.dev) : Homed p l' := fun m c mapped => by
  unfold Mapped at mapped
  rw [blockIndices] at mapped
  exact lists c (homed m c mapped)

section Steps

variable (few : p.b.totalMacroblocks ≤ 2 ^ (32 - p.b.mesobits)) (inside : ∀ c ∈ mine, c < p.b.totalMacroblocks)
  (nodup : mine.Nodup)

include few inside in
theorem Homed.moved (homed : Homed p l) (holds : Holds p mine l.dev) (moved : Moved p l l') : Homed p l' := by
  have lists : held l'.dev = held l.dev := by
    rw [moved.rest]
    rfl
  intro m c mapped
  rw [lists]
  unfold Mapped at mapped
  rcases moved.relocated m with same | ⟨id, k, current, room, placed⟩
  · rw [same] at mapped
    exact homed m c mapped
  · have listed := holds.current id current
    have addressable : Addressable p id := (inside id (holds.mem_mine.mpr (.inr listed))).trans_le few
    rw [placed, addressable.indexId room] at mapped
    exact mapped.2 ▸ listed

include inside nodup

theorem path_spares (holds : Holds p mine l.dev) (path : Path p fuel l l') : Spares p mine l.dev.b l'.dev.b := by
  induction path with
  | refl => exact .refl _
  | tail before step ih => exact ih.trans (step.spares (holds.path nodup inside before).holds)

include few

theorem Homed.path (homed : Homed p l) (holds : Holds p mine l.dev) (path : Path p fuel l l') : Homed p l' := by
  induction path with
  | refl => exact homed
  | tail before step ih =>
    have holds' := (holds.path nodup inside before).holds
    cases step with
    | moved moved => exact ih.moved few inside holds' moved
    | output ran => exact ih.congr rfl fun c => ((holds'.output nodup inside ran).mem_held holds').mpr
    | select ran => exact ih.congr rfl fun c => ((holds'.select ran).mem_held holds').mpr

end Steps

/-! ## Resizing -/

theorem resize_homed {entry entry' : Entry} {size reserved : ℤ} {reply : Reply} {tape rest : List ℕ}
    (holds : Holds p mine entry.l.dev) (nodup : mine.Nodup)
    (ran : (Control.resize p fuel entry size reserved).run tape = .done (reply, entry') rest) :
    Spares p mine entry.l.dev.b entry'.l.dev.b ∧ (Homed p entry.l → Homed p entry'.l) := by
  rcases Control.resize_done ran with ⟨-, rfl⟩ | ⟨-, -, -, -, -, grown, l, dev, mid, mid', allocated, started,
    selected, same, -⟩
  · exact ⟨.refl _, id⟩
  obtain ⟨spares, kept⟩ := Spares.allocateTurns holds nodup allocated
  have holds' := (holds.allocateTurns nodup allocated).1.holds
  obtain ⟨-, rfl⟩ := Control.reinit_eq_ok_iff.mp started
  have sized : Holds p mine { grown with reservedMacroblocks := (reserved % 2 ^ 32).toNat } :=
    holds'.congr rfl rfl (.refl _) (fun _ => rfl) rfl rfl holds'.current
  have chosen : Spares p mine grown.b dev.b ∧ ∀ c ∈ held grown, c ∈ held dev := by
    split at selected
    · have spared := Spares.select sized selected
      exact ⟨⟨spared.seqno, spared.macroblock⟩, fun c => ((sized.select selected).mem_held sized).mpr⟩
    · cases selected
      exact ⟨.refl _, fun _ => id⟩
  rw [same]
  refine ⟨spares.trans chosen.1, fun homed m c mapped => chosen.2 c (kept c (homed m c ?_))⟩
  -- a new mesoblock was never written
  unfold Mapped at mapped
  dsimp only at mapped
  split at mapped
  · cases mapped.1 rfl
  · exact mapped

/-! ## Opening -/

/-- While macroblocks are replayed, every mesoblock is in one of them. -/
structure Found (p : Params) (dev : BlockioDev) (l : Partition) : Prop where
  fewer : ∀ c, (l.dev.b.infos c).noIndices ≤ (dev.b.infos c).noIndices
  home : ∀ m, l.blockIndices m = noIndex ∨ ∃ c ∈ dev.replay, ∃ k < p.b.mmpm, l.blockIndices m = blockIndex p c k

theorem Found.obsolete {dev : BlockioDev} (found : Found p dev l) (index : ℕ) :
    (obsoleteMesoblkByidx p l index).Yields (Found p dev) := by
  unfold obsoleteMesoblkByidx
  split
  · refine .yields fun l' ran => ?_
    obtain ⟨-, rfl⟩ := obsoleteMesoblk_eq_ok_iff.mp ran
    refine ⟨fun c => ?_, found.home⟩
    change ((l.dev.b.infos.set _ (obsoleted _)) c).noIndices ≤ _
    unfold BlockioInfos.set
    split
    · next same =>
      refine le_trans ?_ (found.fewer c)
      rw [same]
      unfold obsoleted
      dsimp only
      split
      · exact Nat.zero_le _
      · exact le_rfl
    · exact found.fewer c
  · exact .pure found

theorem Found.replay {dev : BlockioDev} (capacity : ∀ c ∈ dev.replay, (dev.b.infos c).noIndices ≤ p.b.mmpm)
    (found : Found p dev l) {bi : ℕ} (listed : bi ∈ dev.replay) : (replay p l bi).Yields (Found p dev) := by
  refine .foldlM (I := fun _ (l' : Partition) => Found p dev l') found fun _ k _ l' whole found' => ?_
  have room : k < p.b.mmpm := (List.mem_range.mp (by rw [whole]; simp)).trans_le ((found.fewer bi).trans (capacity bi listed))
  unfold replayMesoblk
  dsimp only
  split
  · exact .pure found'
  · refine .bind (m := fun _ => True) (.yields fun _ _ => trivial) fun _ _ => ?_
    refine .bind (found'.obsolete _) fun l'' found'' => .pure ⟨found''.fewer, fun m => ?_⟩
    by_cases same : m = (l'.dev.b.infos bi).indices k
    · exact .inr ⟨bi, listed, k, room, by rw [same]; exact Function.update_self ..⟩
    · rw [show (updateBlockIndices p l'' ((l'.dev.b.infos bi).indices k) bi k).blockIndices m = l''.blockIndices m from
        Function.update_of_ne same ..]
      exact found''.home m

/-- A partition that was set up reads where it may. -/
theorem Homed.init {dev : BlockioDev} {missing : Bool} (few : p.b.totalMacroblocks ≤ 2 ^ (32 - p.b.mesobits))
    (inside : ∀ c ∈ mine, c < p.b.totalMacroblocks) (holds : Holds p mine dev)
    (capacity : ∀ c ∈ dev.replay, (dev.b.infos c).noIndices ≤ p.b.mmpm)
    (ran : Partition.init p dev = .ok (l, missing)) : Homed p l := by
  have writes := (holds.init ran).1
  have home : ∀ m, l.blockIndices m = noIndex ∨ ∃ c ∈ dev.replay, ∃ k < p.b.mmpm, l.blockIndices m = blockIndex p c k := by
    have started := init_eq_ok_iff.mp ran
    split at started
    · cases started
      exact fun _ => .inl rfl
    · obtain ⟨replayed, replaying, j, -, same⟩ := started
      cases same
      have found : (dev.replay.foldlM (replay p) (blank p dev)).Yields (Found p dev) := by
        refine .foldlM (I := fun _ (l' : Partition) => Found p dev l') ⟨fun _ => le_rfl, fun _ => .inl rfl⟩ ?_
        exact fun _ bi _ _ whole found => found.replay capacity (by rw [whole]; simp)
      exact (found.value replayed replaying).home
  intro m c mapped
  refine (writes.mem_held holds).mpr ?_
  rcases home m with never | ⟨id, listed, k, room, placed⟩
  · cases mapped.1 never
  have member : id ∈ held dev := mem_append_right _ listed
  have addressable : Addressable p id := (inside id (holds.mem_mine.mpr (.inr member))).trans_le few
  have same := mapped.2
  rw [placed, addressable.indexId room] at same
  exact same ▸ member

end Scubed3.Partition
