import Scubed3.Device.Disk

/-! # Closing a partition and finding it again

`blockio_dev_free` leaves a device on which nobody holds the macroblocks of the partition. `Shut` says
that the picture of the last write is still there. Whoever opens the partition then finds exactly the
blocks of that picture, with their sequence numbers, and the juggler is restarted where it was.
-/

namespace Scubed3.Blockio

open Memory

variable (p : Params)

/-- The partition is closed, and its macroblocks are free. -/
structure Shut (b : Blockio) : Prop where
  coherent : Coherent p b
  disk : ∃ j infos blocks reserved, OnDisk p b.base j infos blocks reserved ∧
    (∀ c ∈ blocks, (b.infos c).dev = none) ∧ Logged p b.written j.seqno

/-- The device after `blockio_dev_free`, without the final write. -/
def freed (dev : BlockioDev) : Blockio :=
  { dev.b with
    infos := fun i =>
      if i < p.b.totalMacroblocks ∧ (dev.b.infos i).dev = some dev.self then
        { dev.b.infos i with dev := none }
      else dev.b.infos i
    unallocated := dev.b.unallocated ++ dev.j.scheduled ++ dev.j.unscheduled ++ dev.replay.reverse }

variable {p}

/-! ## Closing -/

theorem devFree_eq_ok_iff {dev : BlockioDev} {b : Blockio} : devFree p dev = .ok b ↔
    ∃ dev', (if dev.updated then writeCurrentMacroblock p dev = .ok dev' else dev' = dev) ∧ b = freed p dev' := by
  unfold devFree
  simp only [Except.bind_eq_ok_iff, Except.pure_eq_ok_iff, eq_comm (b := b)]
  refine exists_congr fun dev' => and_congr_left fun _ => ?_
  split
  · exact Iff.rfl
  · exact Except.pure_eq_ok_iff.trans eq_comm

/-- Who holds a macroblock afterwards. -/
theorem freed_dev (dev : BlockioDev) (c : ℕ) :
    ((freed p dev).infos c).dev = if c ∈ owned p dev then none else (dev.b.infos c).dev := by
  simp only [freed, mem_owned]
  split <;> rfl

/-- When the lists hold the macroblocks of the partition, all of them become free. -/
theorem freed_coherent {dev : BlockioDev} (coherent : Coherent p dev.b)
    (nodup : (dev.j.scheduled ++ dev.j.unscheduled ++ dev.replay.reverse).Nodup)
    (listed : ∀ c, c ∈ dev.j.scheduled ++ dev.j.unscheduled ++ dev.replay.reverse ↔ c ∈ owned p dev) :
    Coherent p (freed p dev) := by
  have unallocated : (freed p dev).unallocated =
      dev.b.unallocated ++ (dev.j.scheduled ++ dev.j.unscheduled ++ dev.replay.reverse) := by
    simp only [freed, List.append_assoc]
  refine ⟨?_, fun c => ?_⟩
  · rw [unallocated]
    refine List.nodup_append'.mpr ⟨coherent.nodup, nodup, fun c free member => ?_⟩
    have taken := (mem_owned.mp ((listed c).mp member)).2
    rw [((coherent.mem_iff c).mp free).2] at taken
    cases taken
  · rw [unallocated, List.mem_append, coherent.mem_iff, listed, freed_dev]
    by_cases own : c ∈ owned p dev
    · simp [own, (mem_owned.mp own).1]
    · simp [own]

theorem Alive.freed {dev : BlockioDev} (alive : Alive p dev) : Shut p (freed p dev) := by
  obtain ⟨j, infos, blocks, reserved, onDisk, behind, logged⟩ := alive.disk
  have settled := alive.settled
  refine ⟨freed_coherent alive.coherent ?_ ?_, j, infos, blocks, reserved, onDisk, fun c member => ?_, logged⟩
  · simpa [alive.replay] using settled.nodup
  · simpa [alive.replay] using settled.mem_iff
  · rw [freed_dev, if_pos (behind.subset member)]

/-- With or without a final write, an open partition is closed properly. -/
theorem Alive.free {dev : BlockioDev} {b : Blockio} (alive : Alive p dev) (ran : devFree p dev = .ok b) :
    Shut p b := by
  obtain ⟨dev', flushed, rfl⟩ := devFree_eq_ok_iff.mp ran
  cases updated : dev.updated with
  | false =>
    rw [updated, if_neg (by decide)] at flushed
    rw [flushed]
    exact alive.freed
  | true =>
    rw [updated, if_pos rfl] at flushed
    exact (alive.output flushed).freed

/-! ## What a scan finds -/

section Found

variable {b : Blockio} {addr reserved : ℕ} {dev : BlockioDev} {j : Juggler} {infos : BlockioInfos}
  {blocks : Finset ℕ}

/-- The headers of ours are those of the scheduled blocks. -/
theorem OnDisk.mem_ours (onDisk : OnDisk p b.base j infos blocks reserved)
    (untaken : ∀ c ∈ blocks, (b.infos c).dev = none) (c : ℕ) : c ∈ ours p b ↔ c ∈ j.scheduled := by
  rw [Blockio.mem_ours]
  constructor
  · rintro ⟨bound, -, isOurs⟩
    by_contra unlisted
    rw [onDisk.foreign c bound unlisted] at isOurs
    cases isOurs
  · intro member
    have inBlocks := onDisk.mem_of_scheduled member
    exact ⟨onDisk.bounded c inBlocks, untaken c inBlocks, (onDisk.carried c member).1⟩

/-- Some block was written last. -/
theorem OnDisk.exists_top {base : Bytes} (onDisk : OnDisk p base j infos blocks reserved) (nonempty : j.scheduled ≠ []) :
    ∃ top ∈ j.scheduled, (infos top).seqno = j.seqno := by
  obtain ⟨first, member⟩ := List.exists_mem_of_ne_nil _ nonempty
  refine onDisk.top.resolve_left fun zero => ?_
  have used := (onDisk.used first member).1
  have latest := onDisk.latest first member
  omega

/-- What is known after the scan is what the last written index block says. -/
theorem Inventory.described (inventory : Inventory p b addr dev)
    (onDisk : OnDisk p b.base j infos blocks reserved) (untaken : ∀ c ∈ blocks, (b.infos c).dev = none)
    (nonempty : j.scheduled ≠ []) :
    (∀ i < p.b.maxMacroblocks, (dev.status.used i = true ↔ i ∈ blocks)) ∧ dev.noMacroblocks = blocks.card ∧
      dev.reservedMacroblocks = reserved ∧ dev.seqnosHash = j.hashScheduledSeqnos p.hash infos := by
  obtain ⟨top, member, last⟩ := onDisk.exists_top nonempty
  have upper : ∀ c ∈ ours p b, (record p b.base c).seqno ≤ (record p b.base top).seqno := by
    intro c inOurs
    have listed := (onDisk.mem_ours untaken c).mp inOurs
    rw [(onDisk.carried c listed).2.2.1, (onDisk.carried top member).2.2.1, last]
    exact onDisk.latest c listed
  have summarized := inventory.summary top ((onDisk.mem_ours untaken top).mpr member) upper
  have described := onDisk.described top member last
  refine ⟨?_, summarized.noMacroblocks.trans described.noMacroblocks,
    summarized.reservedMacroblocks.trans described.reservedMacroblocks,
    summarized.seqnosHash.trans described.seqnosHash⟩
  rw [summarized.status]
  exact described.used

/-- The blocks that were never written are found by their mark. -/
theorem Inventory.mem_unscheduled (inventory : Inventory p b addr dev)
    (onDisk : OnDisk p b.base j infos blocks reserved) (untaken : ∀ c ∈ blocks, (b.infos c).dev = none) (c : ℕ) :
    c ∈ dev.j.unscheduled ↔ c ∈ blocks ∧ c ∉ j.scheduled := by
  by_cases empty : j.scheduled = []
  · have none : ours p b = ∅ := by
      ext c
      rw [onDisk.mem_ours untaken, empty]
      simp
    rw [(inventory.empty none).2.2.1, onDisk.start empty]
    simp [Juggler.init]
  · obtain ⟨used, -⟩ := inventory.described onDisk untaken empty
    obtain ⟨first, listed⟩ := List.exists_mem_of_ne_nil _ empty
    have nonempty : (ours p b).Nonempty := ⟨first, (onDisk.mem_ours untaken first).mpr listed⟩
    constructor
    · intro member
      obtain ⟨-, free, notOurs⟩ := inventory.claimed c member
      obtain ⟨bound, marked⟩ := (inventory.marked nonempty c notOurs free).mp member
      exact ⟨(used c bound).mp marked, fun scheduled => notOurs ((onDisk.mem_ours untaken c).mpr scheduled)⟩
    · rintro ⟨member, unlisted⟩
      have bound := (onDisk.bounded c member).trans_le p.sound.total_le
      exact (inventory.marked nonempty c (fun isOurs => unlisted ((onDisk.mem_ours untaken c).mp isOurs))
        (untaken c member)).mpr ⟨bound, (used c bound).mpr member⟩

/-- The macroblocks of the partition are found again. -/
theorem Inventory.owned_eq (inventory : Inventory p b addr dev)
    (onDisk : OnDisk p b.base j infos blocks reserved) (untaken : ∀ c ∈ blocks, (b.infos c).dev = none)
    (fresh : ∀ c, (b.infos c).dev ≠ some addr) : owned p dev = blocks := by
  ext c
  rw [mem_owned, inventory.owner]
  by_cases isOurs : c ∈ ours p b
  · have inBlocks := onDisk.mem_of_scheduled ((onDisk.mem_ours untaken c).mp isOurs)
    rw [inventory.info_ours c isOurs]
    simp [inBlocks, onDisk.bounded c inBlocks]
  · by_cases claimed : c ∈ dev.j.unscheduled
    · have inBlocks := ((inventory.mem_unscheduled onDisk untaken c).mp claimed).1
      rw [inventory.info_claimed c claimed]
      simp [prepareBlock, inBlocks, onDisk.bounded c inBlocks]
    · rw [inventory.info_other c isOurs claimed]
      refine iff_of_false (fun taken => fresh c taken.2) fun inBlocks => ?_
      refine claimed ((inventory.mem_unscheduled onDisk untaken c).mpr ⟨inBlocks, fun scheduled => ?_⟩)
      exact isOurs ((onDisk.mem_ours untaken c).mpr scheduled)

/-- They carry the numbers of the last write. -/
theorem Inventory.numbers (inventory : Inventory p b addr dev)
    (onDisk : OnDisk p b.base j infos blocks reserved) (untaken : ∀ c ∈ blocks, (b.infos c).dev = none) :
    ∀ c ∈ blocks, (dev.b.infos c).seqno = (infos c).seqno ∧ (dev.b.infos c).nextSeqno = (infos c).nextSeqno := by
  intro c member
  by_cases scheduled : c ∈ j.scheduled
  · rw [inventory.info_ours c ((onDisk.mem_ours untaken c).mpr scheduled)]
    exact (onDisk.carried c scheduled).2.2
  · rw [inventory.info_claimed c ((inventory.mem_unscheduled onDisk untaken c).mpr ⟨member, scheduled⟩)]
    have unscheduled := (List.mem_append.mp ((onDisk.mem_iff c).mpr member)).resolve_left scheduled
    exact ⟨(onDisk.fresh c unscheduled).1.symm, (onDisk.fresh c unscheduled).2.symm⟩

/-- Adding the found blocks restarts the juggler where it was. -/
theorem Inventory.rebuild (inventory : Inventory p b addr dev)
    (onDisk : OnDisk p b.base j infos blocks reserved) (untaken : ∀ c ∈ blocks, (b.infos c).dev = none)
    (infos' : BlockioInfos) (same : ∀ c, (infos' c).seqno = (dev.b.infos c).seqno ∧
      (infos' c).nextSeqno = (dev.b.infos c).nextSeqno) :
    ∃ j', dev.replay.reverse.foldlM (fun j bi => j.addMacroblock infos' bi) dev.j = .ok j' ∧
      Juggler.Settled j' infos' blocks ∧ j'.scheduled = j.scheduled ∧ j'.seqno = j.seqno := by
  have settled : Juggler.Settled j infos' blocks := onDisk.toSettled.congr _ fun c member => by
    rw [(same c).1, (same c).2]
    exact inventory.numbers onDisk untaken c member
  have memReplay (c : ℕ) : c ∈ dev.replay ↔ c ∈ j.scheduled := by
    rw [inventory.mem_replay, onDisk.mem_ours untaken]
  have nodup : dev.replay.Nodup :=
    inventory.sorted.imp fun below equal => by rw [equal] at below; exact lt_irrefl _ below
  have lists : Juggler.Lists dev.j infos' dev.j.unscheduled.toFinset :=
    inventory.lists.congr _ (by simp [inventory.unscheduled_only.1])
  obtain ⟨j', added, listsAfter, mem, -, upper, attained⟩ := lists.addAll (List.nodup_reverse.mpr nodup)
    (fun c member inside => by
      have scheduled := (memReplay c).mp (List.mem_reverse.mp member)
      exact ((inventory.mem_unscheduled onDisk untaken c).mp (List.mem_toFinset.mp inside)).2 scheduled)
    (fun c member => .inr (settled.used c ((memReplay c).mp (List.mem_reverse.mp member))).2)
    (fun c member _ d member' different => by
      rw [inventory.unscheduled_only.1, List.append_nil, List.mem_reverse, memReplay] at member'
      exact settled.sorted.key_ne member' ((memReplay c).mp (List.mem_reverse.mp member)) different)
  have union : dev.j.unscheduled.toFinset ∪ dev.replay.reverse.toFinset = blocks := by
    ext c
    rw [Finset.mem_union, List.mem_toFinset, List.mem_toFinset, List.mem_reverse, memReplay,
      inventory.mem_unscheduled onDisk untaken]
    constructor
    · rintro (⟨member, -⟩ | scheduled)
      · exact member
      · exact settled.mem_of_scheduled scheduled
    · intro member
      by_cases scheduled : c ∈ j.scheduled
      · exact .inr scheduled
      · exact .inl ⟨member, scheduled⟩
  rw [union] at listsAfter
  have members (c : ℕ) : c ∈ j'.scheduled ↔ c ∈ j.scheduled := by
    rw [mem, inventory.unscheduled_only.1, List.mem_reverse, memReplay]
    simp only [List.not_mem_nil, false_or]
    exact and_iff_left_of_imp fun scheduled => (settled.used c scheduled).2
  have seqno : j'.seqno = j.seqno := by
    refine le_antisymm ?_ ?_
    · rcases attained with start | ⟨c, member, -, last⟩
      · rw [start, inventory.unscheduled_only.2]
        exact Nat.zero_le _
      · rw [← last]
        exact settled.latest c ((memReplay c).mp (List.mem_reverse.mp member))
    · rcases settled.top with zero | ⟨top, scheduled, last⟩
      · rw [zero]
        exact Nat.zero_le _
      · rw [← last]
        exact upper top (List.mem_reverse.mpr ((memReplay top).mpr scheduled)) (settled.used top scheduled).2
  obtain ⟨settled', scheduled, -⟩ := settled.of_lists listsAfter members seqno
  exact ⟨j', added, settled', scheduled, seqno⟩

end Found

end Scubed3.Blockio
