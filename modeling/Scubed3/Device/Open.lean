import Scubed3.Device.Shut
import Scubed3.Opening.Replay
import Scubed3.Model.Control

/-! # Opening a partition

An open that succeeds on a shut device finds its blocks, restarts the juggler where it was and gives
no warning; one that is refused leaves the device shut.
-/

namespace Scubed3.Control

open Blockio Scubed3.Partition

variable {p : Params}

/-! ## All that opening does -/

/-- How an open ends well. -/
theorem openCreateCommon_opened {fuel addr : ℕ} {b : Blockio} {add missing : Bool} {entry : Entry}
    {tape rest : List ℕ}
    (ran : (openCreateCommon p fuel b addr add).run tape = .done (.opened entry missing) rest) :
    ∃ dev l, devInit p b addr = .ok dev ∧ (add = true ↔ dev.noMacroblocks = 0) ∧
      Partition.init p dev = .ok (l, missing) ∧ l.dev.bi = none ∧
      entry.size = (if dev.noMacroblocks > dev.reservedMacroblocks then
        entrySize p dev.noMacroblocks dev.reservedMacroblocks else 0) ∧ entry.inuse = false ∧
      entry.l = { l with dev := entry.l.dev } ∧
      if entry.size > 0 then (selectNextMacroblock fuel l.dev).run tape = .done entry.l.dev rest
      else entry.l.dev = l.dev := by
  unfold openCreateCommon at ran
  obtain ⟨dev, mid, scanned, body⟩ := Draw.bind_done_iff.mp ran
  obtain ⟨found, rfl⟩ := Draw.lift_done_iff.mp scanned
  refine ⟨dev, ?_⟩
  split at body
  · obtain ⟨_, _, _, answered⟩ := Draw.bind_done_iff.mp body
    cases answered
  · next notExisting =>
    split at body
    · obtain ⟨_, _, _, answered⟩ := Draw.bind_done_iff.mp body
      cases answered
    · next notMissing =>
      obtain ⟨⟨l, warned⟩, _, started, checking⟩ := Draw.bind_done_iff.mp body
      obtain ⟨initialised, rfl⟩ := Draw.lift_done_iff.mp started
      obtain ⟨_, _, checked, selecting⟩ := Draw.bind_done_iff.mp checking
      obtain ⟨idle, rfl⟩ := Draw.lift_done_iff.mp checked
      obtain ⟨dev', _, selected, answered⟩ := Draw.bind_done_iff.mp selecting
      cases answered
      refine ⟨l, found, ?_, initialised, check_eq_ok_iff.mp idle, rfl, rfl, rfl, ?_⟩
      · cases add <;> simp_all
      · dsimp only
        generalize (if dev.noMacroblocks > dev.reservedMacroblocks then
          entrySize p dev.noMacroblocks dev.reservedMacroblocks else 0) = size at selected ⊢
        split at selected
        · next positive => rwa [if_pos positive]
        · next zero =>
          cases selected
          rw [if_neg zero]

/-- How an open of a partition that can store something goes well. -/
theorem openCreateCommon_run {fuel addr : ℕ} {b : Blockio} {dev dev' : BlockioDev} {l : Partition} {missing : Bool}
    {tape rest : List ℕ} (found : devInit p b addr = .ok dev) (room : dev.reservedMacroblocks < dev.noMacroblocks)
    (started : Partition.init p dev = .ok (l, missing)) (idle : l.dev.bi = none)
    (size : 0 < entrySize p dev.noMacroblocks dev.reservedMacroblocks)
    (selected : (selectNextMacroblock fuel l.dev).run tape = .done dev' rest) :
    (openCreateCommon p fuel b addr false).run tape = .done (.opened
      { size := entrySize p dev.noMacroblocks dev.reservedMacroblocks, l := { l with dev := dev' } } missing) rest := by
  have existing : (dev.noMacroblocks == 0) = false := beq_false_of_ne (Nat.ne_zero_of_lt room)
  unfold openCreateCommon
  refine Draw.bind_done_iff.mpr ⟨dev, tape, Draw.lift_done_iff.mpr ⟨found, rfl⟩, ?_⟩
  simp only [Bool.false_and, Bool.false_eq_true, if_false, Bool.not_false, Bool.true_and, existing, if_pos room]
  refine Draw.bind_done_iff.mpr ⟨(l, missing), tape, Draw.lift_done_iff.mpr ⟨started, rfl⟩, ?_⟩
  refine Draw.bind_done_iff.mpr ⟨(), tape, Draw.lift_done_iff.mpr ⟨check_of _ _ idle, rfl⟩, ?_⟩
  refine Draw.bind_done_iff.mpr ⟨dev', rest, ?_, rfl⟩
  rw [if_pos size]
  exact selected

/-- How an open is refused. -/
theorem openCreateCommon_refused {fuel addr : ℕ} {b b' : Blockio} {add : Bool} {message : String}
    {tape rest : List ℕ}
    (ran : (openCreateCommon p fuel b addr add).run tape = .done (.refused message b') rest) :
    ∃ dev, devInit p b addr = .ok dev ∧ devFree p dev = .ok b' := by
  unfold openCreateCommon at ran
  obtain ⟨dev, mid, scanned, body⟩ := Draw.bind_done_iff.mp ran
  obtain ⟨found, rfl⟩ := Draw.lift_done_iff.mp scanned
  refine ⟨dev, found, ?_⟩
  split at body
  · obtain ⟨_, mid', freed, answered⟩ := Draw.bind_done_iff.mp body
    cases answered
    exact (Draw.lift_done_iff.mp freed).1
  · split at body
    · obtain ⟨_, mid', freed, answered⟩ := Draw.bind_done_iff.mp body
      cases answered
      exact (Draw.lift_done_iff.mp freed).1
    · obtain ⟨⟨l, warned⟩, _, _, checking⟩ := Draw.bind_done_iff.mp body
      obtain ⟨_, _, _, selecting⟩ := Draw.bind_done_iff.mp checking
      obtain ⟨dev', _, _, answered⟩ := Draw.bind_done_iff.mp selecting
      cases answered

/-- How a close is answered OK. -/
theorem close_eq_ok_iff {entry : Entry} {b : Blockio} :
    close p entry = .ok (.ok, b) ↔ entry.inuse = false ∧ devFree p entry.l.dev = .ok b := by
  unfold close
  cases entry.inuse with
  | false =>
    refine Except.bind_eq_ok_iff.trans ?_
    simp only [Except.pure_eq_ok_iff, Prod.mk.injEq, true_and, exists_eq_right]
  | true =>
    refine iff_of_false (fun ran => ?_) (by simp)
    cases ran

/-! ## On a shut device -/

section Found

variable {b : Blockio} {addr reserved : ℕ} {dev : BlockioDev} {j : Juggler} {infos : BlockioInfos}
  {blocks : Finset ℕ}

/-- An empty device: a partition without macroblocks. -/
theorem known_of_empty (inventory : Inventory p b addr dev) (coherent : Coherent p b)
    (onDisk : OnDisk p b.base j infos blocks reserved) (untaken : ∀ c ∈ blocks, (b.infos c).dev = none)
    (fresh : ∀ c, (b.infos c).dev ≠ some addr) (empty : j.scheduled = []) : Known p dev := by
  have none : ours p b = ∅ := by
    ext c
    rw [onDisk.mem_ours untaken, empty]
    simp
  obtain ⟨count, reservedZero, juggler, status⟩ := inventory.empty none
  have owned : owned p dev = ∅ := (inventory.owned_eq onDisk untaken fresh).trans (onDisk.start empty)
  refine ⟨?_, inventory.coherent coherent, inventory.noBits, fun i _ => ?_, ?_, ?_, ?_, fun c found => ?_⟩
  · rw [juggler, owned]
    exact .init _
  · rw [status, owned]
    simp [Bitmap.init, Bitmap.used]
  · rw [count, owned, Finset.card_empty]
  · rw [reservedZero]
    decide
  · refine List.eq_nil_iff_forall_not_mem.mpr fun c member => ?_
    exact absurd ((inventory.mem_replay c).mp member) (by simp [none])
  · rw [inventory.idle.1] at found
    cases found

/-- The found blocks and the restarted juggler make a partition that is alive. -/
theorem alive_of_init {l : Partition} {missing : Bool} (inventory : Inventory p b addr dev)
    (coherent : Coherent p b) (onDisk : OnDisk p b.base j infos blocks reserved)
    (untaken : ∀ c ∈ blocks, (b.infos c).dev = none) (fresh : ∀ c, (b.infos c).dev ≠ some addr)
    (logged : Logged p b.written j.seqno) (ran : Partition.init p dev = .ok (l, missing)) :
    Alive p l.dev ∧ l.dev.bi = none ∧ missing = false ∧ l.dev.noMacroblocks = dev.noMacroblocks ∧
      l.dev.reservedMacroblocks = dev.reservedMacroblocks := by
  have owned := inventory.owned_eq onDisk untaken fresh
  have started := init_eq_ok_iff.mp ran
  by_cases empty : j.scheduled = []
  · have known := known_of_empty inventory coherent onDisk untaken fresh empty
    have count : dev.noMacroblocks = 0 := by
      rw [known.noMacroblocks, owned, onDisk.start empty, Finset.card_empty]
    rw [if_pos count] at started
    cases started
    have juggler : dev.j = Juggler.init := by
      refine (inventory.empty ?_).2.2.1
      ext c
      rw [onDisk.mem_ours untaken, empty]
      simp
    have zero : j.seqno = 0 := by
      refine onDisk.top.resolve_right ?_
      rintro ⟨top, member, -⟩
      simp [empty] at member
    refine ⟨⟨known, j, infos, blocks, reserved, ?_, ⟨?_, ?_, fun c _ => ⟨?_, ?_⟩⟩, ?_⟩, inventory.idle.1, rfl,
      rfl, rfl⟩
    · exact inventory.base ▸ onDisk
    · exact owned.ge
    · change dev.j.seqno = if dev.bi = none then _ else _
      rw [if_pos inventory.idle.1, juggler, zero]
      rfl
    · change c ∈ dev.j.scheduled ↔ _
      rw [juggler, empty]
      exact Iff.rfl
    · intro member
      simp [empty] at member
    · exact inventory.written ▸ logged
  · obtain ⟨used, count, reservedSame, hash⟩ := inventory.described onDisk untaken empty
    obtain ⟨top, listed, -⟩ := onDisk.exists_top empty
    have positive : dev.noMacroblocks ≠ 0 := by
      rw [count]
      exact (Finset.card_pos.mpr ⟨top, onDisk.mem_of_scheduled listed⟩).ne'
    rw [if_neg positive] at started
    obtain ⟨l', replayed, j', added, same⟩ := started
    cases same
    have moved := ((replay_all_sameSize (blank p dev) dev.replay).value l' replayed).1
    have rest : l'.dev = setRam dev l'.dev.updated l'.dev.tmpMacroblock l'.dev.b.infos := moved.rest
    have numbers (c : ℕ) : (l'.dev.b.infos c).seqno = (dev.b.infos c).seqno ∧
        (l'.dev.b.infos c).nextSeqno = (dev.b.infos c).nextSeqno := ⟨(moved.infos c).1, (moved.infos c).2.1⟩
    obtain ⟨j'', added', settled, scheduled, seqno⟩ :=
      inventory.rebuild onDisk untaken l'.dev.b.infos numbers
    have replaySame : l'.dev.replay = dev.replay := by rw [rest]; rfl
    have jugglerSame : l'.dev.j = dev.j := by rw [rest]; rfl
    rw [replaySame, jugglerSame] at added
    cases added'.symm.trans added
    have bi : l'.dev.bi = none := by rw [rest]; exact inventory.idle.1
    have ownedNow : Blockio.owned p (restarted l' j').dev = blocks := by
      rw [← owned]
      refine owned_congr ?_ fun c => (moved.infos c).2.2
      change l'.dev.self = dev.self
      rw [rest]
      rfl
    have numbersOld (c : ℕ) (member : c ∈ blocks) : (l'.dev.b.infos c).seqno = (infos c).seqno ∧
        (l'.dev.b.infos c).nextSeqno = (infos c).nextSeqno := by
      rw [(numbers c).1, (numbers c).2]
      exact inventory.numbers onDisk untaken c member
    refine ⟨⟨⟨?_, ⟨?_, fun c => ?_⟩, ?_, ?_, ?_, ?_, rfl, fun c found => ?_⟩, j, infos, blocks, reserved, ?_,
      ⟨?_, ?_, fun c _ => ⟨?_, fun member => ?_⟩⟩, ?_⟩, bi, ?_, ?_, ?_⟩
    · rw [ownedNow]
      exact settled
    · change l'.dev.b.unallocated.Nodup
      rw [rest]
      exact (inventory.coherent coherent).nodup
    · change c ∈ l'.dev.b.unallocated ↔ c < p.b.totalMacroblocks ∧ (l'.dev.b.infos c).dev = none
      rw [(moved.infos c).2.2, rest]
      exact (inventory.coherent coherent).mem_iff c
    · change l'.dev.status.noBits = _
      rw [rest]
      exact inventory.noBits
    · rw [ownedNow]
      change ∀ i < _, l'.dev.status.used i = true ↔ _
      rw [rest]
      exact used
    · rw [ownedNow]
      change l'.dev.noMacroblocks = _
      rw [rest]
      exact count
    · change l'.dev.reservedMacroblocks < _
      obtain ⟨top, member, last⟩ := onDisk.exists_top empty
      rw [rest]
      change dev.reservedMacroblocks < _
      rw [reservedSame, ← (onDisk.described top member last).reservedMacroblocks]
      exact Binio.readUint32Be_lt _ _
    · change l'.dev.bi = some c at found
      rw [bi] at found
      cases found
    · change OnDisk p l'.dev.b.base j infos blocks reserved
      rw [rest]
      exact inventory.base ▸ onDisk
    · exact ownedNow.ge
    · change j'.seqno = if l'.dev.bi = none then j.seqno else j.seqno + 1
      rw [if_pos bi, seqno]
    · change c ∈ j'.scheduled ↔ _
      rw [scheduled]
    · exact numbersOld c (onDisk.mem_of_scheduled member)
    · change Logged p l'.dev.b.written j.seqno
      rw [rest]
      exact inventory.written ▸ logged
    · have hashed : j'.hashScheduledSeqnos p.hash l'.dev.b.infos = j.hashScheduledSeqnos p.hash infos := by
        rw [Juggler.hashScheduledSeqnos, Juggler.hashScheduledSeqnos, scheduled]
        congr 1
        refine List.flatMap_congr fun c member => ?_
        rw [(numbersOld c (onDisk.mem_of_scheduled member)).1]
      have stored : l'.dev.seqnosHash = dev.seqnosHash := by rw [rest]; rfl
      rw [hashed, stored, hash]
      simp
    · change l'.dev.noMacroblocks = _
      rw [rest]
      rfl
    · change l'.dev.reservedMacroblocks = _
      rw [rest]
      rfl

/-- A partition that was opened only to be refused is closed again. -/
theorem shut_of_refused (inventory : Inventory p b addr dev) (coherent : Coherent p b)
    (onDisk : OnDisk p b.base j infos blocks reserved) (untaken : ∀ c ∈ blocks, (b.infos c).dev = none)
    (fresh : ∀ c, (b.infos c).dev ≠ some addr) (logged : Logged p b.written j.seqno) : Shut p (freed p dev) := by
  have owned := inventory.owned_eq onDisk untaken fresh
  have memReplay (c : ℕ) : c ∈ dev.replay ↔ c ∈ j.scheduled := by
    rw [inventory.mem_replay, onDisk.mem_ours untaken]
  have nodup : dev.replay.Nodup :=
    inventory.sorted.imp fun below equal => by rw [equal] at below; exact lt_irrefl _ below
  refine ⟨freed_coherent (inventory.coherent coherent) ?_ fun c => ?_, j, infos, blocks, reserved, ?_,
    fun c member => ?_, ?_⟩
  · rw [inventory.unscheduled_only.1, List.nil_append]
    refine List.nodup_append'.mpr ⟨(List.nodup_append.mp inventory.lists.nodup).2.1, List.nodup_reverse.mpr nodup,
      fun c claimed member => ?_⟩
    exact ((inventory.mem_unscheduled onDisk untaken c).mp claimed).2 ((memReplay c).mp (List.mem_reverse.mp member))
  · rw [owned, inventory.unscheduled_only.1, List.nil_append, List.mem_append, List.mem_reverse, memReplay,
      inventory.mem_unscheduled onDisk untaken]
    constructor
    · rintro (⟨member, -⟩ | scheduled)
      · exact member
      · exact onDisk.mem_of_scheduled scheduled
    · intro member
      by_cases scheduled : c ∈ j.scheduled
      · exact .inr scheduled
      · exact .inl ⟨member, scheduled⟩
  · change OnDisk p dev.b.base j infos blocks reserved
    exact inventory.base ▸ onDisk
  · rw [freed_dev, owned, if_pos member]
  · change Logged p dev.b.written j.seqno
    exact inventory.written ▸ logged

end Found

/-- Opening a shut device restarts the partition where it was; no block seems to be missing. -/
theorem alive_of_opened {fuel addr : ℕ} {b : Blockio} {add missing : Bool} {entry : Entry} {tape rest : List ℕ}
    (shut : Shut p b) (fresh : ∀ c, (b.infos c).dev ≠ some addr)
    (ran : (openCreateCommon p fuel b addr add).run tape = .done (.opened entry missing) rest) :
    Alive p entry.l.dev ∧ missing = false := by
  obtain ⟨j, infos, blocks, reserved, onDisk, untaken, logged⟩ := shut.disk
  obtain ⟨dev, l, found, -, started, -, -, -, -, selected⟩ := openCreateCommon_opened ran
  obtain ⟨alive, -, warning, -⟩ := alive_of_init ((devInit_yields b addr).value dev found) shut.coherent onDisk
    untaken fresh logged started
  refine ⟨?_, warning⟩
  split at selected
  · exact alive.select selected
  · rw [selected]
    exact alive

theorem shut_of_openCreateCommon_refused {fuel addr : ℕ} {b b' : Blockio} {add : Bool} {message : String}
    {tape rest : List ℕ} (shut : Shut p b) (fresh : ∀ c, (b.infos c).dev ≠ some addr)
    (ran : (openCreateCommon p fuel b addr add).run tape = .done (.refused message b') rest) : Shut p b' := by
  obtain ⟨j, infos, blocks, reserved, onDisk, untaken, logged⟩ := shut.disk
  obtain ⟨dev, found, free⟩ := openCreateCommon_refused ran
  have inventory := (devInit_yields b addr).value dev found
  obtain ⟨dev', flushed, rfl⟩ := devFree_eq_ok_iff.mp free
  rw [inventory.idle.2.2, if_neg (by decide)] at flushed
  rw [flushed]
  exact shut_of_refused inventory shut.coherent onDisk untaken fresh logged

end Scubed3.Control
