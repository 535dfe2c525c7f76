import Scubed3.Device.Resize
import Mathlib

/-! # Histories of a partition

A history creates and opens the partition, writes, cycles, resizes and closes it, and the program may
be killed between two operations. Meanwhile other partitions use the macroblocks that are not ours.
In every state that a history reaches, the device is shut or the partition on it is alive. Two results
follow: sequence numbers only grow, so no initialisation vector is used twice, and an open never
warns about a missing block.
-/

namespace Scubed3

open Blockio Memory

/-- Between two operations a partition is closed or open. -/
inductive DeviceState where
  | closed (b : Blockio)
  | opened (entry : Entry)

/-- The base device. -/
def DeviceState.device : DeviceState → Blockio
  | closed b => b
  | opened entry => entry.l.dev.b

namespace Blockio

variable (p : Params)

/-- The macroblocks that opening the partition will take: those with a header of ours and those that the
newest of these marks as used. -/
def Reserved (b : Blockio) (c : ℕ) : Prop :=
  c ∈ ours p b ∨ c < p.b.totalMacroblocks ∧ ∃ top ∈ ours p b,
    (∀ d ∈ ours p b, (record p b.base d).seqno ≤ (record p b.base top).seqno) ∧
      ((Bitmap.init p.b.maxMacroblocks).read (header p b.base top) p.b.bitmapOffset).used c = true

/-- What others may do meanwhile: nothing to the macroblocks that are `mine`, and they do not forge our
headers on theirs. -/
structure Untouched (mine : ℕ → Prop) (b b' : Blockio) : Prop where
  coherent : Coherent p b'
  written : b'.written = b.written
  infos : ∀ c, mine c → b'.infos c = b.infos c
  macroblock : ∀ c, mine c → slice b'.base (c * p.macroblockSize) p.macroblockSize =
    slice b.base (c * p.macroblockSize) p.macroblockSize
  foreign : ∀ c < p.b.totalMacroblocks, ¬ mine c → Foreign p b'.base c

end Blockio

section History

variable (p : Params)

/-- What can happen to a partition. The address of a partition that is opened is new. -/
inductive History : DeviceState → Prop
  | start {b : Blockio} (coherent : Coherent p b) (written : b.written = [])
      (foreign : ∀ c < p.b.totalMacroblocks, Foreign p b.base c) : History (.closed b)
  | opened {b : Blockio} {fuel addr : ℕ} {add missing : Bool} {entry : Entry} {tape rest : List ℕ}
      (before : History (.closed b)) (fresh : ∀ c, (b.infos c).dev ≠ some addr)
      (ran : (Control.openCreateCommon p fuel b addr add).run tape = .done (.opened entry missing) rest) :
      History (.opened entry)
  | refused {b b' : Blockio} {fuel addr : ℕ} {add : Bool} {message : String} {tape rest : List ℕ}
      (before : History (.closed b)) (fresh : ∀ c, (b.infos c).dev ≠ some addr)
      (ran : (Control.openCreateCommon p fuel b addr add).run tape = .done (.refused message b') rest) :
      History (.closed b')
  | write {entry : Entry} {l : Partition} {fuel rOffset size : ℕ} {buf : Bytes} {tape rest : List ℕ}
      (before : History (.opened entry))
      (ran : (Partition.reqWrite p fuel entry.l rOffset size buf).run tape = .done l rest) :
      History (.opened { entry with l })
  | cycle {entry : Entry} {l : Partition} {fuel : ℕ} {tape rest : List ℕ} (before : History (.opened entry))
      (ran : (Partition.cycle p fuel entry.l).run tape = .done l rest) : History (.opened { entry with l })
  | resize {entry entry' : Entry} {fuel : ℕ} {size reserved : ℤ} {reply : Reply} {tape rest : List ℕ}
      (before : History (.opened entry))
      (ran : (Control.resize p fuel entry size reserved).run tape = .done (reply, entry') rest) :
      History (.opened entry')
  | close {entry : Entry} {b : Blockio} (before : History (.opened entry))
      (ran : Control.close p entry = .ok (.ok, b)) : History (.closed b)
  | crash {state : DeviceState} (before : History state) :
      History (.closed (initInfos p state.device.base state.device.written))
  | othersClosed {b b' : Blockio} (before : History (.closed b)) (others : Untouched p (Reserved p b) b b') :
      History (.closed b')
  | othersOpened {entry : Entry} {b' : Blockio} (before : History (.opened entry))
      (others : Untouched p (· ∈ owned p entry.l.dev) entry.l.dev.b b')
      (fresh : ∀ c ∉ owned p entry.l.dev, (b'.infos c).dev ≠ some entry.l.dev.self) :
      History (.opened { entry with l := { entry.l with dev := { entry.l.dev with b := b' } } })

end History

namespace Blockio

variable {p : Params}

/-! ## Other partitions -/

/-- The picture on the device only concerns the macroblocks of the partition. -/
theorem OnDisk.congr {base base' : Bytes} {j : Juggler} {infos : BlockioInfos} {blocks : Finset ℕ} {reserved : ℕ}
    (onDisk : OnDisk p base j infos blocks reserved) (headers : ∀ c ∈ blocks, header p base' c = header p base c)
    (foreign : ∀ c < p.b.totalMacroblocks, c ∉ blocks → Foreign p base' c) :
    OnDisk p base' j infos blocks reserved := by
  refine { onDisk.toSettled with
    bounded := onDisk.bounded, start := onDisk.start
    carried := fun c member => ?_, foreign := fun c bound unlisted => ?_, described := fun top member last => ?_ }
  · have same := headers c (onDisk.mem_of_scheduled member)
    rw [same, record, same, ← record]
    exact onDisk.carried c member
  · by_cases inBlocks : c ∈ blocks
    · rw [headers c inBlocks]
      exact onDisk.foreign c bound unlisted
    · exact foreign c bound inBlocks
  · have described := onDisk.described top member last
    have same := headers top (onDisk.mem_of_scheduled member)
    exact ⟨same ▸ described.used, same ▸ described.noMacroblocks, same ▸ described.reservedMacroblocks,
      same ▸ described.seqnosHash⟩

/-- The reserved macroblocks are those of the picture. -/
theorem OnDisk.reserved_iff {b : Blockio} {j : Juggler} {infos : BlockioInfos} {blocks : Finset ℕ} {reserved : ℕ}
    (onDisk : OnDisk p b.base j infos blocks reserved) (untaken : ∀ c ∈ blocks, (b.infos c).dev = none) (c : ℕ) :
    Reserved p b c ↔ c ∈ blocks := by
  constructor
  · rintro (isOurs | ⟨bound, top, isOurs, upper, used⟩)
    · exact onDisk.mem_of_scheduled ((onDisk.mem_ours untaken c).mp isOurs)
    · have listed := (onDisk.mem_ours untaken top).mp isOurs
      obtain ⟨last, member, isLast⟩ := onDisk.exists_top (List.ne_nil_of_mem listed)
      have same : top = last := by
        refine onDisk.distinct top listed last member (le_antisymm (isLast ▸ onDisk.latest top listed) ?_)
        rw [← (onDisk.carried top listed).2.2.1, ← (onDisk.carried last member).2.2.1]
        exact upper last ((onDisk.mem_ours untaken last).mpr member)
      rw [same] at used
      exact ((onDisk.described last member isLast).used c (bound.trans_le p.sound.total_le)).mp used
  · intro member
    by_cases scheduled : c ∈ j.scheduled
    · exact .inl ((onDisk.mem_ours untaken c).mpr scheduled)
    · have bound := onDisk.bounded c member
      have nonempty : j.scheduled ≠ [] := fun empty => by simp [onDisk.start empty] at member
      obtain ⟨top, listed, last⟩ := onDisk.exists_top nonempty
      refine .inr ⟨bound, top, (onDisk.mem_ours untaken top).mpr listed, fun d isOurs => ?_, ?_⟩
      · have listed' := (onDisk.mem_ours untaken d).mp isOurs
        rw [(onDisk.carried d listed').2.2.1, (onDisk.carried top listed).2.2.1, last]
        exact onDisk.latest d listed'
      · exact ((onDisk.described top listed last).used c (bound.trans_le p.sound.total_le)).mpr member

theorem Shut.untouched {b b' : Blockio} (shut : Shut p b) (others : Untouched p (Reserved p b) b b') : Shut p b' := by
  obtain ⟨j, infos, blocks, reserved, onDisk, untaken, logged⟩ := shut.disk
  have mine := onDisk.reserved_iff untaken
  refine ⟨others.coherent, j, infos, blocks, reserved, onDisk.congr (fun c member => ?_) (fun c bound notIn => ?_),
    fun c member => ?_, others.written ▸ logged⟩
  · exact header_congr (others.macroblock c ((mine c).mpr member))
  · exact others.foreign c bound fun isMine => notIn ((mine c).mp isMine)
  · rw [others.infos c ((mine c).mpr member)]
    exact untaken c member

theorem Alive.untouched {dev : BlockioDev} {b' : Blockio} (alive : Alive p dev)
    (others : Untouched p (· ∈ owned p dev) dev.b b') (fresh : ∀ c ∉ owned p dev, (b'.infos c).dev ≠ some dev.self) :
    Alive p { dev with b := b' } := by
  obtain ⟨j, infos, blocks, reserved, onDisk, behind, logged⟩ := alive.disk
  have ownedSame : owned p { dev with b := b' } = owned p dev := by
    ext c
    by_cases own : c ∈ owned p dev
    · rw [mem_owned, mem_owned]
      dsimp only
      rw [others.infos c own]
    · refine iff_of_false (fun now => ?_) own
      exact fresh c own (mem_owned.mp now).2
  have infosSame (c : ℕ) (member : c ∈ owned p dev) : b'.infos c = dev.b.infos c := others.infos c member
  refine ⟨⟨?_, others.coherent, alive.noBits, ?_, ?_, alive.reserved_lt, alive.replay, fun c current => ?_⟩,
    j, infos, blocks, reserved, onDisk.congr (fun c member => ?_) (fun c bound notIn => ?_),
    ⟨?_, behind.counter, fun c elsewhere => ?_⟩, ?_⟩
  · rw [ownedSame]
    exact alive.settled.congr _ fun c member => by rw [infosSame c member]; exact ⟨rfl, rfl⟩
  · rw [ownedSame]; exact alive.used
  · rw [ownedSame]; exact alive.noMacroblocks
  · have listed := (alive.current c current).1
    dsimp only
    rw [infosSame c (alive.settled.mem_of_scheduled listed)]
    exact alive.current c current
  · exact header_congr (others.macroblock c (behind.subset member))
  · by_cases own : c ∈ owned p dev
    · rw [Foreign, header_congr (others.macroblock c own)]
      exact onDisk.foreign c bound fun listed => notIn (onDisk.mem_of_scheduled listed)
    · exact others.foreign c bound own
  · rw [ownedSame]; exact behind.subset
  · obtain ⟨listed, numbers⟩ := behind.same c elsewhere
    refine ⟨listed, fun member => ?_⟩
    dsimp only
    rw [infosSame c (behind.subset (onDisk.mem_of_scheduled member))]
    exact numbers member
  · exact others.written.symm ▸ logged

/-! ## Every state of a history -/

/-- A state is good: the device is shut or the partition is alive. -/
def Good (p : Params) : DeviceState → Prop
  | .closed b => Shut p b
  | .opened entry => Alive p entry.l.dev

/-- Nothing was ever written. -/
theorem Shut.start {b : Blockio} (coherent : Coherent p b) (written : b.written = [])
    (foreign : ∀ c < p.b.totalMacroblocks, Foreign p b.base c) : Shut p b := by
  refine ⟨coherent, Juggler.init, fun _ => {}, ∅, 0,
    { Juggler.Settled.init _ with
      bounded := by simp, carried := by simp [Juggler.init], foreign := fun c bound _ => foreign c bound
      described := by simp [Juggler.init], start := fun _ => rfl }, by simp, ?_⟩
  rw [written]
  exact ⟨.nil, by simp, by simp⟩

/-- When the program is killed, the device keeps the last picture. -/
theorem Good.crash {state : DeviceState} (good : Good p state) :
    Shut p (initInfos p state.device.base state.device.written) := by
  have coherent (base : Bytes) (written : List MacroblockWrite) : Coherent p (initInfos p base written) :=
    ⟨List.nodup_range, fun c => by simp [initInfos]⟩
  cases state with
  | closed b =>
    obtain ⟨j, infos, blocks, reserved, onDisk, -, logged⟩ := good.disk
    exact ⟨coherent .., j, infos, blocks, reserved, onDisk, fun _ _ => rfl, logged⟩
  | opened entry =>
    obtain ⟨j, infos, blocks, reserved, onDisk, -, logged⟩ := good.disk
    exact ⟨coherent .., j, infos, blocks, reserved, onDisk, fun _ _ => rfl, logged⟩

end Blockio

open Control in
/-- Every operation, and whatever others do, keeps the device in order. -/
theorem History.good {p : Params} {state : DeviceState} (history : History p state) : Good p state := by
  induction history with
  | start coherent written foreign => exact .start coherent written foreign
  | opened _ fresh ran ih => exact (alive_of_opened ih fresh ran).1
  | refused _ fresh ran ih => exact shut_of_openCreateCommon_refused ih fresh ran
  | write _ ran ih => exact Alive.path ((Partition.reqWrite_path ..).of_done ran) ih
  | cycle _ ran ih => exact Alive.path ((Partition.cycle_path ..).of_done ran) ih
  | resize _ ran ih => exact alive_of_resize ih ran
  | close _ ran ih => exact Alive.free ih (close_eq_ok_iff.mp ran).2
  | crash _ ih => exact ih.crash
  | othersClosed _ others ih => exact Shut.untouched ih others
  | othersOpened _ others fresh ih => exact Alive.untouched ih others fresh

/-! ## Results -/

theorem History.logged {p : Params} {state : DeviceState} (history : History p state) :
    ∃ latest, Logged p state.device.written latest := by
  have good := history.good
  cases state with
  | closed b =>
    obtain ⟨j, infos, blocks, reserved, -, -, logged⟩ := good.disk
    exact ⟨j.seqno, logged⟩
  | opened entry =>
    obtain ⟨j, infos, blocks, reserved, -, -, logged⟩ := good.disk
    exact ⟨j.seqno, logged⟩

theorem Blockio.Logged.dataIvs_seqno {p : Params} {written : List MacroblockWrite} {latest : ℕ} {iv : Iv}
    {w : MacroblockWrite} (logged : Logged p written latest) (member : w ∈ written) (used : iv ∈ w.dataIvs) :
    iv.1 = w.seqno := by
  rw [(logged.vectors w member).2, List.mem_map] at used
  obtain ⟨i, -, rfl⟩ := used
  rfl

/-- All vectors under which data was ever encrypted are distinct. -/
theorem Blockio.Logged.dataIvs_nodup {p : Params} {written : List MacroblockWrite} {latest : ℕ}
    (logged : Logged p written latest) : (written.flatMap MacroblockWrite.dataIvs).Nodup := by
  refine List.nodup_flatMap.mpr ⟨fun w member => ?_, ?_⟩
  · rw [(logged.vectors w member).2]
    exact (List.nodup_range' ..).map fun i i' same => (Prod.mk.inj (Prod.mk.inj same).2).1
  · refine logged.increasing.imp_of_mem fun {newer older} isNewer isOlder below => ?_
    intro iv first second
    have := logged.dataIvs_seqno isNewer first
    have := logged.dataIvs_seqno isOlder second
    omega

/-- Over all macroblock writes that ever reached the device, newest first, the sequence numbers strictly
decrease; no two data mesoblocks were encrypted under the same vector, and none under one that is
used for an index block. -/
theorem dataIvs_never_repeat {p : Params} {state : DeviceState} (history : History p state) :
    state.device.written.Pairwise (fun newer older => older.seqno < newer.seqno) ∧
      (∀ w ∈ state.device.written, w.dataIvs = (List.range' 1 p.b.mmpm).map fun i => dataIv w.seqno i w.id) ∧
      (state.device.written.flatMap MacroblockWrite.dataIvs).Nodup ∧
      (∀ iv ∈ state.device.written.flatMap MacroblockWrite.dataIvs, ∀ id, iv ≠ indexIv id) ∧
      ∀ w ∈ state.device.written, w.indexIv = indexIv w.id := by
  obtain ⟨latest, logged⟩ := history.logged
  refine ⟨logged.increasing, fun w member => (logged.vectors w member).2, logged.dataIvs_nodup,
    fun iv used id same => ?_, fun w member => (logged.vectors w member).1⟩
  obtain ⟨w, member, inIvs⟩ := List.mem_flatMap.mp used
  have seqno := logged.dataIvs_seqno member inIvs
  have positive := (logged.bounds w member).1
  rw [same] at seqno
  change 0 = w.seqno at seqno
  omega

/-- A device of one macroblock on which nothing was written. -/
def emptyDevice : Blockio := { unallocated := [0], base := fun _ => 0 }

/-- Create a partition, give it the macroblock and write it once. -/
def firstCycle : Draw Failure (Partition × ℕ) := do
  match ← Control.openCreateCommon (.smallest 1 Geometry.one_fits) 4 emptyDevice 0 true with
  | .refused _ _ => .starve
  | .opened entry _ =>
    let (_, entry) ← Control.resize (.smallest 1 Geometry.one_fits) 4 entry 1 0
    let l ← Partition.cycle (.smallest 1 Geometry.one_fits) 4 entry.l
    return (l, l.dev.b.written.length)

theorem History.emptyDevice : History (.smallest 1 (by decide)) (.closed emptyDevice) := by
  have coherent : Coherent (.smallest 1 (by decide)) Scubed3.emptyDevice :=
    ⟨List.nodup_singleton 0, fun c => by simp [Scubed3.emptyDevice, Params.smallest, Geometry.smallest]⟩
  refine .start coherent rfl fun c bound => ?_
  change c < 1 at bound
  obtain rfl : c = 0 := by omega
  unfold Foreign
  decide +kernel

theorem History.firstCycle : ∃ state, History (.smallest 1 (by decide)) state ∧ state.device.written.length = 1 := by
  have ran : (do let r ← Scubed3.firstCycle; return r.2 : Draw Failure ℕ).run [0, 0, 0, 0] = .done 1 [] := by
    decide +kernel
  obtain ⟨⟨l, count⟩, _, cycled, counted⟩ := Draw.bind_done_iff.mp ran
  cases counted
  obtain ⟨outcome, _, opened, others⟩ := Draw.bind_done_iff.mp cycled
  cases outcome with
  | refused => cases others
  | opened entry missing =>
    obtain ⟨⟨reply, entry'⟩, _, resized, others⟩ := Draw.bind_done_iff.mp others
    obtain ⟨l', _, cycled, same⟩ := Draw.bind_done_iff.mp others
    have length : l'.dev.b.written.length = 1 := (Prod.mk.inj (Outcome.done.inj same).1).2
    exact ⟨_, .cycle (.resize (.opened History.emptyDevice (by simp [Scubed3.emptyDevice]) opened) resized) cycled, length⟩

theorem dataIvs_never_repeat_firstCycle : ∃ state : DeviceState, state.device.written.length = 1 ∧
    (state.device.written.flatMap MacroblockWrite.dataIvs).Nodup := by
  obtain ⟨state, history, length⟩ := History.firstCycle
  exact ⟨state, length, (dataIvs_never_repeat history).2.2.1⟩

end Scubed3
