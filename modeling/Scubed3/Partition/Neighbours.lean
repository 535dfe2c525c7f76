import Scubed3.Device.History
import Scubed3.Partition.Durable

/-! # What others do with the device

Other partitions write macroblocks that are not ours. What is stored for us stays as it is, and an open partition does
not notice.
-/

namespace Scubed3.Blockio

open Scubed3.Partition

variable {p : Params} {b b' : Blockio} {base base' : Bytes}

/-! ## On the device -/

theorem Shelved.congr (shelved : Shelved p base) (same : headers p base' = headers p base)
    (headersSame : ∀ c ∈ headers p base, header p base' c = header p base c) : Shelved p base' := by
  have highest {top : ℕ} (isTop : Highest p base' (headers p base) top) : Highest p base (headers p base) top :=
    highest_congr headersSame ▸ isTop
  have records {c : ℕ} (member : c ∈ headers p base) : record p base' c = record p base c := record_congr headersSame member
  refine ⟨fun c member => ?_, fun top isTop c member => ?_, fun top isTop i bound => ?_, fun top isTop t member => ?_⟩
  · rw [same] at member
    rw [records member]
    exact shelved.distinct c member
  · rw [same] at isTop member
    rw [records member, announced, headersSame top isTop.1]
    exact shelved.inside top (highest isTop) c member
  · rw [same] at isTop
    rw [headersSame top isTop.1]
    exact shelved.addressable top (highest isTop) i bound
  · rw [same] at isTop member ⊢
    rw [records member, records isTop.1]
    intro next m k newest
    refine shelved.vacant top (highest isTop) t member next m k ?_
    have places := newest_congr headersSame m
    exact (congrFun places (t, k)).mp newest

/-- A picture of which the macroblocks stay the same. -/
theorem OnDisk.stays {j : Juggler} {infos : BlockioInfos} {blocks : Finset ℕ} {reserved : ℕ}
    (onDisk : OnDisk p base j infos blocks reserved)
    (macroblocks : ∀ c ∈ blocks, Memory.slice base' (c * p.macroblockSize) p.macroblockSize =
      Memory.slice base (c * p.macroblockSize) p.macroblockSize)
    (foreign : ∀ c < p.b.totalMacroblocks, c ∉ blocks → Foreign p base' c) (shelved : Shelved p base) :
    Shelved p base' ∧ stored p base' = stored p base := by
  have inside {c : ℕ} (member : c ∈ headers p base) : c ∈ blocks :=
    onDisk.mem_of_scheduled ((onDisk.mem_headers c).mp member)
  have onDisk' := onDisk.congr (fun c member => header_congr (macroblocks c member)) foreign
  have same : headers p base' = headers p base := by
    ext c
    rw [onDisk'.mem_headers, onDisk.mem_headers]
  exact ⟨shelved.congr same fun c member => header_congr (macroblocks c (inside member)),
    stored_congr same (fun c member => macroblocks c (inside member)) fun c member =>
      (onDisk.carried c ((onDisk.mem_headers c).mp member)).2.1.capacity⟩

/-- A closed partition. -/
theorem Shut.stays (shut : Shut p b) (others : Untouched p (Reserved p b) b b') (shelved : Shelved p b.base) :
    Shelved p b'.base ∧ stored p b'.base = stored p b.base := by
  obtain ⟨j, infos, blocks, reserved, onDisk, untaken, -⟩ := shut.disk
  have mine := onDisk.reserved_iff untaken
  exact onDisk.stays (fun c member => others.macroblock c ((mine c).mpr member))
    (fun c bound notIn => others.foreign c bound fun isMine => notIn ((mine c).mp isMine)) shelved

end Scubed3.Blockio

namespace Scubed3.Partition

open Blockio

/-! ## While the partition is open -/

/-- The partition after others changed the device. -/
def beside (l : Partition) (b : Blockio) : Partition := { l with dev := { l.dev with b } }

variable {p : Params} {l : Partition} {b' : Blockio} (others : Untouched p (· ∈ owned p l.dev) l.dev.b b')

include others in
theorem getObsoleted_beside (known : Known p l.dev) :
    (beside l b').dev.j.getObsoleted (beside l b').dev.b.infos = l.dev.j.getObsoleted l.dev.b.infos :=
  getObsoleted_congr fun c scheduled => by
    rw [show (beside l b').dev.b.infos c = l.dev.b.infos c from others.infos c (known.settled.mem_of_scheduled scheduled)]

include others in
/-- What is on the device stays as it is. -/
theorem Intact.stays (intact : Intact p l) : Shelved p b'.base ∧ stored p b'.base = stored p l.dev.b.base := by
  obtain ⟨j, infos, blocks, reserved, onDisk, behind, -⟩ := intact.alive.disk
  refine onDisk.stays (fun c member => others.macroblock c (behind.subset member)) (fun c bound notIn => ?_) intact.shelved
  by_cases inside : c ∈ owned p l.dev
  · rw [Foreign, header_congr (others.macroblock c inside)]
    exact onDisk.foreign c bound fun listed => notIn (onDisk.mem_of_scheduled listed)
  · exact others.foreign c bound inside

variable (fresh : ∀ c ∉ owned p l.dev, (b'.infos c).dev ≠ some l.dev.self)
include others fresh

theorem owned_beside : owned p (beside l b').dev = owned p l.dev := by
  ext c
  by_cases own : c ∈ owned p l.dev
  · rw [mem_owned, mem_owned]
    unfold beside
    dsimp only
    rw [others.infos c own]
  · exact iff_of_false (fun now => fresh c own (mem_owned.mp now).2) own

theorem Consistent.beside (consistent : Consistent p l) : Consistent p (beside l b') := by
  have own := owned_beside others fresh
  have same {c : ℕ} (inside : c ∈ owned p l.dev) : (Partition.beside l b').dev.b.infos c = l.dev.b.infos c := others.infos c inside
  refine ⟨consistent.index_lt, fun c inside => ?_, fun c inside => ?_, fun m bound c mapped => ?_, fun c current => ?_,
    fun c inside elsewhere => ?_⟩
  · rw [own] at inside
    exact (same inside).symm ▸ consistent.bounded c inside
  · rw [own] at inside
    exact (same inside).symm ▸ consistent.distinct c inside
  · obtain ⟨inside, listed⟩ := consistent.placed m bound c mapped
    exact ⟨own.symm ▸ inside, (same inside).symm ▸ listed⟩
  · obtain ⟨inside, lives⟩ := consistent.current c current
    exact ⟨own.symm ▸ inside, (same inside).symm ▸ lives⟩
  · rw [own] at inside
    exact (same inside).symm ▸ consistent.counted c inside elsewhere

theorem Intact.beside (intact : Intact p l) : Intact p (beside l b') := by
  have own := owned_beside others fresh
  have same {c : ℕ} (inside : c ∈ owned p l.dev) : (Partition.beside l b').dev.b.infos c = l.dev.b.infos c := others.infos c inside
  have headersSame : ∀ c ∈ onShelf l.dev, header p b'.base c = header p l.dev.b.base c := fun c member =>
    header_congr (others.macroblock c (intact.mem_owned_of_scheduled (mem_onShelf.mp member).1))
  have backed := intact.backed
  have shelved := (intact.stays others).1
  refine ⟨intact.toConsistent.beside others fresh, intact.alive.untouched others fresh, intact.sized, own ▸ intact.addressable,
    fun c inside elsewhere none => ?_, fun c member => ?_, fun c current => ?_, ⟨fun c member => ?_, fun c member => ?_,
      fun m bound never c member k => ?_, fun m bound c mapped elsewhere => ?_⟩, shelved⟩
  · rw [own] at inside
    exact (congrArg BlockioInfo.noIndices (same inside)).trans (intact.idle c inside elsewhere none)
  · have inside := intact.known.settled.mem_of_unscheduled member
    exact (congrArg BlockioInfo.noIndices (same inside)).trans (intact.unused c member)
  · exact (intact.tail c current).trans (getObsoleted_beside others intact.known).symm
  · have records : record p b'.base c = record p l.dev.b.base c := record_congr headersSame member
    exact (show record p (Partition.beside l b').dev.b.base c = _ from records).symm ▸ backed.distinct c member
  · have records : record p b'.base c = record p l.dev.b.base c := record_congr headersSame member
    exact (show record p (Partition.beside l b').dev.b.base c = _ from records).symm ▸ backed.inside c member
  · have records : record p b'.base c = record p l.dev.b.base c := record_congr headersSame member
    change ¬ Listed p b'.base c m k
    rw [Listed, records]
    exact backed.unmapped m bound never c member k
  · exact (congrFun (newest_congr headersSame m) (c, indexNo p (l.blockIndices m))).mpr (backed.placed m bound c mapped elsewhere)

/-- The partition has the same contents. -/
theorem Intact.beside_kept (intact : Intact p l) : Kept p l (Partition.beside l b') := by
  refine ⟨rfl, fun m bound => ?_, fun _ _ => Iff.rfl, owned_beside others fresh, rfl, rfl⟩
  by_cases never : l.blockIndices m = noIndex
  · rw [content_unmapped never, content_unmapped (l := Partition.beside l b') never]
  · obtain ⟨inside, position, -⟩ := intact.placed m bound _ ⟨never, rfl⟩
    have inner := macroblock_bound (position.trans_le (intact.bounded _ inside))
    unfold content ramMesoblk readMesoblk Partition.beside
    dsimp only
    rw [others.infos _ inside, Memory.slice_within (others.macroblock _ inside) inner]

theorem Tidy.beside (tidy : Tidy p l) : Tidy p (Partition.beside l b') := by
  have intact := tidy.intact.beside others fresh
  cases tidy with
  | between between output =>
    refine .between ⟨intact, between.none, fun t first => between.vacant t ?_⟩ output
    rwa [← getObsoleted_beside others between.known]
  | @fresh cur isFresh output =>
    refine .fresh ⟨intact, isFresh.bi, ?_⟩ output
    exact (congrArg BlockioInfo.noIndices (others.infos cur (isFresh.current cur isFresh.bi).1)).trans isFresh.blank
  | @ready cur ready output => exact .ready ⟨intact, ready.bi, ready.collected⟩ output

end Scubed3.Partition
