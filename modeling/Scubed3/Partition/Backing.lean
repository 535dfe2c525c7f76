import Scubed3.Opening.Newest
import Scubed3.Device.Shut
import Scubed3.Partition.Store

/-! # What the device says about the mesoblocks

A mesoblock that is not in the current macroblock is in the newest macroblock that lists it on the device. `Backed` says
so for the macroblocks other than the current one, whose index block is written last. `Shelved` is about the device alone:
it is as some write left it that did not lose anything, so the partition can be opened again.
-/

namespace Scubed3.Blockio

variable (p : Params)

/-- The macroblocks with an index block of ours. -/
def headers (base : Bytes) : Finset ℕ :=
  (Finset.range p.b.totalMacroblocks).filter fun c => seemsOurs p (header p base c) = true

/-- What is on the device is complete. -/
structure Shelved (base : Bytes) : Prop where
  distinct : ∀ c ∈ headers p base, ∀ i < (record p base c).noIndices, ∀ j < (record p base c).noIndices,
    (record p base c).indices i = (record p base c).indices j → i = j
  inside : ∀ top, Highest p base (headers p base) top →
    ∀ c ∈ headers p base, ∀ i < (record p base c).noIndices, (record p base c).indices i < announced p base top
  addressable : ∀ top, Highest p base (headers p base) top → ∀ i < p.b.maxMacroblocks,
    ((Bitmap.init p.b.maxMacroblocks).read (header p base top) p.b.bitmapOffset).used i = true →
      Partition.Addressable p (i + 1)
  /-- Nothing is in the macroblock that comes next. -/
  vacant : ∀ top, Highest p base (headers p base) top → ∀ t ∈ headers p base,
    (record p base t).nextSeqno = (record p base top).seqno + 1 → ∀ m k, ¬ Newest p base (headers p base) t m k

/-- The macroblocks of ours whose index block on the device is up to date. -/
def onShelf (dev : BlockioDev) : Finset ℕ := dev.j.scheduled.toFinset.filter fun c => dev.bi ≠ some c

variable {p}

theorem mem_headers {base : Bytes} {c : ℕ} :
    c ∈ headers p base ↔ c < p.b.totalMacroblocks ∧ seemsOurs p (header p base c) = true := by
  rw [headers, Finset.mem_filter, Finset.mem_range]

theorem mem_onShelf {dev : BlockioDev} {c : ℕ} : c ∈ onShelf dev ↔ c ∈ dev.j.scheduled ∧ dev.bi ≠ some c := by
  rw [onShelf, Finset.mem_filter, List.mem_toFinset]

section Picture

variable {base : Bytes} {j : Juggler} {infos : BlockioInfos} {blocks : Finset ℕ} {reserved top : ℕ}

/-- The picture on the device has the index blocks of the scheduled macroblocks. -/
theorem OnDisk.mem_headers (onDisk : OnDisk p base j infos blocks reserved) (c : ℕ) :
    c ∈ headers p base ↔ c ∈ j.scheduled := by
  rw [Blockio.mem_headers]
  constructor
  · rintro ⟨bound, isOurs⟩
    by_contra unlisted
    rw [onDisk.foreign c bound unlisted] at isOurs
    cases isOurs
  · intro member
    exact ⟨onDisk.bounded c (onDisk.mem_of_scheduled member), (onDisk.carried c member).1⟩

/-- The newest of them carries the counter. -/
theorem OnDisk.top_seqno (onDisk : OnDisk p base j infos blocks reserved) (highest : Highest p base (headers p base) top) :
    top ∈ j.scheduled ∧ (infos top).seqno = j.seqno := by
  have listed := (onDisk.mem_headers top).mp highest.1
  obtain ⟨last, member, same⟩ := onDisk.exists_top (List.ne_nil_of_mem listed)
  have upper := highest.2 last ((onDisk.mem_headers last).mpr member)
  rw [(onDisk.carried last member).2.2.1, (onDisk.carried top listed).2.2.1, same] at upper
  exact ⟨listed, le_antisymm (onDisk.latest top listed) upper⟩

end Picture

/-- The record of a macroblock on the shelf has the sequence numbers that are in memory. -/
theorem Alive.onShelf_record {dev : BlockioDev} (alive : Alive p dev) {c : ℕ} (member : c ∈ onShelf dev) :
    (record p dev.b.base c).seqno = (dev.b.infos c).seqno := by
  obtain ⟨listed, elsewhere⟩ := mem_onShelf.mp member
  obtain ⟨j, infos, blocks, reserved, onDisk, behind, -⟩ := alive.disk
  obtain ⟨scheduled, numbers⟩ := behind.same c elsewhere
  have onOld := scheduled.mp listed
  rw [(onDisk.carried c onOld).2.2.1, (numbers onOld).1]

end Scubed3.Blockio

namespace Scubed3.Partition

open Blockio

variable {p : Params} {l l' : Partition} {cur : ℕ}

/-- The index blocks on the shelf agree with the table. -/
structure Backed (p : Params) (l : Partition) : Prop where
  distinct : ∀ c ∈ onShelf l.dev, ∀ i < (record p l.dev.b.base c).noIndices, ∀ j < (record p l.dev.b.base c).noIndices,
    (record p l.dev.b.base c).indices i = (record p l.dev.b.base c).indices j → i = j
  inside : ∀ c ∈ onShelf l.dev, ∀ i < (record p l.dev.b.base c).noIndices,
    (record p l.dev.b.base c).indices i < l.noBlockIndices
  unmapped : ∀ m < l.noBlockIndices, l.blockIndices m = noIndex → ∀ c ∈ onShelf l.dev, ∀ k, ¬ Listed p l.dev.b.base c m k
  placed : ∀ m < l.noBlockIndices, ∀ b, Mapped p l m b → l.dev.bi ≠ some b →
    Newest p l.dev.b.base (onShelf l.dev) b m (indexNo p (l.blockIndices m))

theorem blank_noBlockIndices_lt (p : Params) (dev : BlockioDev) : (blank p dev).noBlockIndices < 2 ^ 32 := by
  rw [blank]
  dsimp only
  split
  · exact Nat.two_pow_pos 32
  · exact Nat.mod_lt _ (Nat.two_pow_pos 32)

/-- In memory a mesoblock can only move into the current macroblock. -/
theorem Backed.memory (backed : Backed p l) (same : SameDevice l.dev l'.dev) (size : l'.noBlockIndices = l.noBlockIndices)
    (entries : ∀ m < l.noBlockIndices, l'.blockIndices m = l.blockIndices m ∨ ∃ b, l.dev.bi = some b ∧ Mapped p l' m b) :
    Backed p l' := by
  have base : l'.dev.b.base = l.dev.b.base := by rw [same.rest]; rfl
  have bi : l'.dev.bi = l.dev.bi := by rw [same.rest]; rfl
  have shelf : onShelf l'.dev = onShelf l.dev := by
    rw [onShelf, bi, same.rest]
    rfl
  refine ⟨?_, ?_, fun m bound never => ?_, fun m bound b mapped elsewhere => ?_⟩
  · rw [shelf, base]
    exact backed.distinct
  · rw [shelf, base, size]
    exact backed.inside
  · rw [size] at bound
    rw [shelf, base]
    rcases entries m bound with old | ⟨b, -, mapped⟩
    · exact backed.unmapped m bound (old ▸ never)
    · exact absurd never mapped.1
  · rw [size] at bound
    rw [shelf, base]
    rcases entries m bound with old | ⟨cur, current, mapped'⟩
    · rw [old]
      exact backed.placed m bound b (by rwa [Mapped, ← old]) (bi ▸ elsewhere)
    · exact absurd (mapped.unique mapped' ▸ current) (bi ▸ elsewhere)

/-! ## Writing the current macroblock -/

section Write

variable (alive : Alive p l.dev) (consistent : Consistent p l) (current : l.dev.bi = some cur)

include alive consistent current

/-- The current macroblock lists on the device what it lists in memory. -/
theorem listed_afterWrite (small : l.noBlockIndices ≤ 2 ^ 32) (m k : ℕ) : Listed p (afterWrite p l.dev cur).b.base cur m k ↔
    k < (l.dev.b.infos cur).noIndices ∧ (l.dev.b.infos cur).indices k = m := by
  obtain ⟨own, entries⟩ := consistent.current cur current
  obtain ⟨-, -, written⟩ := carries_afterWrite alive.toKnown current (consistent.bounded cur own)
  rw [Listed, written]
  change k < (l.dev.b.infos cur).noIndices ∧ (if k < (l.dev.b.infos cur).noIndices then
    (l.dev.b.infos cur).indices k % 2 ^ 32 else 0) = m ↔ _
  refine and_congr_right fun listed => ?_
  have bound := (mem_live.mp (entries k listed)).1
  rw [if_pos listed, Nat.mod_eq_of_lt (bound.trans_le small)]

omit consistent in
theorem mem_onShelf_afterWrite (c : ℕ) : c ∈ onShelf (afterWrite p l.dev cur) ↔ c = cur ∨ c ∈ onShelf l.dev := by
  rw [mem_onShelf, mem_onShelf, current]
  change c ∈ l.dev.j.scheduled ∧ none ≠ some c ↔ _
  by_cases same : c = cur
  · simp [same, (alive.current cur current).1]
  · simp [same, Ne.symm same]

theorem Backed.afterWrite (backed : Backed p l) (small : l.noBlockIndices ≤ 2 ^ 32) :
    Backed p { l with dev := afterWrite p l.dev cur } := by
  obtain ⟨own, entries⟩ := consistent.current cur current
  have listed := listed_afterWrite alive consistent current small
  have shelf := mem_onShelf_afterWrite alive current
  have other {c : ℕ} (different : c ≠ cur) : record p (Blockio.afterWrite p l.dev cur).b.base c = record p l.dev.b.base c :=
    (record_afterWrite l.dev different).2
  have old {c m k : ℕ} (different : c ≠ cur) :
      Listed p (Blockio.afterWrite p l.dev cur).b.base c m k ↔ Listed p l.dev.b.base c m k := by
    rw [Listed, Listed, other different]
  have member {m k : ℕ} (new : Listed p (Blockio.afterWrite p l.dev cur).b.base cur m k) : m ∈ live p l cur := by
    obtain ⟨bound, same⟩ := (listed m k).mp new
    exact same ▸ entries k bound
  have self (i : ℕ) (bound : i < (record p (Blockio.afterWrite p l.dev cur).b.base cur).noIndices) :=
    (listed _ i).mp ⟨bound, rfl⟩
  refine ⟨fun c onShelf => ?_, fun c onShelf => ?_, fun m bound never c onShelf k => ?_, fun m bound b mapped _ => ?_⟩
  · rcases (shelf c).mp onShelf with rfl | before
    · intro i first j second same
      obtain ⟨boundI, entryI⟩ := self i first
      obtain ⟨boundJ, entryJ⟩ := self j second
      exact consistent.distinct c own i boundI j boundJ (entryI.trans (same.trans entryJ.symm))
    · have different : c ≠ cur := fun same => (mem_onShelf.mp before).2 (same ▸ current)
      change ∀ i < (record p (Blockio.afterWrite p l.dev cur).b.base c).noIndices, _
      rw [other different]
      exact backed.distinct c before
  · rcases (shelf c).mp onShelf with rfl | before
    · exact fun i bound => (mem_live.mp (member (k := i) ⟨bound, rfl⟩)).1
    · have different : c ≠ cur := fun same => (mem_onShelf.mp before).2 (same ▸ current)
      change ∀ i < (record p (Blockio.afterWrite p l.dev cur).b.base c).noIndices, _
      rw [other different]
      exact backed.inside c before
  · rcases (shelf c).mp onShelf with rfl | before
    · exact fun new => (mem_live.mp (member new)).2.1 never
    · have different : c ≠ cur := fun same => (mem_onShelf.mp before).2 (same ▸ current)
      exact fun new => backed.unmapped m bound never c before k ((old different).mp new)
  · have mapped : Mapped p l m b := mapped
    by_cases here : b = cur
    · subst here
      obtain ⟨-, position, same⟩ := consistent.placed m bound b mapped
      refine ⟨(shelf b).mpr (.inl rfl), (listed m _).mpr ⟨position, same⟩, fun d onShelf i _ => ?_⟩
      -- the macroblock that was just written has the highest number
      have latest := (alive.output ((writeCurrentMacroblock_eq_ok_iff p).mpr ⟨b, current, by
        rw [(mem_owned.mp own).2]
        exact Option.some_ne_none _, (mem_owned.mp own).1, consistent.bounded b own, rfl⟩))
      change (record p (Blockio.afterWrite p l.dev b).b.base d).seqno ≤ (record p (Blockio.afterWrite p l.dev b).b.base b).seqno
      rw [latest.onShelf_record onShelf, latest.onShelf_record ((shelf b).mpr (.inl rfl)), (afterWrite_infos l.dev b d).1,
        (afterWrite_infos l.dev b b).1, (alive.current b current).2.1]
      exact alive.settled.latest d (mem_onShelf.mp onShelf).1
    · obtain ⟨onShelf, inList, newest⟩ := backed.placed m bound b mapped fun found =>
        here (Option.some.inj (found.symm.trans current))
      refine ⟨(shelf b).mpr (.inr onShelf), (old here).mpr inList, fun d onShelf' i new => ?_⟩
      rcases (shelf d).mp onShelf' with rfl | before
      · exact absurd ((mem_live.mp (member new)).2.unique mapped).symm here
      · have different : d ≠ cur := fun same => (mem_onShelf.mp before).2 (same ▸ current)
        change (record p (Blockio.afterWrite p l.dev cur).b.base d).seqno ≤ (record p (Blockio.afterWrite p l.dev cur).b.base b).seqno
        rw [other different, other here]
        exact newest d before i ((old different).mp new)

/-- The index block that was just written announces as many mesoblocks as there are. -/
theorem announced_afterWrite : announced p (afterWrite p l.dev cur).b.base cur = (blank p l.dev).noBlockIndices := by
  have described := describes_afterWrite alive.toKnown (consistent.bounded cur (consistent.current cur current).1)
  rw [announced, described.noMacroblocks, described.reservedMacroblocks, ← alive.noMacroblocks]
  rfl

theorem Backed.shelved (backed : Backed p l) (sized : l.noBlockIndices = (blank p l.dev).noBlockIndices)
    (addressable : ∀ b ∈ owned p l.dev, Addressable p (b + 1))
    (vacant : ∀ t, l.dev.j.getObsoleted l.dev.b.infos = some t → live p l t = ∅) :
    Shelved p (Blockio.afterWrite p l.dev cur).b.base := by
  have capacity := consistent.bounded cur (consistent.current cur current).1
  have backed' := backed.afterWrite alive consistent current (sized.trans_le (blank_noBlockIndices_lt p l.dev).le)
  obtain ⟨j, infos, blocks, reserved, onDisk, behind, -⟩ := alive.disk
  have picture := onDisk.afterWrite alive.toKnown behind current capacity
  have shelf {c : ℕ} (member : c ∈ headers p (Blockio.afterWrite p l.dev cur).b.base) :
      c ∈ onShelf (Blockio.afterWrite p l.dev cur) :=
    mem_onShelf.mpr ⟨(picture.mem_headers c).mp member, nofun⟩
  have isCur {top : ℕ} (highest : Highest p (Blockio.afterWrite p l.dev cur).b.base
      (headers p (Blockio.afterWrite p l.dev cur).b.base) top) : top = cur := by
    obtain ⟨listed, seqno⟩ := picture.top_seqno highest
    obtain ⟨listed', seqno', -⟩ := alive.current cur current
    exact alive.settled.distinct top listed cur listed' (seqno.trans seqno'.symm)
  have announces := announced_afterWrite alive consistent current
  refine ⟨fun c member => backed'.distinct c (shelf member), fun top highest c member i bound => ?_,
    fun top highest i bound used => ?_, fun top highest t member next m k newest => ?_⟩
  · rw [isCur highest, announces, ← sized]
    exact backed'.inside c (shelf member) i bound
  · rw [isCur highest] at used
    exact addressable i (((describes_afterWrite alive.toKnown capacity).used i bound).mp used)
  · have scheduled := (picture.mem_headers t).mp member
    obtain ⟨-, -, seqno, nextSeqno⟩ := picture.carried t scheduled
    obtain ⟨listed, last⟩ := picture.top_seqno highest
    rw [nextSeqno, (picture.carried top listed).2.2.1, last] at next
    -- the macroblock is the first of the schedule
    have first : l.dev.j.getObsoleted l.dev.b.infos = some t := by
      obtain ⟨head, rest, split⟩ := List.exists_cons_of_ne_nil (List.ne_nil_of_mem scheduled)
      have future := alive.settled.future head (by simp [split])
      have same : head = t := by
        by_contra different
        have sorted := alive.settled.sorted
        rw [split] at sorted scheduled
        have inRest := (List.mem_cons.mp scheduled).resolve_left (Ne.symm different)
        have later := (List.pairwise_cons.mp sorted).1 t inRest
        simp only [Juggler.due] at later future
        omega
      exact Juggler.getObsoleted_eq_some_iff.mpr ⟨rest, same ▸ split, next⟩
    have bound : m < l.noBlockIndices := by
      rw [← newest.2.1.2]
      exact backed'.inside t (shelf member) k newest.2.1.1
    by_cases never : l.blockIndices m = noIndex
    · exact backed'.unmapped m bound never t (shelf member) k newest.2.1
    · obtain ⟨onShelf', inList, upper⟩ := backed'.placed m bound _ ⟨never, rfl⟩ nofun
      have below := upper t (shelf member) k newest.2.1
      have above := newest.2.2 _ ((picture.mem_headers _).mpr (mem_onShelf.mp onShelf').1) _ inList
      have same : indexId p (l.blockIndices m) = t := by
        have listed' := (mem_onShelf.mp onShelf').1
        refine alive.settled.distinct _ listed' t scheduled ?_
        rw [← (picture.carried _ listed').2.2.1, ← seqno]
        exact le_antisymm above below
      have inside : m ∈ live p l t := mem_live.mpr ⟨bound, never, same⟩
      rw [vacant t first] at inside
      exact absurd inside (Finset.notMem_empty m)

end Write

/-! ## Selecting the next macroblock -/

/-- The macroblock that is handed out is taken from the shelf. -/
theorem Backed.select (backed : Backed p l) {next : ℕ} {j : Juggler} {infos : BlockioInfos}
    (handout : Juggler.Handout l.dev.j l.dev.b.infos next j infos) (none : l.dev.bi = none) (updated : Bool) (tail : Option ℕ) :
    Backed p { l with
      dev := { l.dev with updated, bi := some next, j, tailMacroblock := tail, b := { l.dev.b with infos } } } := by
  set l' : Partition := { l with
    dev := { l.dev with updated, bi := some next, j, tailMacroblock := tail, b := { l.dev.b with infos } } } with l'Eq
  have shelf (c : ℕ) : c ∈ onShelf l'.dev ↔ c ≠ next ∧ c ∈ onShelf l.dev := by
    rw [mem_onShelf, mem_onShelf, none]
    change c ∈ j.scheduled ∧ some next ≠ some c ↔ _
    by_cases same : c = next
    · simp [same]
    · rw [handout.scheduled_iff same]
      simp [same, Ne.symm same]
  refine ⟨fun c member => backed.distinct c ((shelf c).mp member).2, fun c member => backed.inside c ((shelf c).mp member).2,
    fun m bound never c member => backed.unmapped m bound never c ((shelf c).mp member).2, fun m bound b mapped elsewhere => ?_⟩
  obtain ⟨member, inList, newest⟩ := backed.placed m bound b mapped (by rw [none]; exact nofun)
  refine ⟨(shelf b).mpr ⟨fun same => elsewhere (congrArg some same.symm), member⟩, inList,
    fun d member' => newest d ((shelf d).mp member').2⟩

end Scubed3.Partition
