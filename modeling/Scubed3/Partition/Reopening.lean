import Scubed3.Device.Open
import Scubed3.Partition.Turning

/-! # Opening a partition again

Opening reads the table back from the index blocks. When everything in memory was written, `Saved`, every mesoblock has
the same contents afterwards.
-/

namespace Scubed3.Blockio

variable {p : Params}

/-- Between two macroblocks all index blocks are up to date. -/
theorem Alive.mem_headers {dev : BlockioDev} (alive : Alive p dev) (idle : dev.bi = none) (c : ℕ) :
    c ∈ headers p dev.b.base ↔ c ∈ dev.j.scheduled := by
  obtain ⟨j, infos, blocks, reserved, onDisk, behind, -⟩ := alive.disk
  rw [onDisk.mem_headers]
  exact (behind.same c (by rw [idle]; exact nofun)).1.symm

theorem Alive.onShelf_eq {dev : BlockioDev} (alive : Alive p dev) (idle : dev.bi = none) :
    onShelf dev = headers p dev.b.base := by
  ext c
  rw [alive.mem_headers idle, mem_onShelf, idle]
  exact and_iff_left nofun

/-- They carry the sequence numbers that are in memory, and the newest of them carries the counter. -/
theorem Alive.numbers {dev : BlockioDev} (alive : Alive p dev) (idle : dev.bi = none) {c : ℕ} (member : c ∈ headers p dev.b.base) :
    (record p dev.b.base c).seqno = (dev.b.infos c).seqno ∧ (record p dev.b.base c).nextSeqno = (dev.b.infos c).nextSeqno ∧
      (Highest p dev.b.base (headers p dev.b.base) c → (dev.b.infos c).seqno = dev.j.seqno) := by
  obtain ⟨j, infos, blocks, reserved, onDisk, behind, -⟩ := alive.disk
  have listed := (onDisk.mem_headers c).mp member
  obtain ⟨-, numbers⟩ := behind.same c (by rw [idle]; exact nofun)
  obtain ⟨-, -, seqno, nextSeqno⟩ := onDisk.carried c listed
  rw [seqno, nextSeqno, (numbers listed).1, (numbers listed).2, behind.counter, if_pos idle]
  exact ⟨rfl, rfl, fun highest => (onDisk.top_seqno highest).2⟩

end Scubed3.Blockio

namespace Scubed3.Partition

open Blockio

variable {p : Params} {l l' : Partition} {cur : ℕ}

/-! ## What is saved -/

/-- The device alone says what every mesoblock contains. -/
structure Saved (p : Params) (l : Partition) : Prop where
  newest : ∀ m < l.noBlockIndices, ∀ c k, (Mapped p l m c ∧ indexNo p (l.blockIndices m) = k) ↔
    Newest p l.dev.b.base (headers p l.dev.b.base) c m k
  elsewhere : ∀ b, l.dev.bi = some b → live p l b = ∅
  described : ∀ top, Highest p l.dev.b.base (headers p l.dev.b.base) top →
    Binio.readUint32Be (header p l.dev.b.base top) noMacroblocksUint32 = l.dev.noMacroblocks ∧
      Binio.readUint32Be (header p l.dev.b.base top) reservedBlocksUint32 = l.dev.reservedMacroblocks
  written : headers p l.dev.b.base = ∅ → l.dev.noMacroblocks = 0 ∧ l.dev.reservedMacroblocks = 0

/-- Two newest macroblocks that list a mesoblock are the same. -/
theorem Between.newest_iff (between : Between p l) {m : ℕ} (bound : m < l.noBlockIndices) (c k : ℕ) :
    (Mapped p l m c ∧ indexNo p (l.blockIndices m) = k) ↔ Newest p l.dev.b.base (headers p l.dev.b.base) c m k := by
  have shelf := between.alive.onShelf_eq between.none
  constructor
  · rintro ⟨mapped, rfl⟩
    exact shelf ▸ between.backed.placed m bound c mapped (by rw [between.none]; exact nofun)
  · rintro ⟨member, listed, upper⟩
    by_cases never : l.blockIndices m = noIndex
    · exact absurd listed (between.backed.unmapped m bound never c (shelf ▸ member) k)
    obtain ⟨member', listed', upper'⟩ := between.backed.placed m bound _ ⟨never, rfl⟩ (by rw [between.none]; exact nofun)
    rw [shelf] at member'
    have same : indexId p (l.blockIndices m) = c := by
      refine between.known.settled.distinct _ ((between.alive.mem_headers between.none _).mp member') c
        ((between.alive.mem_headers between.none c).mp member) ?_
      rw [← (between.alive.numbers between.none member').1, ← (between.alive.numbers between.none member).1]
      exact le_antisymm (upper _ member' _ listed') (upper' c (shelf ▸ member) k listed)
    subst same
    exact ⟨⟨never, rfl⟩, between.backed.distinct _ (shelf ▸ member) _ listed'.1 k listed.1 (listed'.2.trans listed.2.symm)⟩

/-- After the current macroblock was written everything is saved. -/
theorem Intact.saved_flush (intact : Intact p l) (current : l.dev.bi = some cur) (vacant : Vacant p l) : Saved p (flushed p l cur) := by
  obtain ⟨-, between, -⟩ := intact.flush current vacant
  have listed := (intact.known.current cur current).1
  refine ⟨fun m bound c k => between.newest_iff bound c k, nofun, fun top highest => ?_, fun empty => ?_⟩
  · have same : top = cur := by
      have member := (between.alive.mem_headers between.none top).mp highest.1
      have seqno := (between.alive.numbers between.none highest.1).2.2 highest
      refine intact.known.settled.distinct top member cur listed ?_
      rw [(intact.known.current cur current).2.1, ← (afterWrite_infos (p := p) l.dev cur top).1]
      exact seqno
    have described := describes_afterWrite intact.known (intact.bounded cur (intact.current cur current).1)
    rw [same]
    exact ⟨described.noMacroblocks.trans intact.known.noMacroblocks.symm, described.reservedMacroblocks⟩
  · have member := (between.alive.mem_headers between.none cur).mpr listed
    rw [empty] at member
    exact absurd member (Finset.notMem_empty cur)

/-- Selecting the next macroblock leaves everything saved. -/
theorem Saved.select (saved : Saved p l) (between : Between p l) {dev : BlockioDev} {fuel : ℕ} {tape rest : List ℕ}
    (ran : (selectNextMacroblock fuel l.dev).run tape = .done dev rest) : Saved p { l with dev } := by
  obtain ⟨next, fresh, -⟩ := between.select ran
  obtain ⟨-, id, j, infos, -, -, -, rfl⟩ := selectNext_done ran
  refine ⟨saved.newest, fun b found => ?_, saved.described, saved.written⟩
  obtain rfl := Option.some.inj (fresh.bi.symm.trans found)
  exact fresh.toConsistent.live_eq_empty fresh.blank

/-- What is saved can be read from the device with what is on the device. -/
theorem Saved.content (saved : Saved p l) (intact : Intact p l) {m : ℕ} (bound : m < l.noBlockIndices) :
    content p l m = if l.blockIndices m = noIndex then fun _ => 0 else
      p.c.dec ((record p l.dev.b.base (indexId p (l.blockIndices m))).seqno, indexNo p (l.blockIndices m) + 1,
          indexId p (l.blockIndices m))
        (Memory.slice l.dev.b.base (indexId p (l.blockIndices m) * p.macroblockSize +
          (indexNo p (l.blockIndices m) + 1) * p.mesoblkSize) p.mesoblkSize) := by
  by_cases never : l.blockIndices m = noIndex
  · rw [content_unmapped never, if_pos never]
  · have elsewhere : l.dev.bi ≠ some (indexId p (l.blockIndices m)) := by
      intro current
      have member : m ∈ live p l (indexId p (l.blockIndices m)) := mem_live.mpr ⟨bound, never, rfl⟩
      rw [saved.elsewhere _ current] at member
      exact absurd member (Finset.notMem_empty m)
    rw [content_disk ⟨never, rfl⟩ elsewhere, if_neg never, readMesoblk,
      intact.alive.onShelf_record (intact.backed.placed m bound _ ⟨never, rfl⟩ elsewhere).1]

/-- Two partitions that are saved on the same device have the same contents. -/
theorem Saved.kept (saved : Saved p l) (intact : Intact p l) (saved' : Saved p l') (intact' : Intact p l')
    (base : l'.dev.b.base = l.dev.b.base) (owned : owned p l'.dev = owned p l.dev) : Kept p l l' := by
  have fields : l'.dev.noMacroblocks = l.dev.noMacroblocks ∧ l'.dev.reservedMacroblocks = l.dev.reservedMacroblocks := by
    by_cases empty : headers p l.dev.b.base = ∅
    · obtain ⟨count, reserved⟩ := saved.written empty
      obtain ⟨count', reserved'⟩ := saved'.written (base ▸ empty)
      exact ⟨count'.trans count.symm, reserved'.trans reserved.symm⟩
    · obtain ⟨top, highest⟩ : ∃ top, Highest p l.dev.b.base (headers p l.dev.b.base) top :=
        exists_top (Finset.nonempty_iff_ne_empty.mpr empty)
      obtain ⟨count, reserved⟩ := saved.described top highest
      obtain ⟨count', reserved'⟩ := saved'.described top (base ▸ highest)
      rw [base] at count' reserved'
      exact ⟨count'.symm.trans count, reserved'.symm.trans reserved⟩
  have size : l'.noBlockIndices = l.noBlockIndices := by
    rw [intact.sized, intact'.sized, blank, blank, fields.1, fields.2]
  have entries (m : ℕ) (bound : m < l.noBlockIndices) : l'.blockIndices m = l.blockIndices m := by
    have bound' : m < l'.noBlockIndices := size.symm ▸ bound
    have newest := saved.newest m bound
    have newest' := saved'.newest m bound'
    rw [base] at newest'
    by_cases never : l.blockIndices m = noIndex
    · by_contra mapped
      rw [never] at mapped
      exact ((newest _ _).mpr ((newest' _ _).mp ⟨⟨mapped, rfl⟩, rfl⟩)).1.1 never
    · obtain ⟨⟨-, id⟩, no⟩ := (newest' _ _).mpr ((newest _ _).mp ⟨⟨never, rfl⟩, rfl⟩)
      rw [← index_eq (p := p) (l'.blockIndices m), id, no, index_eq]
  refine ⟨size, fun m bound => ?_, fun m bound => by rw [entries m bound], owned, fields.1, fields.2⟩
  rw [saved.content intact bound, saved'.content intact' (size.symm ▸ bound), entries m bound, base]

/-! ## Opening -/

section Open

variable {b : Blockio} {addr reserved : ℕ} {dev : BlockioDev} {j : Juggler} {infos : BlockioInfos} {blocks : Finset ℕ}
  {missing : Bool}

/-- On a closed device the index blocks of ours belong to nobody. -/
theorem ours_eq_headers (onDisk : OnDisk p b.base j infos blocks reserved) (untaken : ∀ c ∈ blocks, (b.infos c).dev = none) :
    ours p b = headers p b.base := by
  ext c
  rw [onDisk.mem_ours untaken, onDisk.mem_headers]

/-- They make sense. -/
theorem sensible_of_shelved (onDisk : OnDisk p b.base j infos blocks reserved) (untaken : ∀ c ∈ blocks, (b.infos c).dev = none)
    (shelved : Shelved p b.base) : Sensible p b := by
  have same := ours_eq_headers onDisk untaken
  have listed {c : ℕ} (member : c ∈ ours p b) : c ∈ j.scheduled := (onDisk.mem_ours untaken c).mp member
  refine ⟨fun c member => (onDisk.carried c (listed member)).2.1, fun c member d member' numbers => ?_,
    fun c member => shelved.distinct c (same ▸ member), fun top highest c member => ?_⟩
  · rw [(onDisk.carried c (listed member)).2.2.1, (onDisk.carried d (listed member')).2.2.1] at numbers
    exact onDisk.distinct c (listed member) d (listed member') numbers
  · rw [same] at highest member
    exact shelved.inside top highest c member

/-- All macroblocks of the partition have positions that can be stored. -/
theorem addressable_of_shelved (onDisk : OnDisk p b.base j infos blocks reserved) (shelved : Shelved p b.base) {c : ℕ}
    (member : c ∈ blocks) : Addressable p (c + 1) := by
  have nonempty : j.scheduled ≠ [] := fun empty => by simp [onDisk.start empty] at member
  obtain ⟨first, listed⟩ := List.exists_mem_of_ne_nil _ nonempty
  obtain ⟨top, highest⟩ : ∃ top, Highest p b.base (headers p b.base) top :=
    exists_top ⟨first, (onDisk.mem_headers first).mpr listed⟩
  obtain ⟨scheduled, last⟩ := onDisk.top_seqno highest
  have bound := (onDisk.bounded c member).trans_le p.sound.total_le
  exact shelved.addressable top highest c bound (((onDisk.described top scheduled last).used c bound).mpr member)

/-- What `scubed3_init` reads back is intact and saved. -/
theorem between_of_init (inventory : Inventory p b addr dev) (coherent : Coherent p b)
    (onDisk : OnDisk p b.base j infos blocks reserved) (untaken : ∀ c ∈ blocks, (b.infos c).dev = none)
    (fresh : ∀ c, (b.infos c).dev ≠ some addr) (logged : Logged p b.written j.seqno) (shelved : Shelved p b.base)
    (ran : init p dev = .ok (l, missing)) : Between p l ∧ Saved p l ∧ l.dev.b.base = b.base ∧ owned p l.dev = blocks := by
  have sensible := sensible_of_shelved onDisk untaken shelved
  have same := ours_eq_headers onDisk untaken
  have blocksOf {c : ℕ} (member : c ∈ ours p b) : c ∈ blocks :=
    onDisk.mem_of_scheduled ((onDisk.mem_ours untaken c).mp member)
  obtain ⟨alive, idle, -, count, reserved'⟩ := Control.alive_of_init inventory coherent onDisk untaken fresh logged ran
  obtain ⟨restored, size, device, others⟩ := inventory.init_restored sensible
    (fun c member => addressable_of_shelved onDisk shelved (blocksOf member)) ran
  have base : l.dev.b.base = b.base := by
    have kept := device.rest
    exact (congrArg (fun d => d.b.base) kept).trans inventory.base
  have own : owned p l.dev = blocks := by
    rw [← inventory.owned_eq onDisk untaken fresh]
    exact owned_congr ((congrArg BlockioDev.self device.rest).trans rfl) fun c => (device.infos c).2.2
  have found (c : ℕ) : c ∈ headers p l.dev.b.base ↔ c ∈ ours p b := by rw [base, same]
  -- a macroblock without an index block of ours was never written
  have unwritten {c : ℕ} (member : c ∈ blocks) (other : c ∉ ours p b) :
      (l.dev.b.infos c).noIndices = 0 ∧ (l.dev.b.infos c).noNonobsolete = 0 := by
    have claimed := (inventory.mem_unscheduled onDisk untaken c).mpr ⟨member, fun listed =>
      other ((onDisk.mem_ours untaken c).mpr listed)⟩
    rw [others c other, inventory.info_claimed c claimed]
    exact ⟨rfl, rfl⟩
  have liveOurs {m c : ℕ} (member : m ∈ live p l c) : c ∈ ours p b := by
    obtain ⟨bound, mapped⟩ := mem_live.mp member
    exact ((restored.newest m bound c _).mp ⟨mapped, rfl⟩).1
  have short {c : ℕ} (member : c ∈ ours p b) : (l.dev.b.infos c).noIndices ≤ (record p b.base c).noIndices := by
    rw [restored.noIndices c member]
    split
    · exact Nat.zero_le _
    · exact le_rfl
  have consistent : Consistent p l := by
    refine ⟨restored.index_lt, fun c member => ?_, fun c member => ?_, fun m bound c mapped => ?_, fun c current => ?_,
      fun c member _ => ?_⟩
    · by_cases inOurs : c ∈ ours p b
      · exact (short inOurs).trans (sensible.parses c inOurs).capacity
      · rw [(unwritten (own ▸ member) inOurs).1]
        exact Nat.zero_le _
    · by_cases inOurs : c ∈ ours p b
      · rw [restored.indices c inOurs]
        exact fun i first k second => sensible.distinct c inOurs i (first.trans_le (short inOurs)) k (second.trans_le (short inOurs))
      · rw [(unwritten (own ▸ member) inOurs).1]
        exact fun i first => absurd first (Nat.not_lt_zero i)
    · obtain ⟨inOurs, listed, -⟩ := (restored.newest m bound c _).mp ⟨mapped, rfl⟩
      have some : live p l c ≠ ∅ := Finset.ne_empty_of_mem (mem_live.mpr ⟨bound, mapped⟩)
      rw [own, restored.noIndices c inOurs, if_neg some, restored.indices c inOurs]
      exact ⟨blocksOf inOurs, listed.1, listed.2⟩
    · exact nomatch idle.symm.trans current
    · by_cases inOurs : c ∈ ours p b
      · exact restored.noNonobsolete c inOurs
      · rw [(unwritten (own ▸ member) inOurs).2, eq_comm, Finset.card_eq_zero]
        exact Finset.eq_empty_of_forall_notMem fun m inside => inOurs (liveOurs inside)
  have sized : l.noBlockIndices = (blank p l.dev).noBlockIndices := by
    rw [size, blank, blank, count, reserved']
  have shelf := alive.onShelf_eq idle
  have newest (m : ℕ) (bound : m < l.noBlockIndices) (c k : ℕ) : (Mapped p l m c ∧ indexNo p (l.blockIndices m) = k) ↔
      Newest p l.dev.b.base (headers p l.dev.b.base) c m k := by
    rw [restored.newest m bound c k, base, same]
  have vacant : Vacant p l := by
    intro t first
    obtain ⟨rest, scheduled, due⟩ := Juggler.getObsoleted_eq_some_iff.mp first
    have member := (alive.mem_headers idle t).mpr (by simp [scheduled])
    obtain ⟨top, highest⟩ : ∃ top, Highest p l.dev.b.base (headers p l.dev.b.base) top := exists_top ⟨t, member⟩
    have next : (record p l.dev.b.base t).nextSeqno = (record p l.dev.b.base top).seqno + 1 := by
      rw [(alive.numbers idle member).2.1, (alive.numbers idle highest.1).1, (alive.numbers idle highest.1).2.2 highest]
      exact due
    refine Finset.eq_empty_of_forall_notMem fun m inside => ?_
    obtain ⟨bound, mapped⟩ := mem_live.mp inside
    have isNewest := (newest m bound t _).mp ⟨mapped, rfl⟩
    rw [base] at highest member next isNewest
    exact shelved.vacant top highest t member next m _ isNewest
  have inside (c : ℕ) (member : c ∈ headers p l.dev.b.base) (i : ℕ) (bound : i < (record p l.dev.b.base c).noIndices) :
      (record p l.dev.b.base c).indices i < l.noBlockIndices := by
    obtain ⟨top, highest⟩ : ∃ top, Highest p l.dev.b.base (headers p l.dev.b.base) top := exists_top ⟨c, member⟩
    rw [base] at highest member bound ⊢
    rw [size, inventory.blank_noBlockIndices (same ▸ highest)]
    exact shelved.inside top highest c member i bound
  refine ⟨⟨⟨consistent, alive, sized, fun c member => addressable_of_shelved onDisk shelved (own ▸ member),
    fun c member _ none => ?_, fun c member => ?_, fun c current => (nomatch idle.symm.trans current),
    ⟨?_, ?_, fun m bound never c member k listed => ?_, fun m bound c mapped _ => ?_⟩, base ▸ shelved⟩, idle, vacant⟩,
    ⟨newest, fun c current => (nomatch idle.symm.trans current), fun top highest => ?_, fun empty => ?_⟩, base, own⟩
  · by_cases inOurs : c ∈ ours p b
    · rw [restored.noIndices c inOurs, if_pos none]
    · exact (unwritten (own ▸ member) inOurs).1
  · have settled := alive.settled
    refine (unwritten (own ▸ settled.mem_of_unscheduled member) fun inOurs => ?_).1
    have scheduled := (alive.mem_headers idle c).mp ((found c).mpr inOurs)
    exact List.disjoint_of_nodup_append settled.nodup scheduled member
  · rw [shelf, base]
    exact shelved.distinct
  · rw [shelf]
    exact inside
  · exact (restored.never m bound).mp never c ((found c).mp (shelf ▸ member)) k (base ▸ listed)
  · exact shelf ▸ (newest m bound c _).mp ⟨mapped, rfl⟩
  · have summarized := inventory.summary top (same ▸ (base ▸ highest).1) (same ▸ (base ▸ highest).2)
    rw [base, count, reserved']
    exact ⟨summarized.noMacroblocks.symm, summarized.reservedMacroblocks.symm⟩
  · rw [count, reserved']
    rw [base, ← same] at empty
    exact ⟨(inventory.empty empty).1, (inventory.empty empty).2.1⟩

/-- The replay sets no flag. -/
theorem replay_flags (l : Partition) (order : List ℕ) : (order.foldlM (replay p) l).Yields fun l' =>
    l'.outputInitialized = l.outputInitialized ∧ l'.dev.updated = l.dev.updated := by
  refine .foldlM (I := fun _ (l' : Partition) => l'.outputInitialized = l.outputInitialized ∧ l'.dev.updated = l.dev.updated)
    ⟨rfl, rfl⟩ fun _ bi _ l₁ _ same => ?_
  refine .foldlM (I := fun _ (l' : Partition) => l'.outputInitialized = l.outputInitialized ∧ l'.dev.updated = l.dev.updated)
    same fun _ k _ (l₂ : Partition) _ same => ?_
  unfold replayMesoblk
  dsimp only
  split
  · exact .pure same
  · refine .bind (m := fun _ => True) (.yields fun _ _ => trivial) fun _ _ => ?_
    refine .bind (m := fun (l' : Partition) => l'.outputInitialized = l.outputInitialized ∧ l'.dev.updated = l.dev.updated) ?_
      fun _ same' => .pure same'
    unfold obsoleteMesoblkByidx
    split
    · refine .yields fun l' ran => ?_
      obtain ⟨-, rfl⟩ := obsoleteMesoblk_eq_ok_iff.mp ran
      exact same
    · exact .pure same

theorem init_flags (ran : init p dev = .ok (l, missing)) : l.outputInitialized = false ∧ l.dev.updated = dev.updated := by
  have started := init_eq_ok_iff.mp ran
  split at started
  · cases started
    exact ⟨rfl, rfl⟩
  · obtain ⟨l', replayed, j', -, same⟩ := started
    cases same
    exact (replay_flags _ _).value l' replayed

/-- A partition that is opened is tidy, and everything is saved. -/
theorem tidy_of_opened {fuel : ℕ} {add : Bool} {entry : Entry} {tape rest : List ℕ} (shut : Shut p b)
    (shelved : Shelved p b.base) (fresh : ∀ c, (b.infos c).dev ≠ some addr)
    (ran : (Control.openCreateCommon p fuel b addr add).run tape = .done (.opened entry missing) rest) :
    Tidy p entry.l ∧ Saved p entry.l ∧ entry.l.dev.b.base = b.base ∧ entry.l.dev.updated = false ∧ entry.inuse = false := by
  obtain ⟨j, infos, blocks, reserved, onDisk, untaken, logged⟩ := shut.disk
  obtain ⟨dev, l, found, -, started, -, -, inuse, same, selected⟩ := Control.openCreateCommon_opened ran
  have inventory := (devInit_yields b addr).value dev found
  obtain ⟨between, saved, base, -⟩ := between_of_init inventory shut.coherent onDisk untaken fresh logged shelved started
  obtain ⟨output, updated⟩ := init_flags started
  rw [inventory.idle.2.2] at updated
  rw [same]
  split at selected
  · obtain ⟨next, chosen, -⟩ := between.select selected
    have saved' := saved.select between selected
    obtain ⟨-, _, _, _, -, -, -, dev'⟩ := selectNext_done selected
    refine ⟨.fresh chosen output, saved', ?_, ?_, inuse⟩
    · change entry.l.dev.b.base = b.base
      rw [dev']
      exact base
    · change entry.l.dev.updated = false
      rw [dev']
  · rw [selected]
    exact ⟨.between between output, saved, base, updated, inuse⟩

/-- Every macroblock of the picture is marked, so `blockio_dev_init` finds as many as it should. -/
theorem complete_of_onDisk (onDisk : OnDisk p b.base j infos blocks reserved) (untaken : ∀ c ∈ blocks, (b.infos c).dev = none)
    {top : ℕ} (highest : Highest p b.base (ours p b) top) : Complete p b top := by
  rw [ours_eq_headers onDisk untaken] at highest
  obtain ⟨scheduled, last⟩ := onDisk.top_seqno highest
  obtain ⟨used, count, -⟩ := onDisk.described top scheduled last
  refine ⟨fun i bound marked => ?_, ?_⟩
  · have member := (used i bound).mp marked
    exact ⟨onDisk.bounded i member, untaken i member⟩
  · have subset : ours p b ⊆ blocks := fun c member => onDisk.mem_of_scheduled ((onDisk.mem_ours untaken c).mp member)
    have rest : (Finset.range p.b.maxMacroblocks).filter (fun i => i ∉ ours p b ∧
        ((Bitmap.init p.b.maxMacroblocks).read (header p b.base top) p.b.bitmapOffset).used i = true) = blocks \ ours p b := by
      ext c
      rw [Finset.mem_filter, Finset.mem_range, Finset.mem_sdiff]
      constructor
      · exact fun ⟨bound, other, marked⟩ => ⟨(used c bound).mp marked, other⟩
      · intro ⟨member, other⟩
        have bound := (onDisk.bounded c member).trans_le p.sound.total_le
        exact ⟨bound, other, (used c bound).mpr member⟩
    rw [rest, count, Finset.card_sdiff_of_subset subset, Nat.add_sub_cancel' (Finset.card_le_card subset)]

/-- A partition that was written can always be opened again. -/
theorem open_safe {fuel : ℕ} (shut : Shut p b) (shelved : Shelved p b.base) (fresh : ∀ c, (b.infos c).dev ≠ some addr)
    (written : headers p b.base ≠ ∅) : Draw.Safe (Control.openPartition p fuel b addr) fun opened => ∃ entry missing,
      opened = .opened entry missing := by
  obtain ⟨j, infos, blocks, reserved, onDisk, untaken, logged⟩ := shut.disk
  have sensible := sensible_of_shelved onDisk untaken shelved
  have same := ours_eq_headers onDisk untaken
  obtain ⟨dev, found, inventory⟩ := (devInit_returns shut.coherent sensible
    (fun _ highest => complete_of_onDisk onDisk untaken highest) addr).exists_ok
  have blocksOf {c : ℕ} (member : c ∈ ours p b) : c ∈ blocks :=
    onDisk.mem_of_scheduled ((onDisk.mem_ours untaken c).mp member)
  obtain ⟨l, missing, started⟩ := inventory.init_returns sensible
    (fun c member => addressable_of_shelved onDisk shelved (blocksOf member)) fun c member d member' numbers => by
      have listed := (onDisk.mem_ours untaken c).mp member
      have listed' := (onDisk.mem_ours untaken d).mp member'
      rw [(onDisk.carried c listed).2.2.2, (onDisk.carried d listed').2.2.2] at numbers
      by_contra different
      exact onDisk.sorted.key_ne listed listed' different numbers
  obtain ⟨between, -, -, own⟩ := between_of_init inventory shut.coherent onDisk untaken fresh logged shelved started
  obtain ⟨top, member⟩ := Finset.nonempty_iff_ne_empty.mpr written
  rw [← same] at member
  have some : (owned p l.dev).Nonempty := own ▸ ⟨top, blocksOf member⟩
  have positive : dev.noMacroblocks ≠ 0 := by
    have count := inventory.count ⟨top, member⟩
    have := Finset.card_pos.mpr ⟨top, member⟩
    omega
  unfold Control.openPartition Control.openCreateCommon
  refine .bind (.lift_ok found rfl) fun dev' foundSame => ?_
  subst foundSame
  rw [if_neg (by simp), if_neg (by simpa using positive)]
  refine .bind (.lift_ok started rfl) fun r startedSame => ?_
  subst startedSame
  refine .bind (.lift_ok (check_of _ _ between.none) (q := fun _ => True) trivial) fun _ _ => ?_
  refine .bind (m := fun _ => True) ?_ fun _ _ => .pure ⟨_, _, rfl⟩
  generalize (if dev.noMacroblocks > dev.reservedMacroblocks then
    Control.entrySize p dev.noMacroblocks dev.reservedMacroblocks else 0) = size
  split
  · exact (between.known.select_safe fuel between.none some).imp fun _ _ => trivial
  · exact .pure trivial

end Open

end Scubed3.Partition
