import Scubed3.Opening.Replay
import Mathlib.Data.Finset.Max

/-! # Where opening finds every mesoblock

The replay list is sorted on the sequence numbers, so what opening leaves does not depend on where the macroblocks are on
the device: every mesoblock is in the newest macroblock whose index block lists it.
-/

namespace Scubed3.Blockio

open Scubed3.Partition

/-! ## What is found on the device -/

/-- The index block of `c` lists mesoblock `m` at position `k`. -/
def Listed (p : Params) (base : Bytes) (c m k : ℕ) : Prop :=
  k < (record p base c).noIndices ∧ (record p base c).indices k = m

/-- No macroblock of `found` is newer than `top`. -/
def Highest (p : Params) (base : Bytes) (found : Finset ℕ) (top : ℕ) : Prop :=
  top ∈ found ∧ ∀ c ∈ found, (record p base c).seqno ≤ (record p base top).seqno

/-- Of the macroblocks of `found` that list mesoblock `m`, `c` is the newest; it has it at position `k`. -/
def Newest (p : Params) (base : Bytes) (found : Finset ℕ) (c m k : ℕ) : Prop :=
  c ∈ found ∧ Listed p base c m k ∧
    ∀ d ∈ found, ∀ i, Listed p base d m i → (record p base d).seqno ≤ (record p base c).seqno

/-- The number of mesoblocks of a partition that is described by the index block of `top`. -/
def announced (p : Params) (base : Bytes) (top : ℕ) : ℕ :=
  let no := Binio.readUint32Be (header p base top) noMacroblocksUint32
  let reserved := Binio.readUint32Be (header p base top) reservedBlocksUint32
  if no ≤ reserved then 0 else usableMesoblks p no reserved

/-- The index blocks of ours are such as the program writes. -/
structure Sensible (p : Params) (b : Blockio) : Prop where
  parses : ∀ c ∈ ours p b, Parses p (header p b.base c)
  seqnos : ∀ c ∈ ours p b, ∀ d ∈ ours p b, (record p b.base c).seqno = (record p b.base d).seqno → c = d
  distinct : ∀ c ∈ ours p b, ∀ i < (record p b.base c).noIndices, ∀ j < (record p b.base c).noIndices,
    (record p b.base c).indices i = (record p b.base c).indices j → i = j
  inside : ∀ top, Highest p b.base (ours p b) top →
    ∀ c ∈ ours p b, ∀ i < (record p b.base c).noIndices, (record p b.base c).indices i < announced p b.base top

/-- The table and the counters are what the index blocks of ours say. -/
structure Restored (p : Params) (b : Blockio) (l : Partition) : Prop where
  index_lt : ∀ m, l.blockIndices m < 2 ^ 32
  indices : ∀ c ∈ ours p b, (l.dev.b.infos c).indices = (record p b.base c).indices
  newest : ∀ m < l.noBlockIndices, ∀ c k,
    (Mapped p l m c ∧ indexNo p (l.blockIndices m) = k) ↔ Newest p b.base (ours p b) c m k
  never : ∀ m < l.noBlockIndices, (l.blockIndices m = noIndex ↔ ∀ c ∈ ours p b, ∀ k, ¬ Listed p b.base c m k)
  noNonobsolete : ∀ c ∈ ours p b, (l.dev.b.infos c).noNonobsolete = (live p l c).card
  noIndices : ∀ c ∈ ours p b, (l.dev.b.infos c).noIndices = if live p l c = ∅ then 0 else (record p b.base c).noIndices

variable {p : Params} {b : Blockio} {addr : ℕ} {dev : BlockioDev} {l : Partition}

/-- One of the index blocks of ours is the newest. -/
theorem exists_top {base : Bytes} {found : Finset ℕ} (nonempty : found.Nonempty) : ∃ top, Highest p base found top :=
  found.exists_max_image (fun c => (record p base c).seqno) nonempty

theorem Inventory.blank_noBlockIndices (inventory : Inventory p b addr dev) {top : ℕ} (isTop : Highest p b.base (ours p b) top) :
    (blank p dev).noBlockIndices = announced p b.base top := by
  have summarized := inventory.summary top isTop.1 isTop.2
  rw [blank, announced, summarized.noMacroblocks, summarized.reservedMacroblocks]

theorem Inventory.replayable (inventory : Inventory p b addr dev) (sensible : Sensible p b)
    (addressable : ∀ c ∈ ours p b, Addressable p (c + 1)) : Replayable p dev := by
  have info {c : ℕ} (member : c ∈ dev.replay) : dev.b.infos c = { record p b.base c with dev := some addr } :=
    inventory.info_ours c ((inventory.mem_replay c).mp member)
  refine ⟨fun c member => addressable c ((inventory.mem_replay c).mp member), fun c member => ?_, fun c member => ?_,
    fun c member => ?_, fun c member => ?_, ?_⟩
  · rw [info member]
    exact (inventory.parses c ((inventory.mem_replay c).mp member)).capacity
  · rw [info member]
    rfl
  · rw [info member]
    exact sensible.distinct c ((inventory.mem_replay c).mp member)
  · rw [info member]
    have inOurs := (inventory.mem_replay c).mp member
    obtain ⟨top, isTop⟩ : ∃ top, Highest p b.base (ours p b) top := exists_top ⟨c, inOurs⟩
    rw [inventory.blank_noBlockIndices isTop]
    exact sensible.inside top isTop c inOurs
  · refine inventory.sorted.imp_of_mem fun {c d} first second below => ?_
    dsimp only
    rw [info first, info second]
    exact below

/-- Once everything is replayed, the table is what the index blocks describe. -/
theorem Inventory.restored (inventory : Inventory p b addr dev) (sensible : Sensible p b)
    (replaying : Replaying p dev (fun c => if c ∈ dev.replay then 0 else (dev.b.infos c).noIndices) l) : Restored p b l := by
  have info {c : ℕ} (member : c ∈ ours p b) : dev.b.infos c = { record p b.base c with dev := some addr } :=
    inventory.info_ours c member
  have placed {m c : ℕ} (mapped : Mapped p l m c) : c ∈ ours p b ∧ Listed p b.base c m (indexNo p (l.blockIndices m)) := by
    obtain ⟨member, bound, same⟩ := replaying.placed m c mapped
    have inOurs := (inventory.mem_replay c).mp member
    rw [if_pos member, Nat.add_zero] at bound
    rw [info inOurs] at bound same
    exact ⟨inOurs, bound, same⟩
  have found {m c k : ℕ} (inOurs : c ∈ ours p b) (listed : Listed p b.base c m k) :
      ∃ d, Mapped p l m d ∧ (record p b.base c).seqno ≤ (record p b.base d).seqno := by
    have member := (inventory.mem_replay c).mpr inOurs
    obtain ⟨d, mapped, later⟩ := replaying.newest c member k (by
      rw [if_pos member, info inOurs]
      exact listed.1)
    rw [info inOurs] at mapped later
    rw [info (placed mapped).1] at later
    exact ⟨d, listed.2 ▸ mapped, later⟩
  refine ⟨replaying.index_lt, fun c inOurs => ?_, fun m _ c k => ⟨?_, ?_⟩, fun m _ => ⟨?_, ?_⟩, fun c inOurs => ?_,
    fun c inOurs => ?_⟩
  · rw [replaying.indices, info inOurs]
  · rintro ⟨mapped, rfl⟩
    obtain ⟨inOurs, listed⟩ := placed mapped
    refine ⟨inOurs, listed, fun d inOurs' i listed' => ?_⟩
    obtain ⟨d', mapped', later⟩ := found inOurs' listed'
    exact mapped'.unique mapped ▸ later
  · rintro ⟨inOurs, listed, newest⟩
    obtain ⟨d, mapped, later⟩ := found inOurs listed
    obtain ⟨inOurs', listed'⟩ := placed mapped
    obtain rfl := sensible.seqnos d inOurs' c inOurs (le_antisymm (newest d inOurs' _ listed') later)
    exact ⟨mapped, sensible.distinct d inOurs _ listed'.1 k listed.1 (listed'.2.trans listed.2.symm)⟩
  · intro never c inOurs k listed
    obtain ⟨d, mapped, -⟩ := found inOurs listed
    exact mapped.1 never
  · intro unlisted
    by_contra mapped
    obtain ⟨inOurs, listed⟩ := placed ⟨mapped, rfl⟩
    exact unlisted _ inOurs _ listed
  · have member := (inventory.mem_replay c).mpr inOurs
    rw [replaying.counted c member, if_pos member, Nat.add_zero]
  · have member := (inventory.mem_replay c).mpr inOurs
    rw [replaying.noIndices c member, replaying.counted c member, if_pos member, Nat.add_zero, info inOurs]
    simp only [Finset.card_eq_zero]

/-- The replay fails nowhere. -/
theorem Inventory.replays (inventory : Inventory p b addr dev) (sensible : Sensible p b)
    (addressable : ∀ c ∈ ours p b, Addressable p (c + 1)) :
    (dev.replay.foldlM (replay p) (blank p dev)).Returns fun l => SameSize (blank p dev) l ∧ Restored p b l ∧
      ∀ c ∉ ours p b, l.dev.b.infos c = dev.b.infos c := by
  refine (inventory.replayable sensible addressable).replay_all.imp fun l replaying => ?_
  refine ⟨replaying.size, inventory.restored sensible replaying, fun c other => replaying.others c fun member => other ?_⟩
  exact (inventory.mem_replay c).mp member

/-- What `scubed3_init` leaves. -/
theorem Inventory.init_restored (inventory : Inventory p b addr dev) (sensible : Sensible p b)
    (addressable : ∀ c ∈ ours p b, Addressable p (c + 1)) {missing : Bool} (ran : init p dev = .ok (l, missing)) :
    Restored p b l ∧ l.noBlockIndices = (blank p dev).noBlockIndices ∧ SameDevice dev { l.dev with j := dev.j, replay := dev.replay } ∧
      ∀ c ∉ ours p b, l.dev.b.infos c = dev.b.infos c := by
  obtain ⟨l', replayed, size, restored, others⟩ := (inventory.replays sensible addressable).exists_ok
  have started := init_eq_ok_iff.mp ran
  by_cases empty : dev.noMacroblocks = 0
  · rw [if_pos empty] at started
    cases started
    have none : dev.replay = [] := by
      refine List.eq_nil_iff_forall_not_mem.mpr fun c member => ?_
      have inOurs := (inventory.mem_replay c).mp member
      have count := inventory.count ⟨c, inOurs⟩
      have positive : 0 < (ours p b).card := Finset.card_pos.mpr ⟨c, inOurs⟩
      omega
    rw [none] at replayed
    cases replayed
    exact ⟨restored, rfl, .refl dev, others⟩
  · rw [if_neg empty] at started
    obtain ⟨l'', replayed', j, -, same⟩ := started
    cases replayed.symm.trans replayed'
    cases same
    exact ⟨⟨restored.index_lt, restored.indices, restored.newest, restored.never, restored.noNonobsolete,
      restored.noIndices⟩, size.2, init_sameDevice ran, others⟩

/-! ## Opening -/

/-- The first loop gets through. -/
theorem devInit_eq (coherent : Coherent p b) (sensible : Sensible p b) (addr : ℕ) : ∃ scan highest,
    Scanned p b addr (List.range p.b.totalMacroblocks) scan highest ∧
      devInit p b addr = if scan.replay = [] then .ok scan else do
        let dev ← (List.range p.b.maxMacroblocks).foldlM (claimUsed p) scan
        if dev.noMacroblocks ≠ dev.replay.length + dev.j.count then
          throw (.fatal "count of macroblocks does not match the amount of blocks we have")
        return dev := by
  obtain ⟨⟨scan, highest⟩, ran, scanned⟩ := (scan_returns coherent sensible.parses sensible.seqnos addr).exists_ok
  refine ⟨scan, highest, scanned, ?_⟩
  unfold devInit
  rw [p.accepted.2]
  change (List.foldlM (m := Except Failure) (fun (r : BlockioDev × ℕ) i => scanHeader p r.1 i r.2) _ _ >>= _) = _
  rw [ran]
  change (if scan.replay = [] then _ else _) = _
  by_cases empty : scan.replay = []
  · rw [if_pos empty, if_pos empty]
    have zero : highest = 0 := by
      rcases scanned.summary with ⟨-, zero, -⟩ | ⟨top, member, -⟩
      · exact zero
      · simp [empty] at member
    rw [check_of _ _ zero]
    rfl
  · rw [if_neg empty, if_neg empty]

/-- On index blocks that make sense, `blockio_dev_init` gets through or exits with a message. -/
theorem devInit_ensures (coherent : Coherent p b) (sensible : Sensible p b) (addr : ℕ) :
    (devInit p b addr).Ensures (Inventory p b addr) fun e => ∃ message, e = .fatal message := by
  refine ⟨(devInit_yields b addr).value, ?_⟩
  obtain ⟨scan, highest, scanned, same⟩ := devInit_eq coherent sensible addr
  suffices spec : (devInit p b addr).Ensures (fun _ => True) fun e => ∃ message, e = .fatal message from spec.error
  rw [same]
  split
  · exact .pure trivial
  · have loop : ((List.range p.b.maxMacroblocks).foldlM (claimUsed p) scan).Ensures
        (Claimed p scan (List.range p.b.maxMacroblocks)) fun e => ∃ message, e = .fatal message := by
      refine .foldlM (Claimed.start scanned.idle.2.2.2) fun visited i rest dev whole claimed => ?_
      obtain ⟨bound, new⟩ := range_split whole
      exact claimed.step_fatal new (by rwa [scanned.noBits]) (scanned.coherent coherent)
    refine .bind loop fun dev _ => ?_
    split
    · exact .throw ⟨_, rfl⟩
    · exact .pure trivial

/-- The macroblocks that the index block of `top` marks as ours are there, and they are as many as it announces. -/
structure Complete (p : Params) (b : Blockio) (top : ℕ) : Prop where
  legal : ∀ i < p.b.maxMacroblocks,
    ((Bitmap.init p.b.maxMacroblocks).read (header p b.base top) p.b.bitmapOffset).used i = true →
      i < p.b.totalMacroblocks ∧ (b.infos i).dev = none
  count : Binio.readUint32Be (header p b.base top) noMacroblocksUint32 = (ours p b).card +
    ((Finset.range p.b.maxMacroblocks).filter fun i => i ∉ ours p b ∧
      ((Bitmap.init p.b.maxMacroblocks).read (header p b.base top) p.b.bitmapOffset).used i = true).card

/-- When no macroblock is missing, `blockio_dev_init` succeeds. -/
theorem devInit_returns (coherent : Coherent p b) (sensible : Sensible p b)
    (complete : ∀ top, Highest p b.base (ours p b) top → Complete p b top) (addr : ℕ) : (devInit p b addr).Returns (Inventory p b addr) := by
  refine ⟨(devInit_yields b addr).value, ?_⟩
  obtain ⟨scan, highest, scanned, same⟩ := devInit_eq coherent sensible addr
  suffices spec : (devInit p b addr).Returns fun _ => True from spec.error
  rw [same]
  rcases scanned.summary with ⟨empty, -⟩ | ⟨top, member, last, upper, summarized⟩
  · rw [if_pos empty]
    exact .pure trivial
  rw [if_neg (List.ne_nil_of_mem member)]
  have mem (c : ℕ) : c ∈ scan.replay ↔ c ∈ ours p b := scanned.mem_replay c
  obtain ⟨legal, count⟩ := complete top ⟨(mem top).mp member, fun c inOurs => (upper c ((mem c).mpr inOurs)).trans_eq last.symm⟩
  rw [← summarized.status] at legal count
  rw [← summarized.noMacroblocks] at count
  -- who holds a marked macroblock after the first loop
  have holder (i : ℕ) (bound : i < p.b.maxMacroblocks) (used : scan.status.used i = true) :
      (scan.b.infos i).dev = if i ∈ ours p b then some scan.self else none := by
    rw [scanned.infos, scanned.owner]
    simp only [mem]
    split
    · rfl
    · exact (legal i bound used).2
  have loop : ((List.range p.b.maxMacroblocks).foldlM (claimUsed p) scan).Returns
      (Claimed p scan (List.range p.b.maxMacroblocks)) := by
    refine .foldlM (Claimed.start scanned.idle.2.2.2) fun visited i rest dev whole claimed => ?_
    obtain ⟨bound, new⟩ := range_split whole
    have noBits : i < scan.status.noBits := by rwa [scanned.noBits]
    have free (used : scan.status.used i = true) : (scan.b.infos i).dev = none ∨ (scan.b.infos i).dev = some scan.self := by
      rw [holder i bound used]
      split
      · exact .inr rfl
      · exact .inl rfl
    obtain ⟨dev', ran⟩ := claimed.progress new noBits (scanned.coherent coherent) fun used => ⟨(legal i bound used).1, free used⟩
    exact .of_ok ran ((claimed.step new noBits).value dev' ran)
  refine .bind loop fun dev claimed => ?_
  have unscheduled : dev.j.unscheduled.length = ((Finset.range p.b.maxMacroblocks).filter fun i => i ∉ ours p b ∧
      scan.status.used i = true).card := by
    rw [← List.toFinset_card_of_nodup (List.nodup_append.mp claimed.lists.nodup).2.1]
    congr 1
    ext i
    rw [List.mem_toFinset, claimed.mem_iff, List.mem_range, Finset.mem_filter, Finset.mem_range]
    refine and_congr_right fun bound => ?_
    rw [and_comm]
    refine and_congr_left fun used => ?_
    rw [holder i bound used]
    split
    · next inOurs => simp [inOurs]
    · next notOurs => simp [notOurs]
  have replay : dev.replay.length = (ours p b).card := by
    have nodup : scan.replay.Nodup :=
      scanned.sorted.imp fun below equal => by rw [equal] at below; exact lt_irrefl _ below
    have same : dev.replay = scan.replay := by rw [claimed.rest]; rfl
    rw [same, ← List.toFinset_card_of_nodup nodup]
    congr 1
    ext c
    rw [List.mem_toFinset, mem]
  have counted : dev.noMacroblocks = dev.replay.length + dev.j.count := by
    rw [replay, Juggler.count, claimed.lists.noScheduled, claimed.idle.1, claimed.lists.noUnscheduled, unscheduled,
      List.length_nil, Nat.zero_add, ← count, claimed.rest]
    rfl
  rw [if_neg (not_not.mpr counted)]
  exact .pure trivial

/-- The juggler takes all found macroblocks when no two of them come up at the same number. -/
theorem Inventory.init_returns (inventory : Inventory p b addr dev) (sensible : Sensible p b)
    (addressable : ∀ c ∈ ours p b, Addressable p (c + 1))
    (apart : ∀ c ∈ ours p b, ∀ d ∈ ours p b, (record p b.base c).nextSeqno = (record p b.base d).nextSeqno → c = d) :
    ∃ l missing, init p dev = .ok (l, missing) := by
  by_cases empty : dev.noMacroblocks = 0
  · exact ⟨_, _, init_eq_ok_iff.mpr (by rw [if_pos empty])⟩
  obtain ⟨l, replayed, size, -⟩ := (inventory.replays sensible addressable).exists_ok
  have rest : l.dev = setRam dev l.dev.updated l.dev.tmpMacroblock l.dev.b.infos := size.1.rest
  have replay : l.dev.replay = dev.replay := by rw [rest]; rfl
  have juggler : l.dev.j = dev.j := by rw [rest]; rfl
  have numbers {c : ℕ} (member : c ∈ dev.replay) : (l.dev.b.infos c).seqno = (record p b.base c).seqno ∧
      (l.dev.b.infos c).nextSeqno = (record p b.base c).nextSeqno := by
    obtain ⟨seqno, nextSeqno, -⟩ := size.1.infos c
    rw [seqno, nextSeqno]
    change (dev.b.infos c).seqno = _ ∧ (dev.b.infos c).nextSeqno = _
    rw [inventory.info_ours c ((inventory.mem_replay c).mp member)]
    exact ⟨rfl, rfl⟩
  have nodup : dev.replay.Nodup :=
    inventory.sorted.imp fun below equal => by rw [equal] at below; exact lt_irrefl _ below
  have lists : Juggler.Lists dev.j l.dev.b.infos dev.j.unscheduled.toFinset :=
    inventory.lists.congr _ (by simp [inventory.unscheduled_only.1])
  obtain ⟨j, added, -⟩ := lists.addAll (List.nodup_reverse.mpr nodup)
    (fun c member inside => by
      have inOurs := (inventory.mem_replay c).mp (List.mem_reverse.mp member)
      exact (inventory.claimed c (List.mem_toFinset.mp inside)).2.2 inOurs)
    (fun c member => by
      have inReplay := List.mem_reverse.mp member
      rw [(numbers inReplay).1, (numbers inReplay).2]
      exact .inr (inventory.parses c ((inventory.mem_replay c).mp inReplay)).seqno_lt)
    (fun c member _ d member' different => by
      rw [inventory.unscheduled_only.1, List.append_nil, List.mem_reverse] at member'
      have inReplay := List.mem_reverse.mp member
      rw [Juggler.due, Juggler.due, (numbers inReplay).2, (numbers member').2]
      exact fun same => different (apart d ((inventory.mem_replay d).mp member') c ((inventory.mem_replay c).mp inReplay) same))
  have added : l.dev.replay.reverse.foldlM (fun j bi => j.addMacroblock l.dev.b.infos bi) l.dev.j = .ok j := by
    rw [replay, juggler]
    exact added
  exact ⟨_, _, init_eq_ok_iff.mpr ((if_neg empty).mpr ⟨l, replayed, j, added, rfl⟩)⟩

/-- Whatever the order of the macroblocks on the device, a partition is opened with what the newest index block says about
it, and every mesoblock is where the newest macroblock that lists it has it. -/
theorem replay_finds_newest (coherent : Coherent p b) (few : p.b.totalMacroblocks < 2 ^ (32 - p.b.mesobits))
    (sensible : Sensible p b) (addr : ℕ) :
    (devInit p b addr).Ensures (fun dev =>
      (∃ l, dev.replay.foldlM (replay p) (blank p dev) = .ok l) ∧
      ((∀ c ∈ ours p b, ∀ d ∈ ours p b, (record p b.base c).nextSeqno = (record p b.base d).nextSeqno → c = d) →
        ∃ l missing, init p dev = .ok (l, missing)) ∧
      ∀ l missing, init p dev = .ok (l, missing) →
        (∀ top, Highest p b.base (ours p b) top →
          l.dev.noMacroblocks = Binio.readUint32Be (header p b.base top) noMacroblocksUint32 ∧
          l.dev.reservedMacroblocks = Binio.readUint32Be (header p b.base top) reservedBlocksUint32 ∧
          l.dev.status = (Bitmap.init p.b.maxMacroblocks).read (header p b.base top) p.b.bitmapOffset ∧
          l.dev.seqnosHash = Memory.slice (header p b.base top) seqnosSha256 32 ∧
          l.noBlockIndices = announced p b.base top) ∧
        (∀ m < l.noBlockIndices, ∀ c k,
          (l.blockIndices m ≠ noIndex ∧ indexId p (l.blockIndices m) = c ∧ indexNo p (l.blockIndices m) = k) ↔
            Newest p b.base (ours p b) c m k) ∧
        (∀ m < l.noBlockIndices, (∀ c ∈ ours p b, ∀ k, ¬ Listed p b.base c m k) → l.blockIndices m = noIndex) ∧
        (∀ c ∈ ours p b, (l.dev.b.infos c).noNonobsolete = (live p l c).card ∧
          (l.dev.b.infos c).noIndices = if 0 < (live p l c).card then (record p b.base c).noIndices else 0) ∧
        (∀ c ∈ dev.j.unscheduled, (l.dev.b.infos c).noNonobsolete = 0 ∧ (l.dev.b.infos c).noIndices = 0 ∧ live p l c = ∅))
      fun e => ∃ message, e = .fatal message := by
  have addressable (c : ℕ) (member : c ∈ ours p b) : Addressable p (c + 1) := by
    have bound := (mem_ours.mp member).1
    unfold Addressable
    omega
  refine (devInit_ensures coherent sensible addr).imp fun dev inventory =>
    ⟨?_, inventory.init_returns sensible addressable, ?_⟩
  · obtain ⟨l, replayed, -⟩ := (inventory.replays sensible addressable).exists_ok
    exact ⟨l, replayed⟩
  intro l missing ran
  obtain ⟨restored, size, same, others⟩ := inventory.init_restored sensible addressable ran
  refine ⟨fun top isTop => ?_, fun m bound c k => ?_, fun m bound => (restored.never m bound).mpr,
    fun c member => ⟨restored.noNonobsolete c member, ?_⟩, fun c claimed => ?_⟩
  · have summarized := inventory.summary top isTop.1 isTop.2
    have fields := same.rest
    refine ⟨?_, ?_, ?_, ?_, size.trans (inventory.blank_noBlockIndices isTop)⟩
    · exact (congrArg BlockioDev.noMacroblocks fields).trans summarized.noMacroblocks
    · exact (congrArg BlockioDev.reservedMacroblocks fields).trans summarized.reservedMacroblocks
    · exact (congrArg BlockioDev.status fields).trans summarized.status
    · exact (congrArg BlockioDev.seqnosHash fields).trans summarized.seqnosHash
  · rw [← restored.newest m bound c k, Mapped, and_assoc]
  · rw [restored.noIndices c member]
    simp only [Finset.card_pos, Finset.nonempty_iff_ne_empty, ne_eq, ite_not]
  · have notOurs := (inventory.claimed c claimed).2.2
    rw [others c notOurs, inventory.info_claimed c claimed]
    refine ⟨rfl, rfl, Finset.eq_empty_of_forall_notMem fun m inside => ?_⟩
    obtain ⟨bound, mapped⟩ := mem_live.mp inside
    exact notOurs ((restored.newest m bound c _).mp ⟨mapped, rfl⟩).1

/-- What the program writes when the only mesoblock of its only macroblock is in use. -/
def oneListed : BlockioDev where
  b :=
    { infos := fun _ => { seqno := 1, nextSeqno := 2, noIndices := 1, dev := some 0 }
      unallocated := []
      base := fun _ => 0 }
  self := 0
  status := Bitmap.init 1984
  noMacroblocks := 1
  bi := some 0

theorem replay_finds_newest_oneListed : ∃ (b : Blockio) (dev : BlockioDev) (l : Partition) (missing : Bool),
    devInit (.smallest 1 (by decide)) b 0 = .ok dev ∧ Partition.init (.smallest 1 (by decide)) dev = .ok (l, missing) ∧
      l.blockIndices 0 ≠ noIndex ∧ indexId (.smallest 1 (by decide)) (l.blockIndices 0) = 0 ∧
      indexNo (.smallest 1 (by decide)) (l.blockIndices 0) = 0 := by
  set p : Params := .smallest 1 (by decide) with pEq
  set info := oneListed.b.infos 0 with infoEq
  have storable : Storable p info := ⟨by decide, by decide, by decide, by decide⟩
  have status : oneListed.status.noBits = p.b.maxMacroblocks := rfl
  set base := Memory.blit oneListed.b.base (0 * p.macroblockSize) p.macroblockSize (encodeMacroblock p oneListed info 0) with baseEq
  obtain ⟨isOurs, parses⟩ := carries_encode 0 oneListed.b.base storable status
  rw [← baseEq] at isOurs parses
  obtain ⟨valid, found⟩ := parseInfo_record.mp parses
  let b : Blockio := { unallocated := [0], base }
  have only (c : ℕ) : c ∈ ours p b ↔ c = 0 := by
    refine mem_ours.trans ⟨fun member => Nat.lt_one_iff.mp member.1, fun zero => ?_⟩
    subst zero
    exact ⟨Nat.one_pos, rfl, isOurs⟩
  have oursEq : ours p b = {0} := by
    ext c
    rw [only, Finset.mem_singleton]
  have field {off s : ℕ} (member : (off, Binio.uint32Be s) ∈ headerFields p oneListed info
      (dataHashOf p (encryptData p oneListed.tmpMacroblock info 0))) :
      Binio.readUint32Be (header p base 0) off = s % 2 ^ 32 :=
    readUint32Be_header 0 oneListed.b.base storable.noIndices status member
  have unmarked (i : ℕ) (bound : i < p.b.maxMacroblocks) :
      ((Bitmap.init p.b.maxMacroblocks).read (header p base 0) p.b.bitmapOffset).used i = false := by
    rw [used_header 0 oneListed.b.base storable.noIndices status rfl bound]
    simp [oneListed, Bitmap.init, Bitmap.used]
  have one : Binio.readUint32Be (header p base 0) noMacroblocksUint32 = 1 :=
    @field _ 1 (mem_headerFields (by simp only [staticFields, oneListed, List.mem_cons, true_or, or_true]))
  have none : Binio.readUint32Be (header p base 0) reservedBlocksUint32 = 0 :=
    @field _ 0 (mem_headerFields (by simp only [staticFields, oneListed, List.mem_cons, true_or, or_true]))
  have sensible : Sensible p b := by
    refine ⟨fun c member => ?_, fun c member d member' _ => ?_, fun c member => ?_, fun top isTop c member => ?_⟩
    · rw [(only c).mp member]
      exact valid
    · rw [(only c).mp member, (only d).mp member']
    · rw [(only c).mp member, ← found]
      intro i first j second _
      exact (Nat.lt_one_iff.mp first).trans (Nat.lt_one_iff.mp second).symm
    · rw [(only top).mp isTop.1, (only c).mp member, ← found, announced, one, none]
      intro i first
      obtain rfl := Nat.lt_one_iff.mp first
      decide
  have coherent : Coherent p b := by
    refine ⟨List.nodup_singleton 0, fun c => ?_⟩
    rw [List.mem_singleton]
    exact ⟨fun zero => ⟨zero ▸ Nat.one_pos, rfl⟩, fun bound => Nat.lt_one_iff.mp bound.1⟩
  have complete (top : ℕ) (member : top ∈ ours p b) : Complete p b top := by
    rw [(only top).mp member]
    refine ⟨fun i bound used => ?_, ?_⟩
    · rw [unmarked i bound] at used
      cases used
    · rw [one, oursEq, Finset.card_singleton, Finset.filter_eq_empty_iff.mpr, Finset.card_empty]
      rintro i bound ⟨-, used⟩
      rw [unmarked i (Finset.mem_range.mp bound)] at used
      cases used
  obtain ⟨dev, scanned, -⟩ := (devInit_returns coherent sensible (fun top isTop => complete top isTop.1) 0).exists_ok
  obtain ⟨-, returns, finds⟩ := (replay_finds_newest coherent (by decide) sensible 0).value dev scanned
  obtain ⟨l, missing, ran⟩ := returns fun c member d member' _ => ((only c).mp member).trans ((only d).mp member').symm
  obtain ⟨describes, newest, -⟩ := finds l missing ran
  have inOurs := (only 0).mpr rfl
  have bound : 0 < l.noBlockIndices := by
    rw [(describes 0 ⟨inOurs, fun c member => by rw [(only c).mp member]⟩).2.2.2.2, announced, one, none]
    decide
  refine ⟨b, dev, l, missing, scanned, ran, (newest 0 bound 0 0).mpr ⟨inOurs, ?_, fun d member _ _ => ?_⟩⟩
  · rw [Listed, ← found]
    exact ⟨Nat.one_pos, rfl⟩
  · rw [(only d).mp member]

end Scubed3.Blockio
