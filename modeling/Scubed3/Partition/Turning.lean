import Scubed3.Partition.Phases
import Scubed3.Partition.Splitting

/-! # From one macroblock to the next

Garbage collection makes a fresh macroblock ready, and a write keeps it ready. The loop of `select_new_macroblock` goes
through all phases until a macroblock is left with room. A partition that works like this acts as an array of bytes.
-/

namespace Scubed3.Partition

open Blockio

variable {p : Params} {l l' : Partition} {cur m muoff size : ℕ}

/-! ## Steps in memory -/

theorem SameDevice.getObsoleted {dev dev' : BlockioDev} (same : SameDevice dev dev') :
    dev'.j.getObsoleted dev'.b.infos = dev.j.getObsoleted dev.b.infos := by
  have j : dev'.j = dev.j := by
    rw [same.rest]
    rfl
  rw [j]
  exact getObsoleted_congr fun c _ => (same.infos c).2.1

/-- What a step in memory leaves as it is. -/
theorem SameDevice.fields {dev dev' : BlockioDev} (same : SameDevice dev dev') :
    dev'.j = dev.j ∧ dev'.bi = dev.bi ∧ dev'.tailMacroblock = dev.tailMacroblock ∧ dev'.noMacroblocks = dev.noMacroblocks ∧
      dev'.reservedMacroblocks = dev.reservedMacroblocks ∧ dev'.b.base = dev.b.base ∧ owned p dev' = owned p dev := by
  refine ⟨?_, ?_, ?_, ?_, ?_, ?_, owned_congr ?_ fun c => (same.infos c).2.2⟩
  all_goals
    rw [same.rest]
    rfl

theorem SameDevice.blank {dev dev' : BlockioDev} (same : SameDevice dev dev') :
    (Partition.blank p dev').noBlockIndices = (Partition.blank p dev).noBlockIndices := by
  obtain ⟨-, -, -, count, reserved, -⟩ := same.fields (p := p)
  rw [Partition.blank, Partition.blank, count, reserved]

/-- A block is not in both lists. -/
theorem Intact.not_unscheduled (intact : Intact p l) {b : ℕ} (scheduled : b ∈ l.dev.j.scheduled) : b ∉ l.dev.j.unscheduled :=
  (List.nodup_append'.mp intact.known.settled.nodup).2.2 scheduled

theorem Intact.current_scheduled (intact : Intact p l) (current : l.dev.bi = some cur) : cur ∈ l.dev.j.scheduled :=
  (intact.known.current cur current).1

theorem Intact.tail_scheduled (intact : Intact p l) (current : l.dev.bi = some cur) {t : ℕ}
    (tail : l.dev.tailMacroblock = some t) : t ∈ l.dev.j.scheduled := by
  obtain ⟨rest, scheduled, -⟩ := Juggler.getObsoleted_eq_some_iff.mp ((intact.tail cur current).symm.trans tail)
  simp [scheduled]

theorem Intact.mem_owned_of_scheduled (intact : Intact p l) {b : ℕ} (scheduled : b ∈ l.dev.j.scheduled) : b ∈ owned p l.dev :=
  intact.known.settled.mem_of_scheduled scheduled

theorem Intact.addressable_current (intact : Intact p l) (current : l.dev.bi = some cur) :
    Addressable p cur ∧ cur ≠ indexId p noIndex := by
  have number := intact.addressable cur (intact.current cur current).1
  rw [indexId_noIndex]
  unfold Addressable at number ⊢
  omega

/-! ## Garbage collection -/

/-- What a collection leaves where. -/
structure Collected (p : Params) (cur : ℕ) (l l' : Partition) : Prop extends Moved p l l' where
  outputInitialized : l'.outputInitialized = l.outputInitialized
  updated : l'.dev.updated = l.dev.updated
  arrived : ∀ t, l.dev.tailMacroblock = some t → t ≠ cur → live p l' cur = live p l t
  nothing : (∀ t, l.dev.tailMacroblock = some t → t = cur) → l' = l
  others : ∀ b, b ≠ cur → l.dev.tailMacroblock ≠ some b → live p l' b = live p l b

theorem Collecting.intact {t k : ℕ} (intact : Intact p l) (current : l.dev.bi = some cur)
    (tail : l.dev.tailMacroblock = some t) (different : t ≠ cur) (collected : Collecting p cur t l k l')
    (moved : live p l' t = ∅) : Intact p l' := by
  have same := collected.moved.toSameDevice
  obtain ⟨j, bi, tailSame, -, -, base, own⟩ := same.fields (p := p)
  have scheduled := intact.tail_scheduled current tail
  refine ⟨collected.consistent, intact.alive.sameDevice same, collected.moved.noBlockIndices.trans (intact.sized.trans ?_),
    own ▸ intact.addressable, fun b member elsewhere none => ?_, fun b member => ?_, fun b found => ?_,
    intact.backed.memory same collected.moved.noBlockIndices fun m bound => ?_, base ▸ intact.shelved⟩
  · exact same.blank.symm
  · rw [own] at member
    rw [bi] at elsewhere
    by_cases isTail : b = t
    · subst isTail
      refine collected.emptied ?_
      rw [collected.consistent.counted b (own ▸ member) (bi ▸ elsewhere), moved, Finset.card_empty]
    · have notCur : b ≠ cur := fun isCur => elsewhere (isCur ▸ current)
      rw [collected.others b isTail notCur]
      refine intact.idle b member elsewhere (Finset.eq_empty_of_forall_notMem fun m inside => ?_)
      have away : m ∉ live p l t := fun inTail => isTail ((mem_live.mp inside).2.unique (mem_live.mp inTail).2)
      have still : m ∈ live p l' b := by
        rw [mem_live, collected.moved.noBlockIndices, Mapped, collected.elsewhere m away]
        exact mem_live.mp inside
      rw [none] at still
      exact absurd still (Finset.notMem_empty m)
  · rw [j] at member
    have notTail : b ≠ t := fun isTail => intact.not_unscheduled scheduled (isTail ▸ member)
    have notCur : b ≠ cur := fun isCur => intact.not_unscheduled (intact.current_scheduled current) (isCur ▸ member)
    rw [collected.others b notTail notCur]
    exact intact.unused b member
  · rw [tailSame, same.getObsoleted]
    exact intact.tail b (bi ▸ found)
  · by_cases inTail : m ∈ live p l t
    · have member : m ∈ live p l' t ∪ live p l' cur := collected.together ▸ Finset.mem_union_left _ inTail
      rw [moved, Finset.empty_union] at member
      exact .inr ⟨cur, current, (mem_live.mp member).2⟩
    · exact .inl (collected.elsewhere m inTail)

theorem Collecting.kept {t k : ℕ} (collected : Collecting p cur t l k l') : Kept p l l' := by
  obtain ⟨-, -, -, noMacroblocks, reserved, -, own⟩ := collected.moved.toSameDevice.fields (p := p)
  refine ⟨collected.moved.noBlockIndices, collected.content, fun m bound => ?_, own, noMacroblocks, reserved⟩
  by_cases alive : m ∈ live p l t
  · have member : m ∈ live p l' t ∪ live p l' cur := collected.together ▸ Finset.mem_union_left _ alive
    refine iff_of_false ?_ (mem_live.mp alive).2.1
    rcases Finset.mem_union.mp member with here | here
    all_goals exact (mem_live.mp here).2.1
  · rw [collected.elsewhere m alive]

/-- Garbage collection makes the current macroblock ready. -/
theorem Fresh.collect (fresh : Fresh p l cur) :
    ∃ l', copyOldBlockToCurrent p l = .ok l' ∧ Ready p l' cur ∧ Kept p l l' ∧ Collected p cur l l' := by
  have intact := fresh.toIntact
  have nothing : live p l cur = ∅ := fresh.toConsistent.live_eq_empty fresh.blank
  -- nothing happens without another tail block
  have stays (none : ∀ t, l.dev.tailMacroblock = some t → t = cur) (ran : copyOldBlockToCurrent p l = .ok l) :
      ∃ l', copyOldBlockToCurrent p l = .ok l' ∧ Ready p l' cur ∧ Kept p l l' ∧ Collected p cur l l' :=
    ⟨l, ran, ⟨intact, fresh.bi, fun t tail different => absurd (none t tail) different⟩, .refl l, .refl l, rfl, rfl,
      fun t tail different => absurd (none t tail) different, fun _ => rfl, fun _ _ _ => rfl⟩
  cases tail : l.dev.tailMacroblock with
  | none =>
    simp only [tail] at stays
    exact stays nofun (copyOldBlockToCurrent_none tail)
  | some t =>
    have own := intact.mem_owned_of_scheduled (intact.tail_scheduled fresh.bi tail)
    by_cases different : t = cur
    · subst different
      refine stays (fun t' found => ?_) (copyOldBlockToCurrent_empty tail own intact.known.noBits fresh.blank)
      exact (Option.some.inj (tail.symm.trans found)).symm
    have elsewhere : l.dev.bi ≠ some t := fun found => different (Option.some.inj (found.symm.trans fresh.bi))
    have few : (live p l t).card + (live p l cur).card ≤ p.b.mmpm := by
      rw [nothing, Finset.card_empty]
      exact (fresh.card_live_le t).trans (fresh.bounded t own)
    have used : (live p l t).Nonempty → l.dev.status.used t = true := fun _ =>
      (intact.known.used t ((mem_owned.mp own).1.trans_le p.sound.total_le)).mpr own
    obtain ⟨l', k, ran, collected, moved⟩ := copyOldBlockToCurrent_collects fresh.toConsistent intact.known.noBits fresh.bi tail
      own different used (intact.idle t own elsewhere) (.inr ⟨(intact.addressable_current fresh.bi).1, few⟩)
    obtain ⟨-, bi, tailSame, -⟩ := collected.moved.toSameDevice.fields (p := p)
    refine ⟨l', ran, ⟨collected.intact intact fresh.bi tail different moved, bi.trans fresh.bi, fun t' found _ => ?_⟩,
      collected.kept, collected.moved, collected.outputInitialized, collected.updated, fun t' found _ => ?_, fun same => ?_,
      fun b notCur notTail => ?_⟩
    · rw [tailSame, tail] at found
      exact Option.some.inj found ▸ moved
    · obtain rfl := Option.some.inj (tail.symm.trans found)
      have together := collected.together
      rwa [moved, nothing, Finset.empty_union, Finset.union_empty] at together
    · exact absurd (same t tail) different
    · have isOther : b ≠ t := fun same => notTail (same ▸ tail)
      ext m
      by_cases alive : m ∈ live p l t
      · have mapped := (mem_live.mp alive).2
        refine iff_of_false (fun inside => ?_) fun inside => isOther ((mem_live.mp inside).2.unique mapped)
        have member : m ∈ live p l' t ∪ live p l' cur := collected.together ▸ Finset.mem_union_left _ alive
        rw [moved, Finset.empty_union] at member
        exact notCur ((mem_live.mp inside).2.unique (mem_live.mp member).2)
      · rw [mem_live, mem_live, Mapped, Mapped, collected.elsewhere m alive, collected.moved.noBlockIndices]

/-! ## Writing a mesoblock -/

/-- A mesoblock that moves into the current macroblock. -/
theorem Intact.relocate (intact : Intact p l) (current : l.dev.bi = some cur) (inside : m < l.noBlockIndices)
    (away : ¬ Mapped p l m cur) (room : (l.dev.b.infos cur).noIndices < p.b.mmpm) (relocated : Relocated p cur m l l') :
    Intact p l' := by
  have addressable := (intact.addressable_current current).1
  have consistent := intact.toConsistent.relocate current inside away addressable room relocated
  obtain ⟨j, bi, tailSame, -, -, base, own⟩ := relocated.device.fields (p := p)
  refine ⟨consistent, intact.alive.sameDevice relocated.device,
    relocated.noBlockIndices.trans (intact.sized.trans relocated.device.blank.symm), own ▸ intact.addressable,
    fun b member elsewhere none => ?_, fun b member => ?_, fun b found => ?_,
    intact.backed.memory relocated.device relocated.noBlockIndices fun m' _ => ?_, base ▸ intact.shelved⟩
  · rw [own] at member
    rw [bi] at elsewhere
    have different : b ≠ cur := fun same => elsewhere (same ▸ current)
    have counted := consistent.counted b (own ▸ member) (bi ▸ elsewhere)
    rw [none, Finset.card_empty] at counted
    by_cases isOld : Mapped p l m b
    · rw [relocated.old b isOld] at counted ⊢
      exact if_pos counted
    · rw [relocated.others b different isOld]
      refine intact.idle b member elsewhere ?_
      rw [← none, relocated.live_other addressable room different,
        Finset.erase_eq_of_notMem fun member => isOld (mem_live.mp member).2]
  · rw [j] at member
    have different : b ≠ cur := fun same => intact.not_unscheduled (intact.current_scheduled current) (same ▸ member)
    have empty := intact.unused b member
    by_cases isOld : Mapped p l m b
    · rw [relocated.old b isOld]
      exact Nat.le_zero.mp ((obsoleted_noIndices_le _).trans_eq empty)
    · rw [relocated.others b different isOld, empty]
  · rw [tailSame, relocated.device.getObsoleted]
    exact intact.tail b (bi ▸ found)
  · by_cases here : m' = m
    · exact .inr ⟨cur, current, here ▸ relocated.mapped_self addressable room⟩
    · exact .inl (relocated.entry_other here)

/-- Exactly `size` bytes of mesoblock `m` were replaced, from `muoff` on. -/
structure Overwritten (p : Params) (m muoff size : ℕ) (data : Bytes) (l l' : Partition) : Prop where
  noBlockIndices : l'.noBlockIndices = l.noBlockIndices
  content : ∀ m' < l.noBlockIndices, content p l' m' =
    if m' = m then overwrite (content p l m) muoff size data else content p l m'
  mapped : l'.blockIndices m ≠ noIndex
  unmapped : ∀ m' < l.noBlockIndices, m' ≠ m → (l'.blockIndices m' = noIndex ↔ l.blockIndices m' = noIndex)
  owned : owned p l'.dev = owned p l.dev
  noMacroblocks : l'.dev.noMacroblocks = l.dev.noMacroblocks
  reservedMacroblocks : l'.dev.reservedMacroblocks = l.dev.reservedMacroblocks

/-- A mesoblock is written into the current macroblock when it is there or there is room. -/
theorem Ready.store (data : Bytes) (ready : Ready p l cur) (inside : m < l.noBlockIndices) (within : muoff + size ≤ p.mesoblkSize)
    (room : Mapped p l m cur ∨ (l.dev.b.infos cur).noIndices < p.b.mmpm) :
    ∃ l', storeMesoblk p l cur (l.blockIndices m) m muoff size data = .ok l' ∧ Ready p l' cur ∧
      Overwritten p m muoff size data l l' ∧ l'.outputInitialized = l.outputInitialized ∧ l'.dev.updated = l.dev.updated ∧
      l'.dev.b.base = l.dev.b.base := by
  have consistent := ready.toConsistent
  by_cases mapped : Mapped p l m cur
  · -- only the buffer changes
    set tmp := Memory.blit l.dev.tmpMacroblock ((indexNo p (l.blockIndices m) + 1) * p.mesoblkSize + muoff) size data with tmpEq
    have same : SameDevice l.dev (l.setTmp tmp).dev := ⟨rfl, fun _ => ⟨rfl, rfl, rfl⟩, fun _ => rfl⟩
    have intact : Intact p (l.setTmp tmp) := ⟨consistent.congr rfl rfl rfl rfl rfl, ready.alive.sameDevice same, ready.sized,
      ready.addressable, ready.idle, ready.unused, ready.tail, ready.backed.memory same rfl fun _ _ => .inl rfl, ready.shelved⟩
    refine ⟨_, storeMesoblk_ram consistent inside mapped, ⟨intact, ready.bi, ready.collected⟩, ⟨rfl, fun m' inside' => ?_,
      mapped.1, fun _ _ _ => Iff.rfl, rfl, rfl, rfl⟩, rfl, rfl, rfl⟩
    exact content_setTmp_ram data consistent ready.bi inside mapped within inside'
  · have free := room.resolve_left mapped
    obtain ⟨addressable, notLast⟩ := ready.addressable_current ready.bi
    have away : indexId p (l.blockIndices m) ≠ cur := by
      intro here
      by_cases never : l.blockIndices m = noIndex
      · exact notLast (never ▸ here.symm)
      · exact mapped ⟨never, here⟩
    obtain ⟨l', ran, relocated, output, updated, written, kept⟩ :=
      storeMesoblk_relocates data consistent ready.bi inside away free within
    obtain ⟨j, bi, tail, noMacroblocks, reserved, base, own⟩ := relocated.device.fields (p := p)
    have intact := ready.toIntact.relocate ready.bi inside mapped free relocated
    refine ⟨l', ran, ⟨intact, bi.trans ready.bi, fun t found different => ?_⟩, ⟨relocated.noBlockIndices, fun m' inside' => ?_,
      (relocated.mapped_self addressable free).1, fun m' _ different => ?_, own, noMacroblocks, reserved⟩, output, updated, base⟩
    · rw [relocated.live_other addressable free different, ready.collected t (tail ▸ found) different, Finset.erase_empty]
    · split
      · next same =>
        rw [same, relocated.content_self ready.bi addressable free, written]
      · next different => exact relocated.content_other consistent ready.bi different inside' kept
    · rw [relocated.entry_other different]

/-! ## The loop of `select_new_macroblock` -/

/-- One turn: write out, select, collect. -/
def turn (p : Params) (fuel : ℕ) (l : Partition) : Draw Failure Partition := do
  let dev ← writeCurrentAndSelectNextMacroblock p fuel l.dev
  copyOldBlockToCurrent p { l with dev }

/-- What a turn leaves. -/
structure Turned (p : Params) (l : Partition) (next : ℕ) (l' : Partition) : Prop where
  ready : Ready p l' next
  kept : Kept p l l'
  outputInitialized : l'.outputInitialized = l.outputInitialized
  updated : l'.dev.updated = false
  before : live p l next = ∅
  arrived : ∀ t, l'.dev.tailMacroblock = some t → t ≠ next → live p l' next = live p l t
  nothing : (∀ t, l'.dev.tailMacroblock = some t → t = next) → live p l' next = ∅
  others : ∀ b, b ≠ next → l'.dev.tailMacroblock ≠ some b → live p l' b = live p l b

/-- After a macroblock was selected, the collection completes the turn. -/
theorem Ready.turned (ready : Ready p l cur) (vacant : Vacant p l) {dev : BlockioDev} {fuel : ℕ} {tape rest : List ℕ}
    (ran : (selectNextMacroblock fuel (flushed p l cur).dev).run tape = .done dev rest) :
    ∃ next l', copyOldBlockToCurrent p { l with dev } = .ok l' ∧ Turned p l next l' ∧ SameDevice dev l'.dev ∧
      dev.bi = some next := by
  obtain ⟨-, between, kept⟩ := ready.toIntact.flush ready.bi vacant
  obtain ⟨next, fresh, selected⟩ := between.select ran
  have blank : live p { l with dev } next = ∅ := fresh.toConsistent.live_eq_empty fresh.blank
  have updated : dev.updated = false := by
    obtain ⟨-, _, _, _, -, -, -, same⟩ := selectNext_done ran
    rw [same]
  obtain ⟨l', copied, ready', moved, collected⟩ := fresh.collect
  have tail : l'.dev.tailMacroblock = dev.tailMacroblock := (collected.toMoved.toSameDevice.fields (p := p)).2.2.1
  refine ⟨next, l', copied, ⟨ready', (kept.trans selected).trans moved, collected.outputInitialized,
    collected.updated.trans updated, blank, fun t found different => ?_, fun same => ?_, fun b different notTail => ?_⟩,
    collected.toMoved.toSameDevice, fresh.bi⟩
  · exact collected.arrived t (tail ▸ found) different
  · rw [collected.nothing fun t found => same t (tail ▸ found)]
    exact blank
  · exact collected.others b different (tail ▸ notTail)

/-- A macroblock was written when the partition had the contents of `l`, and left `base` on the device. -/
def Flushes (p : Params) (l : Partition) (base : Bytes) : Prop :=
  ∃ l₁ cur, Intact p l₁ ∧ l₁.dev.bi = some cur ∧ Vacant p l₁ ∧ Kept p l l₁ ∧ base = (flushed p l₁ cur).dev.b.base

theorem Kept.flushes {base : Bytes} (kept : Kept p l l') (flushes : Flushes p l' base) : Flushes p l base := by
  obtain ⟨l₁, cur, intact, current, vacant, kept', left⟩ := flushes
  exact ⟨l₁, cur, intact, current, vacant, kept.trans kept', left⟩

/-- Selecting and collecting leave the device alone. -/
theorem turned_base {dev : BlockioDev} {fuel : ℕ} {tape rest : List ℕ} (same : SameDevice dev l'.dev)
    (ran : (selectNextMacroblock fuel (flushed p l cur).dev).run tape = .done dev rest) :
    l'.dev.b.base = (flushed p l cur).dev.b.base := by
  obtain ⟨-, _, _, _, -, -, -, selected⟩ := selectNext_done ran
  rw [(same.fields (p := p)).2.2.2.2.2.1, selected]

/-- A turn fails nowhere and keeps all contents, when nothing is mapped to the macroblock that comes next. -/
theorem Ready.turn (ready : Ready p l cur) (vacant : Vacant p l) (fuel : ℕ) :
    Draw.Safe (turn p fuel l) fun l' => (∃ next, Turned p l next l') ∧ Flushes p l l'.dev.b.base := by
  obtain ⟨ran, between, kept⟩ := ready.toIntact.flush ready.bi vacant
  have some : (owned p (flushed p l cur).dev).Nonempty := kept.owned ▸ ⟨cur, (ready.current cur ready.bi).1⟩
  unfold Partition.turn
  refine .bind (m := fun dev => ∃ tape rest, (selectNextMacroblock fuel (flushed p l cur).dev).run tape = .done dev rest) ?_
    fun dev ⟨tape, rest, ran⟩ => ?_
  · refine .bind (.lift_ok ran rfl) fun dev same => ?_
    subst same
    exact (between.select_safe some fuel).reached.imp fun dev ⟨_, ran⟩ => ran
  · obtain ⟨next, l', copied, turned, same, -⟩ := ready.turned vacant ran
    exact .lift_ok copied ⟨⟨next, turned⟩, l, cur, ready.toIntact, ready.bi, vacant, .refl l, turned_base same ran⟩

theorem selectNewMacroblocks_succ (p : Params) (fuel turns : ℕ) (l : Partition) :
    selectNewMacroblocks p fuel (turns + 1) l = (turn p fuel l >>= fun l' =>
      match l'.dev.bi with
      | none => .raise (.null "l->dev->bi")
      | some bi => if (l'.dev.b.infos bi).noIndices = p.b.mmpm then selectNewMacroblocks p fuel turns l' else return l') := by
  unfold turn
  rw [Draw.bind_bind]
  rfl

/-- Nothing is mapped to the macroblock that comes next, unless it is the current one. -/
theorem Ready.vacant (ready : Ready p l cur) (other : l.dev.tailMacroblock ≠ some cur ∨ (l.dev.b.infos cur).noIndices = 0) :
    Vacant p l := by
  intro t found
  rw [← ready.tail cur ready.bi] at found
  by_cases same : t = cur
  · subst same
    exact ready.toConsistent.live_eq_empty (other.resolve_left (not_not.mpr found))
  · exact ready.collected t found same

/-- After a turn that filled the macroblock there is another one to collect from. -/
theorem Turned.vacant {next : ℕ} (turned : Turned p l next l') (full : (l'.dev.b.infos next).noIndices = p.b.mmpm) :
    Vacant p l' := by
  refine turned.ready.vacant (.inl fun tail => ?_)
  have none := turned.nothing fun t found => Option.some.inj (found.symm.trans tail)
  have count := turned.ready.card_live_current turned.ready.bi
  rw [none, full, Finset.card_empty] at count
  exact absurd count p.mmpm_pos.ne

/-- The loop fails nowhere and keeps all contents. There is room when it ends, and what was there before is on the
device. -/
theorem Ready.selectNewMacroblocks (ready : Ready p l cur) (vacant : Vacant p l) (fuel turns : ℕ) :
    Draw.Safe (selectNewMacroblocks p fuel turns l) fun l' => (∃ next, Ready p l' next ∧ Kept p l l' ∧
      l'.outputInitialized = l.outputInitialized ∧ l'.dev.updated = false ∧ (l'.dev.b.infos next).noIndices < p.b.mmpm) ∧
        Flushes p l l'.dev.b.base := by
  induction turns generalizing l cur with
  | zero => exact .starve
  | succ turns ih =>
    rw [selectNewMacroblocks_succ]
    refine .bind (ready.turn vacant fuel) fun l' ⟨⟨next, turned⟩, flushes⟩ => ?_
    rw [turned.ready.bi]
    dsimp only
    split
    · next full =>
      refine (ih turned.ready (turned.vacant full)).imp fun l'' ⟨⟨next', ready', kept, output, updated, room⟩, flushes⟩ => ?_
      exact ⟨⟨next', ready', turned.kept.trans kept, output.trans turned.outputInitialized, updated, room⟩,
        turned.kept.flushes flushes⟩
    · next notFull =>
      have own := (turned.ready.current next turned.ready.bi).1
      exact .pure ⟨⟨next, turned.ready, turned.kept, turned.outputInitialized, turned.updated,
        (turned.ready.bounded next own).lt_of_ne notFull⟩, flushes⟩

/-! ## Writes and cycles -/

/-- The states between two operations. -/
inductive Tidy (p : Params) (l : Partition) : Prop
  | between (between : Between p l) (output : l.outputInitialized = false)
  | fresh {cur : ℕ} (fresh : Fresh p l cur) (output : l.outputInitialized = false)
  | ready {cur : ℕ} (ready : Ready p l cur) (output : l.outputInitialized = true)

/-- The current macroblock, which is full and does not hold mesoblock `m`, would be written out although it comes next
itself. -/
def Overruns (p : Params) (l : Partition) (m : ℕ) : Prop :=
  match l.dev.bi with
  | none => False
  | some cur => l.outputInitialized = true ∧ l.dev.tailMacroblock = some cur ∧ (l.dev.b.infos cur).noIndices = p.b.mmpm ∧
      ¬ Mapped p l m cur

/-- A cycle would write out a macroblock that holds mesoblocks although it comes next itself. -/
def Repeats (l : Partition) : Prop :=
  match l.dev.bi with
  | none => False
  | some cur => l.outputInitialized = true ∧ l.dev.tailMacroblock = some cur ∧ (l.dev.b.infos cur).noIndices ≠ 0

instance (p : Params) (l : Partition) (m : ℕ) : Decidable (Overruns p l m) := by
  unfold Overruns
  split <;> infer_instance

instance (l : Partition) : Decidable (Repeats l) := by
  unfold Repeats
  split <;> infer_instance

theorem Tidy.intact (tidy : Tidy p l) : Intact p l := by
  cases tidy with
  | between between => exact between.toIntact
  | fresh fresh => exact fresh.toIntact
  | ready ready => exact ready.toIntact

/-- The flag that says that something was written does not matter. -/
theorem Intact.flag (intact : Intact p l) (updated outputInitialized : Bool) :
    Intact p { l with dev := { l.dev with updated }, outputInitialized } := by
  have same := (Moved.flags (p := p) l updated outputInitialized).toSameDevice
  exact ⟨intact.toConsistent.congr rfl rfl rfl rfl rfl, intact.alive.sameDevice same, intact.sized, intact.addressable,
    intact.idle, intact.unused, intact.tail, intact.backed.memory same rfl fun _ _ => .inl rfl, intact.shelved⟩

theorem Kept.flag (l : Partition) (updated outputInitialized : Bool) :
    Kept p l { l with dev := { l.dev with updated }, outputInitialized } :=
  ⟨rfl, fun _ _ => rfl, fun _ _ => Iff.rfl, rfl, rfl, rfl⟩

theorem Ready.flag (ready : Ready p l cur) (updated outputInitialized : Bool) :
    Ready p { l with dev := { l.dev with updated }, outputInitialized } cur :=
  ⟨ready.toIntact.flag updated outputInitialized, ready.bi, ready.collected⟩

/-- The output can be initialised. When the current macroblock comes next itself, nothing was collected. -/
theorem Tidy.initializeOutput (tidy : Tidy p l) (current : l.dev.bi = some cur) :
    ∃ l', initializeOutput p l = .ok l' ∧ Ready p l' cur ∧ Kept p l l' ∧ l'.outputInitialized = true ∧
      l'.dev.updated = l.dev.updated ∧ l'.dev.tailMacroblock = l.dev.tailMacroblock ∧ l'.dev.b.base = l.dev.b.base ∧
      (l.outputInitialized = true → l' = l) ∧
      (l.outputInitialized = false → l.dev.tailMacroblock = some cur → (l'.dev.b.infos cur).noIndices = 0) := by
  cases tidy with
  | between between => exact nomatch between.none.symm.trans current
  | @fresh b fresh output =>
    obtain rfl : cur = b := Option.some.inj (current.symm.trans fresh.bi)
    obtain ⟨l', copied, ready, kept, collected⟩ := fresh.collect
    refine ⟨{ l' with outputInitialized := true }, ?_, ready.flag l'.dev.updated true, kept.trans (.flag l' l'.dev.updated true),
      rfl, collected.updated, (collected.toMoved.toSameDevice.fields (p := p)).2.2.1,
      (collected.toMoved.toSameDevice.fields (p := p)).2.2.2.2.2.1, fun initialized => ?_, fun _ tail => ?_⟩
    · unfold Partition.initializeOutput
      rw [output, copied]
      rfl
    · exact nomatch output.symm.trans initialized
    · have none := collected.nothing fun t found => Option.some.inj (found.symm.trans tail)
      rw [none]
      exact fresh.blank
  | @ready b ready output =>
    obtain rfl : cur = b := Option.some.inj (current.symm.trans ready.bi)
    exact ⟨l, initializeOutput_ready output, ready, .refl l, output, rfl, rfl, rfl, fun _ => rfl,
      fun not => nomatch output.symm.trans not⟩

theorem Kept.overwritten {l'' : Partition} {data : Bytes} (kept : Kept p l l') (inside : m < l.noBlockIndices)
    (overwritten : Overwritten p m muoff size data l' l'') : Overwritten p m muoff size data l l'' := by
  have bound {m' : ℕ} (inside' : m' < l.noBlockIndices) : m' < l'.noBlockIndices := kept.noBlockIndices ▸ inside'
  refine ⟨overwritten.noBlockIndices.trans kept.noBlockIndices, fun m' inside' => ?_, overwritten.mapped,
    fun m' inside' different => (overwritten.unmapped m' (bound inside') different).trans (kept.unmapped m' inside'),
    overwritten.owned.trans kept.owned, overwritten.noMacroblocks.trans kept.noMacroblocks,
    overwritten.reservedMacroblocks.trans kept.reservedMacroblocks⟩
  rw [overwritten.content m' (bound inside'), kept.content m inside, kept.content m' inside']

/-- `do_write` finds the current macroblock full and makes room. -/
def MakesRoom (p : Params) (l : Partition) (m : ℕ) : Prop :=
  ∃ l' cur, initializeOutput p (touched l) = .ok l' ∧ l'.dev.bi = some cur ∧ indexId p (l.blockIndices m) ≠ cur ∧
    (l'.dev.b.infos cur).noIndices = p.b.mmpm

/-- The state in which `do_write` makes room, or stores the data at once. -/
structure Entered (p : Params) (l : Partition) (m cur : ℕ) (l₁ : Partition) : Prop where
  ready : Ready p l₁ cur
  kept : Kept p l l₁
  outputInitialized : l₁.outputInitialized = true
  updated : l₁.dev.updated = true
  base : l₁.dev.b.base = l.dev.b.base
  same : SameDevice l.dev l₁.dev
  vacant : MakesRoom p l m → Vacant p l₁
  room : ¬ MakesRoom p l m → Mapped p l₁ m cur ∨ (l₁.dev.b.infos cur).noIndices < p.b.mmpm

open Classical in
/-- The parts of `do_write`. -/
theorem Tidy.doWrite_eq (tidy : Tidy p l) (current : l.dev.bi = some cur) (inside : m < l.noBlockIndices)
    (within : muoff + size ≤ p.mesoblkSize) (clean : ¬ Overruns p l m) : ∃ l₁, Entered p l m cur l₁ ∧ ∀ fuel data,
      doWrite p fuel l m muoff size data = (if MakesRoom p l m then selectNewMacroblocks p fuel fuel l₁ else pure l₁) >>= fun l₂ =>
        match l₂.dev.bi with
        | none => .raise (.null "l->dev->bi")
        | some bi => liftM (storeMesoblk p l₂ bi (l₂.blockIndices m) m muoff size data) := by
  have tidy₀ : Tidy p (touched l) := by
    cases tidy with
    | between between => exact nomatch between.none.symm.trans current
    | fresh fresh output => exact .fresh ⟨fresh.toIntact.flag true l.outputInitialized, fresh.bi, fresh.blank⟩ output
    | ready ready output => exact .ready (ready.flag true l.outputInitialized) output
  obtain ⟨l₁, initialised, ready, kept, output, updated, tail, base, stays, blank⟩ := tidy₀.initializeOutput current
  have kept : Kept p l l₁ := (Kept.flag l true l.outputInitialized).trans kept
  have same : SameDevice l.dev l₁.dev :=
    (touched_sameDevice l).trans ((initializeOutput_moved (touched l)).value _ initialised).toSameDevice
  have makesRoom_iff : MakesRoom p l m ↔ indexId p (l.blockIndices m) ≠ cur ∧ (l₁.dev.b.infos cur).noIndices = p.b.mmpm := by
    constructor
    · rintro ⟨l', cur', ran, bi, away, full⟩
      obtain rfl := Except.ok.inj (initialised.symm.trans ran)
      obtain rfl := Option.some.inj (ready.bi.symm.trans bi)
      exact ⟨away, full⟩
    · exact fun ⟨away, full⟩ => ⟨l₁, cur, initialised, ready.bi, away, full⟩
  -- a macroblock that was just selected holds nothing
  have already (here : indexId p (l.blockIndices m) = cur) : Mapped p l m cur ∧ l₁ = touched l := by
    have mapped : Mapped p l m cur := by
      refine ⟨fun never => (tidy.intact.addressable_current current).2 ?_, here⟩
      rw [← never, here]
    refine ⟨mapped, stays ?_⟩
    cases tidy with
    | between between => exact nomatch between.none.symm.trans current
    | @fresh b fresh =>
      obtain rfl : cur = b := Option.some.inj (current.symm.trans fresh.bi)
      have member := mem_live.mpr ⟨inside, mapped⟩
      rw [fresh.toConsistent.live_eq_empty fresh.blank] at member
      exact absurd member (Finset.notMem_empty m)
    | ready ready output => exact output
  refine ⟨l₁, ⟨ready, kept, output, updated, base, same, fun makes => ?_, fun makes => ?_⟩, fun fuel data => ?_⟩
  · obtain ⟨away, full⟩ := makesRoom_iff.mp makes
    refine ready.vacant (.inl fun again => ?_)
    cases initialized : l.outputInitialized with
    | false =>
      have none := blank initialized (tail ▸ again)
      exact p.mmpm_pos.ne' (full ▸ none)
    | true =>
      obtain rfl := stays initialized
      refine clean ?_
      unfold Overruns
      rw [current]
      exact ⟨initialized, again, full, fun mapped => away mapped.2⟩
  · by_cases here : indexId p (l.blockIndices m) = cur
    · obtain ⟨mapped, rfl⟩ := already here
      exact .inl mapped
    · exact .inr ((ready.bounded cur (ready.current cur ready.bi).1).lt_of_ne fun full => makes (makesRoom_iff.mpr ⟨here, full⟩))
  · unfold Partition.doWrite
    rw [check_of _ _ within]
    simp only [show Partition.initializeOutput p { l with dev := { l.dev with updated := true } } = .ok l₁ from initialised,
      Draw.lift_ok, Draw.ret_bind, ready.bi]
    by_cases here : indexId p (l.blockIndices m) = cur
    · obtain ⟨mapped, rfl⟩ := already here
      rw [if_pos here, if_neg fun makes => (makesRoom_iff.mp makes).1 here, Draw.pure_bind']
      simp only [ready.bi]
      rfl
    · rw [if_neg here]
      by_cases full : (l₁.dev.b.infos cur).noIndices = p.b.mmpm
      · rw [if_pos full, if_pos (makesRoom_iff.mpr ⟨here, full⟩)]
        unfold selectNewMacroblock
        rw [check_of _ _ output]
        rfl
      · have stays : ¬ MakesRoom p l m := fun makes => full (makesRoom_iff.mp makes).2
        exact congrArg (· >>= _) ((if_neg full).trans (if_neg stays).symm)

/-- `do_write` fails nowhere and writes exactly the data, unless a full macroblock would be written out although it comes
next itself. -/
theorem Tidy.doWrite (data : Bytes) (tidy : Tidy p l) (current : l.dev.bi = some cur) (inside : m < l.noBlockIndices)
    (within : muoff + size ≤ p.mesoblkSize) (clean : ¬ Overruns p l m) (fuel : ℕ) :
    Draw.Safe (doWrite p fuel l m muoff size data) fun l' => ∃ next, Ready p l' next ∧ l'.outputInitialized = true ∧
      Overwritten p m muoff size data l l' ∧ (¬ MakesRoom p l m → l'.dev.updated = true) ∧
      (¬ MakesRoom p l m ∧ l'.dev.b.base = l.dev.b.base ∨ MakesRoom p l m ∧ Flushes p l l'.dev.b.base) := by
  obtain ⟨l₁, entered, parts⟩ := tidy.doWrite_eq current inside within clean
  have kept := entered.kept
  -- the last part, from any state in which the mesoblock is there or there is room
  have stores {l₂ : Partition} {next : ℕ} (ready : Ready p l₂ next) (kept : Kept p l l₂) (output : l₂.outputInitialized = true)
      (room : Mapped p l₂ m next ∨ (l₂.dev.b.infos next).noIndices < p.b.mmpm)
      (updated : ¬ MakesRoom p l m → l₂.dev.updated = true)
      (left : ¬ MakesRoom p l m ∧ l₂.dev.b.base = l.dev.b.base ∨ MakesRoom p l m ∧ Flushes p l l₂.dev.b.base) :
      Draw.Safe (liftM (storeMesoblk p l₂ next (l₂.blockIndices m) m muoff size data) : Draw Failure Partition) fun l' =>
        ∃ next, Ready p l' next ∧ l'.outputInitialized = true ∧ Overwritten p m muoff size data l l' ∧
          (¬ MakesRoom p l m → l'.dev.updated = true) ∧
          (¬ MakesRoom p l m ∧ l'.dev.b.base = l.dev.b.base ∨ MakesRoom p l m ∧ Flushes p l l'.dev.b.base) := by
    obtain ⟨l', ran, ready', overwritten, output', updated', base'⟩ :=
      ready.store data (kept.noBlockIndices ▸ inside) within room
    refine .lift_ok ran ⟨next, ready', output'.trans output, kept.overwritten inside overwritten,
      fun not => updated'.trans (updated not), ?_⟩
    rw [base']
    exact left
  rw [parts fuel data]
  by_cases makes : MakesRoom p l m
  · rw [if_pos makes]
    refine .bind (entered.ready.selectNewMacroblocks (entered.vacant makes) fuel fuel)
      fun l₂ ⟨⟨next, ready', kept', output', _, room⟩, flushes⟩ => ?_
    rw [ready'.bi]
    exact stores ready' (kept.trans kept') (output'.trans entered.outputInitialized) (.inr room) (fun not => absurd makes not)
      (.inr ⟨makes, kept.flushes flushes⟩)
  · rw [if_neg makes, Draw.pure_bind', entered.ready.bi]
    exact stores entered.ready kept entered.outputInitialized (entered.room makes) (fun _ => entered.updated)
      (.inl ⟨makes, entered.base⟩)

/-- A cycle fails nowhere and keeps all contents, unless a macroblock with mesoblocks would be written out although it
comes next itself. -/
theorem Tidy.cycle (tidy : Tidy p l) (current : l.dev.bi = some cur) (clean : ¬ Repeats l) (fuel : ℕ) :
    Draw.Safe (cycle p fuel l) fun l' => ∃ next, Fresh p l' next ∧ l'.outputInitialized = false ∧ Kept p l l' ∧
      l'.dev.updated = false ∧ Flushes p l l'.dev.b.base := by
  obtain ⟨l₁, initialised, ready, kept, output, -, tail, -, stays, blank⟩ := tidy.initializeOutput current
  have vacant : Vacant p l₁ := by
    refine ready.vacant (or_iff_not_imp_left.mpr fun again => ?_)
    rw [not_not] at again
    cases initialized : l.outputInitialized with
    | false => exact blank initialized (tail ▸ again)
    | true =>
      obtain rfl := stays initialized
      by_contra some
      refine clean ?_
      unfold Repeats
      rw [current]
      exact ⟨initialized, again, some⟩
  obtain ⟨ran, between, kept'⟩ := ready.toIntact.flush ready.bi vacant
  have some : (owned p (flushed p l₁ cur).dev).Nonempty := kept'.owned ▸ ⟨cur, (ready.current cur ready.bi).1⟩
  have first : (if l.outputInitialized then (pure l : Draw Failure Partition) else do
      let l ← copyOldBlockToCurrent p l
      return { l with outputInitialized := true }) = pure l₁ := by
    cases initialized : l.outputInitialized with
    | true =>
      rw [stays initialized]
      rfl
    | false =>
      unfold Partition.initializeOutput at initialised
      rw [initialized] at initialised
      obtain ⟨l', copied, same⟩ := Except.bind_eq_ok_iff.mp initialised
      cases same
      rw [copied]
      rfl
  unfold Partition.cycle
  rw [first, Draw.pure_bind']
  refine .bind (.lift_ok ran rfl) fun dev same => ?_
  subst same
  refine .bind (between.select_safe some fuel).reached fun dev ⟨⟨next, selects, selected⟩, _, _, ran⟩ => .pure ?_
  obtain ⟨-, _, _, _, -, -, -, same⟩ := selectNext_done ran
  refine ⟨next, ⟨selects.toIntact.flag dev.updated false, selects.bi, selects.blank⟩, rfl,
    ((kept.trans kept').trans selected).trans (.flag { flushed p l₁ cur with dev } dev.updated false), ?_,
    l₁, cur, ready.toIntact, ready.bi, vacant, kept, ?_⟩
  all_goals
    rw [same]

end Scubed3.Partition
