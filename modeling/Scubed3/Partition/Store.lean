import Scubed3.Partition.Collection

/-! # Writing a mesoblock of the current macroblock

`do_write` first copies the data into the buffer and then fetches what surrounds it. A mesoblock that was elsewhere
takes the next position of the current macroblock; its old place becomes obsolete.
-/

namespace Scubed3.Partition

open Blockio

variable {p : Params} {l l' : Partition} {cur m muoff size : ℕ} {data : Bytes}

/-- A block of which `size` bytes from `muoff` on are replaced. -/
def overwrite {n : ℕ} (block : Fin n → UInt8) (muoff size : ℕ) (data : Bytes) : Fin n → UInt8 :=
  fun i => if muoff ≤ i ∧ i < muoff + size then data (i - muoff) else block i

theorem slice_blit_overwrite (tmp : Bytes) (addr n : ℕ) :
    Memory.slice (Memory.blit tmp (addr + muoff) size data) addr n = overwrite (Memory.slice tmp addr n) muoff size data := by
  funext i
  unfold overwrite
  rw [Memory.slice_apply, Memory.slice_apply, Memory.blit]
  by_cases within : muoff ≤ i ∧ i < muoff + size
  · rw [if_pos within, if_pos (by omega), show addr + (i : ℕ) - (addr + muoff) = i - muoff by omega]
  · rw [if_neg within, if_neg (by omega)]

/-! ## Copy on write -/

/-- What `do_cow` reads from the old place. -/
theorem cowPart_eq (index addr offset len : ℕ) (readable : index ≠ noIndex →
      indexId p index < p.b.totalMacroblocks ∧ indexNo p index < p.b.mmpm) :
    cowPart p l index addr offset len = .ok (l.setTmp (Memory.blit l.dev.tmpMacroblock (addr + offset) len fun i =>
      Memory.ofBlock (if index = noIndex then fun _ => 0
        else readMesoblk p l.dev (indexId p index) (indexNo p index)) (offset + i))) := by
  unfold cowPart readMesoblkPart
  by_cases never : index = noIndex
  · rw [if_neg (not_not.mpr never), if_pos never]
    rfl
  · rw [if_pos never, if_neg never, check_of _ _ (readable never)]
    rfl

/-- After `do_cow`, what surrounds the data comes from the old place. -/
theorem doCow_eq (addr : ℕ) {index : ℕ} (readable : index ≠ noIndex →
      indexId p index < p.b.totalMacroblocks ∧ indexNo p index < p.b.mmpm) (inside : muoff + size ≤ p.mesoblkSize) :
    ∃ tmp, doCow p l index muoff size addr = .ok (l.setTmp tmp) ∧
      (∀ a, a < addr ∨ addr + p.mesoblkSize ≤ a → tmp a = l.dev.tmpMacroblock a) ∧
      Memory.slice tmp addr p.mesoblkSize = overwrite (if index = noIndex then fun _ => 0
        else readMesoblk p l.dev (indexId p index) (indexNo p index)) muoff size
          fun i => l.dev.tmpMacroblock (addr + muoff + i) := by
  set old : p.Mesoblk := if index = noIndex then fun _ => 0
    else readMesoblk p l.dev (indexId p index) (indexNo p index) with oldEq
  set before := Memory.blit l.dev.tmpMacroblock (addr + 0) muoff fun i => Memory.ofBlock old (0 + i) with beforeEq
  set after := Memory.blit before (addr + (muoff + size)) (p.mesoblkSize - size - muoff)
    fun i => Memory.ofBlock old (muoff + size + i) with afterEq
  have first : (if muoff ≠ 0 then cowPart p l index addr 0 muoff else pure l) = .ok (l.setTmp before) := by
    by_cases none : muoff = 0
    · rw [if_neg (not_not.mpr none), beforeEq, none, Memory.blit_zero]
      rfl
    · rw [if_pos none, cowPart_eq index addr 0 muoff readable]
  have second : (if p.mesoblkSize > size + muoff then
      cowPart p (l.setTmp before) index addr (muoff + size) (p.mesoblkSize - size - muoff) else pure (l.setTmp before)) =
      .ok (l.setTmp after) := by
    by_cases more : p.mesoblkSize > size + muoff
    · rw [if_pos more, cowPart_eq index addr _ _ readable]
      rfl
    · rw [if_neg more, afterEq, show p.mesoblkSize - size - muoff = 0 by omega, Memory.blit_zero]
      rfl
  refine ⟨after, Except.bind_eq_ok_iff.mpr ⟨_, first, second⟩, fun a outside => ?_, ?_⟩
  · rw [afterEq, Memory.blit_outside _ _ (by omega), beforeEq, Memory.blit_outside _ _ (by omega)]
  · funext i
    have bound := i.isLt
    rw [Memory.slice_apply]
    unfold overwrite
    by_cases low : (i : ℕ) < muoff
    · have inBefore : before (addr + 0 + i) = _ := Memory.blit_inside l.dev.tmpMacroblock _ low
      rw [if_neg (by omega), afterEq, Memory.blit_outside _ _ (by omega),
        show addr + (i : ℕ) = addr + 0 + i by omega, inBefore, Nat.zero_add, Memory.ofBlock_apply _ bound]
    · by_cases high : muoff + size ≤ (i : ℕ)
      · obtain ⟨k, position⟩ := Nat.exists_eq_add_of_le high
        have inAfter : after (addr + (muoff + size) + k) = _ :=
          Memory.blit_inside before _ (show k < p.mesoblkSize - size - muoff by omega)
        rw [if_neg (by omega), show addr + (i : ℕ) = addr + (muoff + size) + k by omega, inAfter,
          Memory.ofBlock_apply _ (by omega)]
        congr 1
        exact Fin.ext position.symm
      · rw [if_pos (by omega), afterEq, Memory.blit_outside _ _ (by omega), beforeEq,
          Memory.blit_outside _ _ (by omega)]
        congr 1
        omega

/-! ## The two cases of `do_write` -/

/-- Only the lists, the table, the current macroblock and the owner matter. -/
theorem Consistent.congr {l' : Partition} (consistent : Consistent p l) (infos : l'.dev.b.infos = l.dev.b.infos)
    (self : l'.dev.self = l.dev.self) (bi : l'.dev.bi = l.dev.bi) (noBlockIndices : l'.noBlockIndices = l.noBlockIndices)
    (blockIndices : l'.blockIndices = l.blockIndices) : Consistent p l' := by
  have own : owned p l'.dev = owned p l.dev := owned_congr self fun c => by rw [infos]
  have mapped (m b : ℕ) : Mapped p l' m b ↔ Mapped p l m b := by rw [Mapped, Mapped, blockIndices]
  have alive (b : ℕ) : live p l' b = live p l b := by
    ext m
    rw [mem_live, mem_live, noBlockIndices, mapped]
  refine ⟨?_, ?_, ?_, fun m bound b isMapped => ?_, ?_, ?_⟩
  · rw [blockIndices]
    exact consistent.index_lt
  · rw [own, infos]
    exact consistent.bounded
  · rw [own, infos]
    exact consistent.distinct
  · rw [own, infos, blockIndices]
    exact consistent.placed m (noBlockIndices ▸ bound) b ((mapped m b).mp isMapped)
  · simp only [own, infos, bi, alive]
    exact consistent.current
  · simp only [own, infos, bi, alive]
    exact consistent.counted

/-- A mesoblock of the current macroblock is written where it is. -/
theorem storeMesoblk_ram (consistent : Consistent p l) (inside : m < l.noBlockIndices) (mapped : Mapped p l m cur) :
    storeMesoblk p l cur (l.blockIndices m) m muoff size data = .ok (l.setTmp (Memory.blit l.dev.tmpMacroblock
      ((indexNo p (l.blockIndices m) + 1) * p.mesoblkSize + muoff) size data)) := by
  obtain ⟨own, position, -⟩ := consistent.placed m inside cur mapped
  unfold storeMesoblk
  simp only [if_pos mapped.2, mesoblk_eq (position.trans_le (consistent.bounded cur own))]
  rfl

/-- The positions of the buffer do not overlap. -/
theorem slot_le (p : Params) {i j : ℕ} (before : i < j) :
    (i + 1) * p.mesoblkSize + p.mesoblkSize ≤ (j + 1) * p.mesoblkSize := by
  rw [← Nat.succ_mul]
  exact Nat.mul_le_mul_right _ (Nat.succ_le_succ before)

/-- The contents when a mesoblock of the current macroblock is written. -/
theorem content_setTmp_ram (data : Bytes) (consistent : Consistent p l) (current : l.dev.bi = some cur) (inside : m < l.noBlockIndices)
    (mapped : Mapped p l m cur) (within : muoff + size ≤ p.mesoblkSize) {m' : ℕ} (inside' : m' < l.noBlockIndices) :
    content p (l.setTmp (Memory.blit l.dev.tmpMacroblock
      ((indexNo p (l.blockIndices m) + 1) * p.mesoblkSize + muoff) size data)) m' =
        if m' = m then overwrite (content p l m) muoff size data else content p l m' := by
  set tmp := Memory.blit l.dev.tmpMacroblock ((indexNo p (l.blockIndices m) + 1) * p.mesoblkSize + muoff) size data
  split
  · next same =>
    rw [same, content_ram (l := l.setTmp tmp) mapped current, content_ram mapped current]
    exact slice_blit_overwrite ..
  · next different =>
    by_cases never : l.blockIndices m' = noIndex
    · rw [content_unmapped (l := l.setTmp tmp) never, content_unmapped never]
    · by_cases mapped' : Mapped p l m' cur
      · -- another position of the buffer
        have apart : indexNo p (l.blockIndices m') ≠ indexNo p (l.blockIndices m) := fun same =>
          different (consistent.indexNo_inj (mem_live.mpr ⟨inside', mapped'⟩) (mem_live.mpr ⟨inside, mapped⟩) same)
        rw [content_ram (l := l.setTmp tmp) mapped' current, content_ram mapped' current]
        refine Memory.slice_blit_disjoint _ _ ?_
        change (indexNo p (l.blockIndices m') + 1) * p.mesoblkSize + p.mesoblkSize ≤ _ ∨
          _ ≤ (indexNo p (l.blockIndices m') + 1) * p.mesoblkSize
        rcases Nat.lt_or_gt_of_ne apart with before | after
        · have := slot_le p before
          exact .inl (by omega)
        · have := slot_le p after
          exact .inr (by omega)
      · have elsewhere : l.dev.bi ≠ some (indexId p (l.blockIndices m')) := fun found =>
          mapped' ⟨never, Option.some.inj (found.symm.trans current)⟩
        rw [content_disk (l := l.setTmp tmp) ⟨never, rfl⟩ elsewhere, content_disk ⟨never, rfl⟩ elsewhere]
        rfl

/-- The old place of a mesoblock that is not in the current macroblock becomes obsolete. -/
theorem obsoleteMesoblkByidx_eq (consistent : Consistent p l) (inside : m < l.noBlockIndices)
    (elsewhere : l.dev.bi ≠ some (indexId p (l.blockIndices m))) (l₁ : Partition) (same : l₁.dev.b.infos = l.dev.b.infos) :
    ∃ infos, obsoleteMesoblkByidx p l₁ (l.blockIndices m) =
        .ok { l₁ with dev := { l₁.dev with b := { l₁.dev.b with infos } } } ∧
      (∀ b, Mapped p l m b → infos b = obsoleted (l.dev.b.infos b)) ∧
      ∀ b, ¬ Mapped p l m b → infos b = l.dev.b.infos b := by
  unfold obsoleteMesoblkByidx
  by_cases never : l.blockIndices m = noIndex
  · rw [if_neg (not_not.mpr never)]
    exact ⟨l₁.dev.b.infos, rfl, fun b mapped => absurd never mapped.1, fun b _ => by rw [same]⟩
  · have mapped : Mapped p l m (indexId p (l.blockIndices m)) := ⟨never, rfl⟩
    have member := mem_live.mpr ⟨inside, mapped⟩
    have count := consistent.counted _ (consistent.owned_of_mem_live member) elsewhere
    have some : (l₁.dev.b.infos (indexId p (l.blockIndices m))).noNonobsolete ≠ 0 := by
      rw [same, count]
      exact (Finset.card_pos.mpr ⟨_, member⟩).ne'
    rw [if_pos never]
    refine ⟨_, obsoleteMesoblk_eq_ok_iff.mpr ⟨some, rfl⟩, fun b isOld => ?_, fun b notOld => ?_⟩
    · rw [isOld.unique mapped, BlockioInfos.set_same, same]
    · have other : b ≠ indexId p (l.blockIndices m) := fun isOld => notOld ⟨never, isOld.symm⟩
      change (l₁.dev.b.infos.set _ _) b = _
      rw [BlockioInfos.set_of_ne _ _ other, same]

/-- A mesoblock that is not in the current macroblock gets the next position there. -/
theorem storeMesoblk_relocates (data : Bytes) (consistent : Consistent p l) (current : l.dev.bi = some cur)
    (inside : m < l.noBlockIndices) (away : indexId p (l.blockIndices m) ≠ cur)
    (room : (l.dev.b.infos cur).noIndices < p.b.mmpm) (within : muoff + size ≤ p.mesoblkSize) :
    ∃ l', storeMesoblk p l cur (l.blockIndices m) m muoff size data = .ok l' ∧ Relocated p cur m l l' ∧
      l'.outputInitialized = l.outputInitialized ∧ l'.dev.updated = l.dev.updated ∧
      ramMesoblk p l' (l.dev.b.infos cur).noIndices = overwrite (content p l m) muoff size data ∧
      ∀ k < (l.dev.b.infos cur).noIndices, ramMesoblk p l' k = ramMesoblk p l k := by
  set k₀ := (l.dev.b.infos cur).noIndices with k₀Eq
  have elsewhere : l.dev.bi ≠ some (indexId p (l.blockIndices m)) := fun found =>
    away (Option.some.inj (found.symm.trans current))
  have readable : Readable p l m := consistent.readable inside fun never => never ▸ elsewhere
  have old : content p l m = if l.blockIndices m = noIndex then fun _ => 0
      else readMesoblk p l.dev (indexId p (l.blockIndices m)) (indexNo p (l.blockIndices m)) := by
    by_cases never : l.blockIndices m = noIndex
    · rw [if_pos never, content_unmapped never]
    · rw [if_neg never, content_disk ⟨never, rfl⟩ elsewhere]
  -- the data, what surrounds it, the old place
  obtain ⟨tmp, cow, outside, stored⟩ := doCow_eq (l := l.setTmp (Memory.blit l.dev.tmpMacroblock
    ((k₀ + 1) * p.mesoblkSize + muoff) size data)) ((k₀ + 1) * p.mesoblkSize) readable.position within
  obtain ⟨infos, obsolete, atOld, atOther⟩ := obsoleteMesoblkByidx_eq consistent inside elsewhere
    (l.setTmp tmp) rfl
  have atCur : infos cur = l.dev.b.infos cur := atOther cur fun mapped => away mapped.2
  set l₂ : Partition := { l.setTmp tmp with dev := { (l.setTmp tmp).dev with b := { l.dev.b with infos } } } with l₂Eq
  set l' := updateBlockIndices p (l₂.setInfo cur (withRef (infos cur) m)) m cur (infos cur).noIndices with l'Eq
  have added : addBlockref p l₂ cur m = .ok l' := addBlockref_eq_ok_iff.mpr ⟨by
    change (infos cur).noIndices < _
    rw [atCur]
    exact room, rfl⟩
  have infosCur : l'.dev.b.infos cur = withRef (l.dev.b.infos cur) m := by
    rw [← atCur]
    exact BlockioInfos.set_same ..
  have infosOther (b : ℕ) (other : b ≠ cur) : l'.dev.b.infos b = infos b := BlockioInfos.set_of_ne _ _ other
  have notCur (b : ℕ) (isOld : Mapped p l m b) : b ≠ cur := fun same => away (isOld.2.trans same)
  refine ⟨l', ?_, ⟨⟨rfl, fun c => ?_, fun c => ?_⟩, rfl, ?_, infosCur, fun b isOld => ?_, fun b other notOld => ?_⟩, rfl,
    rfl, ?_, fun k small => ?_⟩
  · unfold storeMesoblk
    simp only [if_neg away]
    refine Except.bind_eq_ok_iff.mpr ⟨_, mesoblk_eq room, Except.bind_eq_ok_iff.mpr ⟨_, cow, ?_⟩⟩
    exact Except.bind_eq_ok_iff.mpr ⟨_, obsolete, added⟩
  · by_cases isCur : c = cur
    · rw [isCur, infosCur]
      exact ⟨rfl, rfl, rfl⟩
    · rw [infosOther c isCur]
      by_cases isOld : Mapped p l m c
      · rw [atOld c isOld]
        exact ⟨rfl, rfl, rfl⟩
      · rw [atOther c isOld]
        exact ⟨rfl, rfl, rfl⟩
  · by_cases isCur : c = cur
    · rw [isCur, infosCur]
      rfl
    · rw [infosOther c isCur]
      by_cases isOld : Mapped p l m c
      · rw [atOld c isOld]
        rfl
      · rw [atOther c isOld]
  · rw [← atCur]
    rfl
  · rw [infosOther b (notCur b isOld), atOld b isOld]
  · rw [infosOther b other, atOther b notOld]
  · refine Eq.trans stored ?_
    rw [old]
    funext i
    unfold overwrite
    split
    · next part =>
      have inData : (l.setTmp (Memory.blit l.dev.tmpMacroblock ((k₀ + 1) * p.mesoblkSize + muoff) size
          data)).dev.tmpMacroblock ((k₀ + 1) * p.mesoblkSize + muoff + (i - muoff)) = _ :=
        Memory.blit_inside l.dev.tmpMacroblock data (show (i : ℕ) - muoff < size by omega)
      exact inData
    · rfl
  · have below := slot_le p small
    refine Memory.slice_congr fun a low high => ?_
    refine (outside a (.inl (by omega))).trans ?_
    exact Memory.blit_outside _ _ (.inl (by omega))

/-! ## One call of `do_write` -/

/-- `do_read` returns the parts of `block` for mesoblock `m`. -/
def Reads (p : Params) (l : Partition) (m : ℕ) (block : p.Mesoblk) : Prop :=
  ∀ muoff size out ooff, muoff + size ≤ p.mesoblkSize →
    doRead p l m muoff size out ooff = .ok (Memory.blit out ooff size fun i => Memory.ofBlock block (muoff + i))

theorem Consistent.reads (consistent : Consistent p l) (inside : m < l.noBlockIndices)
    (unmapped : l.blockIndices m = noIndex → l.dev.bi ≠ some (indexId p noIndex)) : Reads p l m (content p l m) :=
  fun _ _ _ _ within => doRead_eq (consistent.readable inside unmapped) within

/-- Exactly `size` bytes of mesoblock `m` changed, from `muoff` on. -/
structure Stored (p : Params) (m muoff size : ℕ) (data : Bytes) (l l' : Partition) : Prop
    extends SameDevice l.dev l'.dev where
  written : ∃ before, Reads p l m before ∧ (l.blockIndices m = noIndex → before = fun _ => 0) ∧
    Reads p l' m (overwrite before muoff size data)
  others : ∀ m' < l.noBlockIndices, m' ≠ m → ∀ muoff' size' out ooff, muoff' + size' ≤ p.mesoblkSize →
    doRead p l' m' muoff' size' out ooff = doRead p l m' muoff' size' out ooff
  consistent : Consistent p l'

/-- Nothing else changes when the contents do not, and what was never written still was not. -/
theorem doRead_congr (consistent : Consistent p l) (consistent' : Consistent p l') (bi : l'.dev.bi = l.dev.bi)
    (inside : m < l.noBlockIndices) (inside' : m < l'.noBlockIndices) (same : content p l' m = content p l m)
    (mapped : l'.blockIndices m = noIndex ↔ l.blockIndices m = noIndex) {muoff size ooff : ℕ} {out : Bytes}
    (within : muoff + size ≤ p.mesoblkSize) : doRead p l' m muoff size out ooff = doRead p l m muoff size out ooff := by
  by_cases last : l.blockIndices m = noIndex ∧ l.dev.bi = some (indexId p noIndex)
  · unfold doRead
    dsimp only
    rw [last.1, mapped.mpr last.1, bi, if_pos last.2, if_pos last.2, indexNo_noIndex, mesoblk_fails]
    rfl
  · have now : Reads p l' m (content p l' m) := consistent'.reads inside' fun never found =>
      last ⟨mapped.mp never, bi ▸ found⟩
    have before : Reads p l m (content p l m) := consistent.reads inside fun never found => last ⟨never, found⟩
    rw [now muoff size out ooff within, before muoff size out ooff within, same]

/-- The state in which `do_write` starts to work. -/
def touched (l : Partition) : Partition := { l with dev := { l.dev with updated := true } }

theorem initializeOutput_ready (ready : l.outputInitialized = true) : initializeOutput p l = .ok l := by
  unfold initializeOutput
  rw [if_pos ready]
  rfl

/-- `do_write` when there is room. -/
theorem doWrite_run (fuel : ℕ) (ready : l.outputInitialized = true) (current : l.dev.bi = some cur)
    (room : indexId p (l.blockIndices m) = cur ∨ (l.dev.b.infos cur).noIndices < p.b.mmpm)
    (within : muoff + size ≤ p.mesoblkSize) : doWrite p fuel l m muoff size data =
      liftM (storeMesoblk p (touched l) cur (l.blockIndices m) m muoff size data) := by
  have output : initializeOutput p { l with dev := { l.dev with updated := true } } = .ok (touched l) :=
    initializeOutput_ready ready
  have bi : (touched l).dev.bi = some cur := current
  have noIndices : ((touched l).dev.b.infos cur).noIndices = (l.dev.b.infos cur).noIndices := rfl
  unfold doWrite
  dsimp only
  rw [check_of _ _ within, output, Draw.lift_ok, Draw.lift_ok, Draw.ret_bind, Draw.ret_bind, bi]
  dsimp only
  by_cases here : indexId p (l.blockIndices m) = cur
  · rw [if_pos here]
  · rw [if_neg here, noIndices, if_neg (room.resolve_left here).ne, Draw.pure_bind', bi]
    rfl

section Write

variable (data : Bytes) (consistent : Consistent p l) (current : l.dev.bi = some cur) (inside : m < l.noBlockIndices)
  (within : muoff + size ≤ p.mesoblkSize)

include consistent current inside within

/-- Writing a mesoblock of the current macroblock. -/
theorem stored_ram (mapped : Mapped p l m cur) :
    ∃ l', storeMesoblk p l cur (l.blockIndices m) m muoff size data = .ok l' ∧ Stored p m muoff size data l l' := by
  refine ⟨_, storeMesoblk_ram consistent inside mapped, ?_⟩
  set l' := l.setTmp (Memory.blit l.dev.tmpMacroblock ((indexNo p (l.blockIndices m) + 1) * p.mesoblkSize + muoff)
    size data) with l'Eq
  have consistent' : Consistent p l' := consistent.congr rfl rfl rfl rfl rfl
  have contents {m' : ℕ} (inside' : m' < l.noBlockIndices) := content_setTmp_ram data consistent current inside
    mapped within inside'
  refine ⟨⟨rfl, fun _ => ⟨rfl, rfl, rfl⟩, fun _ => rfl⟩, ⟨content p l m, ?_, fun never => absurd never mapped.1, ?_⟩,
    fun m' inside' different muoff' size' out ooff within' => ?_, consistent'⟩
  · exact consistent.reads inside fun never => absurd never mapped.1
  · have written : content p l' m = _ := (contents inside).trans (if_pos rfl)
    rw [← written]
    exact consistent'.reads inside fun never => absurd never mapped.1
  · exact doRead_congr consistent consistent' rfl inside' inside' ((contents inside').trans (if_neg different)) Iff.rfl within'

/-- Writing a mesoblock that is somewhere else, or nowhere. -/
theorem stored_relocated (away : indexId p (l.blockIndices m) ≠ cur) (room : (l.dev.b.infos cur).noIndices < p.b.mmpm)
    (addressable : Addressable p cur) :
    ∃ l', storeMesoblk p l cur (l.blockIndices m) m muoff size data = .ok l' ∧ Stored p m muoff size data l l' := by
  obtain ⟨l', ran, relocated, -, -, written, kept⟩ :=
    storeMesoblk_relocates data consistent current inside away room within
  have notHere : ¬ Mapped p l m cur := fun mapped => away mapped.2
  have consistent' := consistent.relocate current inside notHere addressable room relocated
  have mapped := relocated.mapped_self addressable room
  refine ⟨l', ran, relocated.device, ⟨content p l m, ?_, content_unmapped, ?_⟩,
    fun m' inside' different muoff' size' out ooff within' => ?_, consistent'⟩
  · exact consistent.reads inside fun never found => away (never ▸ (Option.some.inj (found.symm.trans current)))
  · rw [← written, ← relocated.content_self current addressable room]
    exact consistent'.reads (relocated.noBlockIndices ▸ inside) fun never => absurd never mapped.1
  · refine doRead_congr consistent consistent' relocated.bi inside' (relocated.noBlockIndices.symm ▸ inside') ?_ ?_ within'
    · exact relocated.content_other consistent current different inside' kept
    · rw [relocated.entry_other different]

end Write

/-- A mesoblock whose entry names the current macroblock is there, or was never written. -/
theorem storeMesoblk_fails (muoff size : ℕ) (data : Bytes) (never : l.blockIndices m = noIndex) (last : indexId p noIndex = cur) :
    storeMesoblk p l cur (l.blockIndices m) m muoff size data = .error (.assertion "no < l->dev->b->mmpm") := by
  unfold storeMesoblk
  simp only [never, if_pos last, indexNo_noIndex, mesoblk_fails]
  rfl

/-- The entry of a macroblock that lists a mesoblock can hold its number. -/
theorem Relocated.addressable (relocated : Relocated p cur m l l') (current : l.dev.bi = some cur)
    (consistent' : Consistent p l') (room : (l.dev.b.infos cur).noIndices < p.b.mmpm) : Addressable p cur := by
  obtain ⟨-, entries⟩ := consistent'.current cur (relocated.bi.trans current)
  rw [relocated.current] at entries
  have member := entries (l.dev.b.infos cur).noIndices (Nat.lt_succ_self _)
  have listed : (withRef (l.dev.b.infos cur) m).indices (l.dev.b.infos cur).noIndices = m := Function.update_self ..
  rw [listed] at member
  have number := (mem_live.mp member).2.2
  rw [relocated.entry_self, indexId_blockIndex cur room] at number
  rw [Addressable, ← number]
  exact Nat.mod_lt _ (Nat.two_pow_pos _)

theorem touched_sameDevice (l : Partition) : SameDevice l.dev (touched l).dev :=
  ⟨rfl, fun _ => ⟨rfl, rfl, rfl⟩, fun _ => rfl⟩

theorem Stored.of_touched (stored : Stored p m muoff size data (touched l) l') : Stored p m muoff size data l l' :=
  ⟨(touched_sameDevice l).trans stored.toSameDevice, stored.written, stored.others, stored.consistent⟩

section DoWrite

variable (fuel : ℕ) (data : Bytes) (consistent : Consistent p l) (ready : l.outputInitialized = true)
  (current : l.dev.bi = some cur) (room : Mapped p l m cur ∨ (l.dev.b.infos cur).noIndices < p.b.mmpm)
  (inside : m < l.noBlockIndices) (within : muoff + size ≤ p.mesoblkSize)

include ready current room within in
/-- The call comes down to its last part. -/
theorem doWrite_done_iff : (∀ tape, (doWrite p fuel l m muoff size data).run tape = .done l' tape) ↔
    storeMesoblk p (touched l) cur ((touched l).blockIndices m) m muoff size data = .ok l' := by
  rw [doWrite_run fuel ready current (room.imp_left And.right) within]
  exact ⟨fun all => (Draw.lift_done_iff.mp (all [])).1, fun ran tape => Draw.lift_done_iff.mpr ⟨ran, rfl⟩⟩

include consistent ready current room inside within

theorem Stored.addressable (ran : ∀ tape, (doWrite p fuel l m muoff size data).run tape = .done l' tape)
    (stored : Stored p m muoff size data l l') (away : ¬ Mapped p l m cur) :
    Addressable p (if l.blockIndices m = noIndex then cur + 1 else cur) := by
  have consistentT : Consistent p (touched l) := consistent.congr rfl rfl rfl rfl rfl
  rw [doWrite_done_iff fuel data ready current room within] at ran
  by_cases here : indexId p (l.blockIndices m) = cur
  · -- the entry of a mesoblock that was never written names the last macroblock
    have never : l.blockIndices m = noIndex := by
      by_contra written
      exact away ⟨written, here⟩
    have fails := storeMesoblk_fails (l := touched l) muoff size data never
      (show indexId p noIndex = cur from never ▸ here)
    exact nomatch ran.symm.trans fails
  · have free := room.resolve_left away
    obtain ⟨l'', ran', relocated, -⟩ := storeMesoblk_relocates data consistentT current inside here free within
    obtain rfl : l' = l'' := Except.ok.inj (ran.symm.trans ran')
    have addressable := relocated.addressable current stored.consistent free
    split
    · next never =>
      rw [never, indexId_noIndex] at here
      unfold Addressable at addressable ⊢
      omega
    · exact addressable

/-- A write inside the current macroblock ends without a failure and changes exactly the written bytes, when the
mesoblock is there already, or when the entries of the table can hold the number of the current macroblock and tell
it from the entry of a mesoblock that was never written. -/
theorem write_exact_iff :
    (∃ l', (∀ tape, (doWrite p fuel l m muoff size data).run tape = .done l' tape) ∧ Stored p m muoff size data l l') ↔
      Mapped p l m cur ∨ Addressable p (if l.blockIndices m = noIndex then cur + 1 else cur) := by
  have consistentT : Consistent p (touched l) := consistent.congr rfl rfl rfl rfl rfl
  simp only [doWrite_done_iff fuel data ready current room within]
  constructor
  · rintro ⟨l', ran, stored⟩
    rw [← doWrite_done_iff fuel data ready current room within] at ran
    by_cases mapped : Mapped p l m cur
    · exact .inl mapped
    · exact .inr (stored.addressable fuel data consistent ready current room inside within ran mapped)
  · intro condition
    by_cases mapped : Mapped p l m cur
    · obtain ⟨l', ran, stored⟩ := stored_ram data consistentT current inside within mapped
      exact ⟨l', ran, stored.of_touched⟩
    have addressable : Addressable p cur ∧ indexId p (l.blockIndices m) ≠ cur := by
      have number := condition.resolve_left mapped
      split at number
      · next never =>
        rw [never, indexId_noIndex]
        unfold Addressable at number ⊢
        omega
      · next written => exact ⟨number, fun here => mapped ⟨written, here⟩⟩
    obtain ⟨l', ran, stored⟩ := stored_relocated data consistentT current inside within addressable.2
      (room.resolve_left mapped) addressable.1
    exact ⟨l', ran, stored.of_touched⟩

end DoWrite

/-- The partition of one mesoblock, with the output ready. -/
def oneMesoblkReady (p : Params) (cur t : ℕ) : Partition := { oneMesoblk p cur t with outputInitialized := true }

theorem consistent_oneMesoblkReady {cur t : ℕ} (different : t ≠ cur) (curInside : cur < p.b.totalMacroblocks)
    (tInside : t < p.b.totalMacroblocks) (addressable : Addressable p t) : Consistent p (oneMesoblkReady p cur t) :=
  (wellFormed_oneMesoblk different curInside tInside addressable).congr rfl rfl rfl rfl rfl

/-- Five bytes of a mesoblock that macroblock 1 holds. -/
theorem write_exact_iff_oneMesoblk : ∃ l',
    (∀ tape, (doWrite (.smallest 2 (by decide)) 0 (oneMesoblkReady (.smallest 2 (by decide)) 0 1) 0 3 5 fun _ => 7).run
      tape = .done l' tape) ∧
    Stored (.smallest 2 (by decide)) 0 3 5 (fun _ => 7) (oneMesoblkReady (.smallest 2 (by decide)) 0 1) l' := by
  have consistent : Consistent (.smallest 2 (by decide)) (oneMesoblkReady (.smallest 2 (by decide)) 0 1) :=
    consistent_oneMesoblkReady (by decide) (by decide) (by decide) (by decide)
  exact (write_exact_iff 0 _ consistent rfl rfl (.inr (by decide)) Nat.one_pos (by decide)).mpr (.inr (by decide))

/-- What is written into the last macroblock of a device of more than 512 terabytes is lost. -/
theorem write_loses : Consistent terabytesParams (oneMesoblkReady terabytesParams (2 ^ 19) 0) ∧
    ((oneMesoblkReady terabytesParams (2 ^ 19) 0).dev.b.infos (2 ^ 19)).noIndices < terabytesParams.b.mmpm ∧
    ¬ ∃ l', (∀ tape, (doWrite terabytesParams 0 (oneMesoblkReady terabytesParams (2 ^ 19) 0) 0 3 5 fun _ => 7).run tape =
        .done l' tape) ∧
      Stored terabytesParams 0 3 5 (fun _ => 7) (oneMesoblkReady terabytesParams (2 ^ 19) 0) l' := by
  have consistent : Consistent terabytesParams (oneMesoblkReady terabytesParams (2 ^ 19) 0) :=
    consistent_oneMesoblkReady (by decide) (by decide) (by decide) (by decide)
  refine ⟨consistent, by decide, ?_⟩
  rintro ⟨l', ran, stored⟩
  have away : ¬ Mapped terabytesParams (oneMesoblkReady terabytesParams (2 ^ 19) 0) 0 (2 ^ 19) := by decide
  have addressable := stored.addressable 0 (fun _ => 7) consistent rfl rfl (.inr (by decide)) Nat.one_pos (by decide)
    ran away
  rw [if_neg (by decide)] at addressable
  exact absurd addressable (by decide)

end Scubed3.Partition
