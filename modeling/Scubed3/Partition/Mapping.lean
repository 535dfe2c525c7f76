import Scubed3.Device.Disk
import Mathlib.Data.Nat.Bitwise
import Mathlib.Data.Finset.Card

/-! # Where the mesoblocks are

`block_indices` maps a mesoblock to a position in a macroblock, and the macroblock lists its mesoblocks by position.
`Consistent` says that the two agree, and that the counters of the macroblocks count what is mapped to them. The
contents of a mesoblock are in memory, on the device, or zero.
-/

namespace Scubed3.Partition

open Blockio

variable (p : Params)

/-! ## Entries of the table -/

/-- The macroblocks whose positions can be stored in an entry of 32 bits. -/
def Addressable (b : ℕ) : Prop := b < 2 ^ (32 - p.b.mesobits)

instance (b : ℕ) : Decidable (Addressable p b) := inferInstanceAs (Decidable (_ < _))

variable {p}

theorem mesobits_le (p : Params) : p.b.mesobits ≤ 32 := p.sound.mesobits_le.trans (by decide)

theorem two_pow_mesobits (p : Params) : 2 ^ (32 - p.b.mesobits) * 2 ^ p.b.mesobits = 2 ^ 32 := by
  rw [← pow_add, Nat.sub_add_cancel (mesobits_le p)]

theorem indexId_eq (index : ℕ) : indexId p index = index / 2 ^ p.b.mesobits := Nat.shiftRight_eq_div_pow _ _

theorem indexNo_eq (index : ℕ) : indexNo p index = index % 2 ^ p.b.mesobits := by
  have mask : 0xFFFFFFFF >>> (32 - p.b.mesobits) = 2 ^ p.b.mesobits - 1 := by
    have few := p.sound.mesobits_le
    generalize p.b.mesobits = k at few
    interval_cases k
    all_goals rfl
  rw [indexNo, mask, Nat.and_two_pow_sub_one_eq_mod]

/-- An entry is its two parts. -/
theorem index_eq (index : ℕ) : indexId p index * 2 ^ p.b.mesobits + indexNo p index = index := by
  rw [indexId_eq, indexNo_eq, Nat.div_add_mod']

theorem blockIndex_lt (id no : ℕ) : blockIndex p id no < 2 ^ 32 := Nat.mod_lt _ (Nat.two_pow_pos 32)

theorem blockIndex_eq (id : ℕ) {no : ℕ} (small : no < p.b.mmpm) :
    blockIndex p id no = (id % 2 ^ (32 - p.b.mesobits)) * 2 ^ p.b.mesobits + no := by
  have pow := p.sound.mmpm
  have size := two_pow_mesobits p
  have few : 2 ^ p.b.mesobits ≤ 2 ^ 14 := Nat.pow_le_pow_right (by decide) p.sound.mesobits_le
  have below := Nat.mod_lt id (Nat.two_pow_pos (32 - p.b.mesobits))
  have room : (id % 2 ^ (32 - p.b.mesobits)) * 2 ^ p.b.mesobits + 2 ^ p.b.mesobits ≤ 2 ^ 32 := by
    rw [← Nat.succ_mul, ← size]
    exact Nat.mul_le_mul_right _ below
  rw [blockIndex, Nat.mod_eq_of_lt (show no < 2 ^ 16 by omega), Nat.shiftLeft_eq]
  conv_lhs => rw [← Nat.div_add_mod id (2 ^ (32 - p.b.mesobits)), Nat.add_mul, Nat.mul_right_comm, size,
    Nat.add_assoc, Nat.mul_add_mod]
  exact Nat.mod_eq_of_lt (by omega)

theorem indexNo_blockIndex (id : ℕ) {no : ℕ} (small : no < p.b.mmpm) : indexNo p (blockIndex p id no) = no := by
  have pow := p.sound.mmpm
  rw [indexNo_eq, blockIndex_eq id small, Nat.mul_comm, Nat.mul_add_mod, Nat.mod_eq_of_lt (by omega)]

theorem indexId_blockIndex (id : ℕ) {no : ℕ} (small : no < p.b.mmpm) :
    indexId p (blockIndex p id no) = id % 2 ^ (32 - p.b.mesobits) := by
  have pow := p.sound.mmpm
  rw [indexId_eq, blockIndex_eq id small, Nat.mul_comm, Nat.mul_add_div (Nat.two_pow_pos _),
    Nat.div_eq_of_lt (by omega), Nat.add_zero]

theorem Addressable.indexId {id no : ℕ} (addressable : Addressable p id) (small : no < p.b.mmpm) :
    indexId p (blockIndex p id no) = id := by
  rw [indexId_blockIndex id small, Nat.mod_eq_of_lt addressable]

/-- The entry of a mesoblock that was never written is the last position of the last macroblock, and one more. -/
theorem noIndex_eq (p : Params) : noIndex = (2 ^ (32 - p.b.mesobits) - 1) * 2 ^ p.b.mesobits + p.b.mmpm := by
  have pow := p.sound.mmpm
  have few : 2 ^ p.b.mesobits ≤ 2 ^ 32 := Nat.pow_le_pow_right (by decide) (mesobits_le p)
  rw [Nat.sub_mul, two_pow_mesobits, noIndex]
  omega

theorem indexNo_noIndex (p : Params) : indexNo p noIndex = p.b.mmpm := by
  have pow := p.sound.mmpm
  rw [indexNo_eq, noIndex_eq, Nat.mul_comm, Nat.mul_add_mod, Nat.mod_eq_of_lt (by omega)]

theorem indexId_noIndex (p : Params) : indexId p noIndex = 2 ^ (32 - p.b.mesobits) - 1 := by
  have pow := p.sound.mmpm
  rw [indexId_eq, noIndex_eq, Nat.mul_comm, Nat.mul_add_div (Nat.two_pow_pos _), Nat.div_eq_of_lt (by omega),
    Nat.add_zero]

theorem blockIndex_ne_noIndex (id : ℕ) {no : ℕ} (small : no < p.b.mmpm) : blockIndex p id no ≠ noIndex := by
  intro same
  have position := indexNo_blockIndex id small
  rw [same, indexNo_noIndex] at position
  omega

theorem indexId_lt {index : ℕ} (small : index < 2 ^ 32) : Addressable p (indexId p index) := by
  rw [Addressable, indexId_eq, Nat.div_lt_iff_lt_mul (Nat.two_pow_pos _), two_pow_mesobits]
  exact small

/-! ## What is mapped to a macroblock -/

/-- Mesoblock `m` is mapped to macroblock `b`. -/
def Mapped (p : Params) (l : Partition) (m b : ℕ) : Prop :=
  l.blockIndices m ≠ noIndex ∧ indexId p (l.blockIndices m) = b

instance (l : Partition) (m b : ℕ) : Decidable (Mapped p l m b) := inferInstanceAs (Decidable (_ ∧ _))

/-- The mesoblocks that are mapped to macroblock `b`. -/
def live (p : Params) (l : Partition) (b : ℕ) : Finset ℕ := (Finset.range l.noBlockIndices).filter (Mapped p l · b)

/-- The table and the lists of the macroblocks agree, and the counters count. -/
structure Consistent (p : Params) (l : Partition) : Prop where
  index_lt : ∀ m, l.blockIndices m < 2 ^ 32
  bounded : ∀ b ∈ owned p l.dev, (l.dev.b.infos b).noIndices ≤ p.b.mmpm
  distinct : ∀ b ∈ owned p l.dev, ∀ i < (l.dev.b.infos b).noIndices, ∀ j < (l.dev.b.infos b).noIndices,
    (l.dev.b.infos b).indices i = (l.dev.b.infos b).indices j → i = j
  placed : ∀ m < l.noBlockIndices, ∀ b, Mapped p l m b → b ∈ owned p l.dev ∧
    indexNo p (l.blockIndices m) < (l.dev.b.infos b).noIndices ∧
    (l.dev.b.infos b).indices (indexNo p (l.blockIndices m)) = m
  current : ∀ b, l.dev.bi = some b → b ∈ owned p l.dev ∧
    ∀ k < (l.dev.b.infos b).noIndices, (l.dev.b.infos b).indices k ∈ live p l b
  counted : ∀ b ∈ owned p l.dev, l.dev.bi ≠ some b → (l.dev.b.infos b).noNonobsolete = (live p l b).card

section Live

variable {l : Partition} {b m : ℕ}

theorem mem_live : m ∈ live p l b ↔ m < l.noBlockIndices ∧ Mapped p l m b := by
  rw [live, Finset.mem_filter, Finset.mem_range]

/-- A mesoblock is mapped to one macroblock. -/
theorem Mapped.unique {b' : ℕ} (mapped : Mapped p l m b) (mapped' : Mapped p l m b') : b = b' :=
  mapped.2.symm.trans mapped'.2

theorem Mapped.entry (mapped : Mapped p l m b) :
    b * 2 ^ p.b.mesobits + indexNo p (l.blockIndices m) = l.blockIndices m := by
  rw [← mapped.2, index_eq]

namespace Consistent

variable (consistent : Consistent p l)

include consistent

/-- The mesoblocks of a macroblock are at different positions. -/
theorem indexNo_inj {m' : ℕ} (member : m ∈ live p l b) (member' : m' ∈ live p l b)
    (same : indexNo p (l.blockIndices m) = indexNo p (l.blockIndices m')) : m = m' := by
  obtain ⟨bound, mapped⟩ := mem_live.mp member
  obtain ⟨bound', mapped'⟩ := mem_live.mp member'
  rw [← (consistent.placed m bound b mapped).2.2, ← (consistent.placed m' bound' b mapped').2.2, same]

theorem owned_of_mem_live (member : m ∈ live p l b) : b ∈ owned p l.dev :=
  (consistent.placed m (mem_live.mp member).1 b (mem_live.mp member).2).1

/-- There are not more of them than the macroblock lists. -/
theorem card_live_le (b : ℕ) : (live p l b).card ≤ (l.dev.b.infos b).noIndices := by
  rw [← Finset.card_range (l.dev.b.infos b).noIndices]
  refine Finset.card_le_card_of_injOn (fun m => indexNo p (l.blockIndices m)) (fun m member => ?_)
    fun m member m' member' => consistent.indexNo_inj member member'
  obtain ⟨bound, mapped⟩ := mem_live.mp member
  exact Finset.mem_coe.mpr (Finset.mem_range.mpr (consistent.placed m bound b mapped).2.1)

/-- The current macroblock lists what is mapped to it. -/
theorem current_position {b k : ℕ} (current : l.dev.bi = some b) (listed : k < (l.dev.b.infos b).noIndices) :
    indexNo p (l.blockIndices ((l.dev.b.infos b).indices k)) = k := by
  obtain ⟨own, entries⟩ := consistent.current b current
  obtain ⟨bound, mapped⟩ := mem_live.mp (entries k listed)
  obtain ⟨-, position, same⟩ := consistent.placed _ bound b mapped
  exact consistent.distinct b own _ position _ listed same

theorem card_live_current (current : l.dev.bi = some b) : (live p l b).card = (l.dev.b.infos b).noIndices := by
  obtain ⟨own, entries⟩ := consistent.current b current
  refine le_antisymm (consistent.card_live_le b) ?_
  rw [← Finset.card_range (l.dev.b.infos b).noIndices]
  refine Finset.card_le_card_of_injOn (l.dev.b.infos b).indices (fun k member => ?_) fun i first j second same => ?_
  · exact Finset.mem_coe.mpr (entries k (Finset.mem_range.mp member))
  · exact consistent.distinct b own i (Finset.mem_range.mp first) j (Finset.mem_range.mp second) same

end Consistent

end Live

/-! ## Moving a mesoblock into the current macroblock -/

/-- Mesoblock `m` was added to the list of `cur`, and the macroblock it was mapped to before counts one less. -/
structure Relocated (p : Params) (cur m : ℕ) (l l' : Partition) : Prop where
  device : SameDevice l.dev l'.dev
  noBlockIndices : l'.noBlockIndices = l.noBlockIndices
  table : l'.blockIndices = Function.update l.blockIndices m (blockIndex p cur (l.dev.b.infos cur).noIndices)
  current : l'.dev.b.infos cur = withRef (l.dev.b.infos cur) m
  old : ∀ b, Mapped p l m b → l'.dev.b.infos b = obsoleted (l.dev.b.infos b)
  others : ∀ b, b ≠ cur → ¬ Mapped p l m b → l'.dev.b.infos b = l.dev.b.infos b

namespace Relocated

variable {cur m : ℕ} {l l' : Partition} (relocated : Relocated p cur m l l')

include relocated

theorem bi : l'.dev.bi = l.dev.bi := by
  rw [relocated.device.rest]
  rfl

theorem owned_eq : owned p l'.dev = owned p l.dev :=
  owned_congr (by rw [relocated.device.rest]; rfl) fun c => (relocated.device.infos c).2.2

theorem entry_self : l'.blockIndices m = blockIndex p cur (l.dev.b.infos cur).noIndices := by
  rw [relocated.table, Function.update_self]

theorem entry_other {m' : ℕ} (different : m' ≠ m) : l'.blockIndices m' = l.blockIndices m' := by
  rw [relocated.table, Function.update_of_ne different]

theorem mapped_other {m' b : ℕ} (different : m' ≠ m) : Mapped p l' m' b ↔ Mapped p l m' b := by
  rw [Mapped, Mapped, relocated.entry_other different]

theorem mapped_self (addressable : Addressable p cur) (room : (l.dev.b.infos cur).noIndices < p.b.mmpm) :
    Mapped p l' m cur := by
  rw [Mapped, relocated.entry_self]
  exact ⟨blockIndex_ne_noIndex cur room, addressable.indexId room⟩

theorem live_current (addressable : Addressable p cur) (room : (l.dev.b.infos cur).noIndices < p.b.mmpm)
    (inside : m < l.noBlockIndices) : live p l' cur = insert m (live p l cur) := by
  ext m'
  rw [Finset.mem_insert, mem_live, mem_live, relocated.noBlockIndices]
  by_cases same : m' = m
  · subst same
    exact iff_of_true ⟨inside, relocated.mapped_self addressable room⟩ (.inl rfl)
  · rw [relocated.mapped_other same, or_iff_right same]

theorem live_other (addressable : Addressable p cur) (room : (l.dev.b.infos cur).noIndices < p.b.mmpm) {b : ℕ}
    (different : b ≠ cur) : live p l' b = (live p l b).erase m := by
  ext m'
  rw [Finset.mem_erase, mem_live, mem_live, relocated.noBlockIndices]
  by_cases same : m' = m
  · subst same
    refine iff_of_false (fun now => ?_) fun before => before.1 rfl
    exact different (now.2.unique (relocated.mapped_self addressable room))
  · rw [relocated.mapped_other same, and_iff_right same]

/-- The number of entries in the list of `cur`. -/
theorem noIndices_current : (l'.dev.b.infos cur).noIndices = (l.dev.b.infos cur).noIndices + 1 := by
  rw [relocated.current]
  rfl

end Relocated

theorem obsoleted_noIndices_le (info : BlockioInfo) : (obsoleted info).noIndices ≤ info.noIndices := by
  unfold obsoleted
  dsimp only
  split
  · exact Nat.zero_le _
  · exact le_rfl

theorem obsoleted_noIndices_of_two {info : BlockioInfo} (two : 2 ≤ info.noNonobsolete) :
    (obsoleted info).noIndices = info.noIndices := if_neg (by omega)

/-- Moving a mesoblock into the current macroblock keeps everything consistent. -/
theorem Consistent.relocate {cur m : ℕ} {l l' : Partition} (consistent : Consistent p l) (current : l.dev.bi = some cur)
    (inside : m < l.noBlockIndices) (away : ¬ Mapped p l m cur) (addressable : Addressable p cur)
    (room : (l.dev.b.infos cur).noIndices < p.b.mmpm) (relocated : Relocated p cur m l l') : Consistent p l' := by
  obtain ⟨own, entries⟩ := consistent.current cur current
  have liveOther {b : ℕ} (different : b ≠ cur) := relocated.live_other addressable room different
  have liveCur := relocated.live_current addressable room inside
  have fresh (k : ℕ) (listed : k < (l.dev.b.infos cur).noIndices) : (l.dev.b.infos cur).indices k ≠ m := by
    intro same
    exact away (same ▸ (mem_live.mp (entries k listed)).2)
  -- a macroblock is the current one, the one that loses the mesoblock, or it does not change
  have kinds (b : ℕ) (motive : BlockioInfo → Prop) (atCur : b = cur → motive (withRef (l.dev.b.infos b) m))
      (atOld : b ≠ cur → Mapped p l m b → motive (obsoleted (l.dev.b.infos b)))
      (other : b ≠ cur → ¬ Mapped p l m b → motive (l.dev.b.infos b)) : motive (l'.dev.b.infos b) := by
    by_cases isCur : b = cur
    · subst isCur
      rw [relocated.current]
      exact atCur rfl
    · by_cases isOld : Mapped p l m b
      · rw [relocated.old b isOld]
        exact atOld isCur isOld
      · rw [relocated.others b isCur isOld]
        exact other isCur isOld
  refine ⟨fun m' => ?_, fun b member => ?_, fun b member => ?_, fun m' bound b mapped => ?_, fun b found => ?_,
    fun b member elsewhere => ?_⟩
  · by_cases same : m' = m
    · rw [same, relocated.entry_self]
      exact blockIndex_lt ..
    · rw [relocated.entry_other same]
      exact consistent.index_lt m'
  · rw [relocated.owned_eq] at member
    refine kinds b (fun info => info.noIndices ≤ p.b.mmpm) (fun same => ?_) (fun _ _ => ?_) fun _ _ => ?_
    · rw [same]
      exact room
    · exact (obsoleted_noIndices_le _).trans (consistent.bounded b member)
    · exact consistent.bounded b member
  · rw [relocated.owned_eq] at member
    refine kinds b (fun info => ∀ i < info.noIndices, ∀ j < info.noIndices, info.indices i = info.indices j → i = j)
      (fun same => ?_) (fun _ _ i first j second => ?_) fun _ _ => consistent.distinct b member
    · subst same
      intro i first j second same
      change i < (l.dev.b.infos b).noIndices + 1 at first
      change j < (l.dev.b.infos b).noIndices + 1 at second
      change Function.update (l.dev.b.infos b).indices (l.dev.b.infos b).noIndices m i =
        Function.update (l.dev.b.infos b).indices (l.dev.b.infos b).noIndices m j at same
      by_cases lastI : i = (l.dev.b.infos b).noIndices <;> by_cases lastJ : j = (l.dev.b.infos b).noIndices
      · rw [lastI, lastJ]
      · rw [lastI, Function.update_self, Function.update_of_ne lastJ] at same
        exact absurd same.symm (fresh j (by omega))
      · rw [lastJ, Function.update_self, Function.update_of_ne lastI] at same
        exact absurd same (fresh i (by omega))
      · rw [Function.update_of_ne lastI, Function.update_of_ne lastJ] at same
        exact consistent.distinct b member i (by omega) j (by omega) same
    · have fewer := obsoleted_noIndices_le (l.dev.b.infos b)
      exact consistent.distinct b member i (first.trans_le fewer) j (second.trans_le fewer)
  · rw [relocated.owned_eq]
    rw [relocated.noBlockIndices] at bound
    by_cases same : m' = m
    · subst same
      obtain rfl := mapped.unique (relocated.mapped_self addressable room)
      rw [relocated.entry_self, indexNo_blockIndex b room, relocated.current]
      exact ⟨own, Nat.lt_succ_self _, Function.update_self ..⟩
    · rw [relocated.entry_other same]
      rw [relocated.mapped_other same] at mapped
      obtain ⟨member, position, listed⟩ := consistent.placed m' bound b mapped
      refine ⟨member, kinds b (fun info => indexNo p (l.blockIndices m') < info.noIndices ∧
        info.indices (indexNo p (l.blockIndices m')) = m') (fun isCur => ?_) (fun isOther isOld => ?_)
        fun _ _ => ⟨position, listed⟩⟩
      · refine ⟨position.trans (Nat.lt_succ_self _), ?_⟩
        change Function.update (l.dev.b.infos b).indices (l.dev.b.infos b).noIndices m _ = m'
        rw [Function.update_of_ne position.ne, listed]
      · -- two mesoblocks are mapped to it, so its list stays
        have two : 2 ≤ (live p l b).card := Finset.one_lt_card.mpr
          ⟨m', mem_live.mpr ⟨bound, mapped⟩, m, mem_live.mpr ⟨inside, isOld⟩, same⟩
        have counted := consistent.counted b member fun found => isOther (Option.some.inj (current.symm.trans found)).symm
        rw [obsoleted_noIndices_of_two (counted ▸ two)]
        exact ⟨position, listed⟩
  · rw [relocated.bi, current] at found
    cases found
    rw [relocated.owned_eq, liveCur, relocated.current]
    refine ⟨own, fun k listed => ?_⟩
    change k < (l.dev.b.infos cur).noIndices + 1 at listed
    change Function.update (l.dev.b.infos cur).indices (l.dev.b.infos cur).noIndices m k ∈ _
    by_cases last : k = (l.dev.b.infos cur).noIndices
    · rw [last, Function.update_self]
      exact Finset.mem_insert_self ..
    · rw [Function.update_of_ne last]
      exact Finset.mem_insert_of_mem (entries k (by omega))
  · rw [relocated.owned_eq] at member
    rw [relocated.bi] at elsewhere
    have different : b ≠ cur := fun same => elsewhere (same ▸ current)
    have counted := consistent.counted b member elsewhere
    rw [liveOther different]
    refine kinds b (fun info => info.noNonobsolete = ((live p l b).erase m).card) (fun same => absurd same different)
      (fun _ isOld => ?_) fun _ notOld => ?_
    · rw [Finset.card_erase_of_mem (mem_live.mpr ⟨inside, isOld⟩), ← counted]
      rfl
    · rw [Finset.erase_eq_of_notMem fun member => notOld (mem_live.mp member).2, counted]

end Scubed3.Partition
