import Scubed3.Partition.Mapping

/-! # Where the entries of the table can point

An entry has 32 bits for the number of a macroblock and the position in it. How many macroblocks a device may have is
decided by the room for the bitmap in the index block, which is another number.
-/

namespace Scubed3.Partition

open Blockio

variable {p : Params}

/-- What `update_block_indices` stores is decoded to the same place, no two places have the same entry and none has the entry
of a mesoblock that was never written; and all mesoblocks of a partition can be counted. -/
structure Indexable (p : Params) : Prop where
  decodes : ∀ (l : Partition) (offset : ℕ), ∀ id < p.b.totalMacroblocks, ∀ no < p.b.mmpm,
    indexId p ((updateBlockIndices p l offset id no).blockIndices offset) = id ∧
      indexNo p ((updateBlockIndices p l offset id no).blockIndices offset) = no ∧
      (updateBlockIndices p l offset id no).blockIndices offset < 2 ^ 32 ∧
      (updateBlockIndices p l offset id no).blockIndices offset ≠ noIndex
  injective : ∀ id < p.b.totalMacroblocks, ∀ no < p.b.mmpm, ∀ id' < p.b.totalMacroblocks, ∀ no' < p.b.mmpm,
    blockIndex p id no = blockIndex p id' no' → id = id' ∧ no = no'
  noIndex : ¬ indexId p noIndex < p.b.totalMacroblocks
  counts : ∀ noMacroblocks ≤ p.b.totalMacroblocks, ∀ reserved ≤ noMacroblocks,
    (noMacroblocks - reserved) * p.b.mmpm < 2 ^ 32 ∧
      usableMesoblks p noMacroblocks reserved = (noMacroblocks - reserved) * p.b.mmpm

/-- The entries are wide enough exactly for less than `2 ^ (32 - mesobits)` macroblocks. -/
theorem indexable_iff (p : Params) : Indexable p ↔ p.b.totalMacroblocks < 2 ^ (32 - p.b.mesobits) := by
  have some := Nat.two_pow_pos (32 - p.b.mesobits)
  constructor
  · intro indexable
    have last := indexable.noIndex
    rw [indexId_noIndex] at last
    omega
  · intro few
    have addressable {id : ℕ} (bound : id < p.b.totalMacroblocks) : Addressable p id := bound.trans few
    refine ⟨fun l offset id bound no small => ?_, fun id bound no small id' bound' no' small' same => ?_, ?_,
      fun noMacroblocks above reserved less => ?_⟩
    · have stored : (updateBlockIndices p l offset id no).blockIndices offset = blockIndex p id no := Function.update_self ..
      rw [stored]
      exact ⟨(addressable bound).indexId small, indexNo_blockIndex id small, blockIndex_lt id no, blockIndex_ne_noIndex id small⟩
    · have ids := congrArg (indexId p) same
      have nos := congrArg (indexNo p) same
      rw [(addressable bound).indexId small, (addressable bound').indexId small'] at ids
      rw [indexNo_blockIndex id small, indexNo_blockIndex id' small'] at nos
      exact ⟨ids, nos⟩
    · rw [indexId_noIndex]
      omega
    · -- there are more positions than can be written, the index block being one of them
      have pow := p.sound.mmpm
      have room : (noMacroblocks - reserved + 1) * (p.b.mmpm + 1) ≤ 2 ^ 32 := by
        rw [pow, ← two_pow_mesobits p]
        exact Nat.mul_le_mul_right _ (by omega)
      have less : (noMacroblocks - reserved) * p.b.mmpm < 2 ^ 32 := by
        rw [Nat.add_mul, Nat.mul_add] at room
        omega
      have total := p.sound.total_le
      have max := p.sound.maxMacroblocks_lt
      refine ⟨less, ?_⟩
      rw [usableMesoblks, show (noMacroblocks + 2 ^ 32 - reserved) % 2 ^ 32 = noMacroblocks - reserved by omega,
        Nat.mod_eq_of_lt less]

/-- There are accepted devices with more macroblocks than the entries can tell apart. -/
theorem indices_collide : ¬ ∀ p : Params, Indexable p := by
  intro all
  have few := (all ⟨⟨30, 17, 8191, 33024, 784384, 2 ^ 19 + 1⟩, ⟨⟨30, 17, (2 ^ 19 + 1) * 2 ^ 30, by rfl⟩, by decide⟩,
    Cipher.complement _, fun _ _ => 0⟩).noIndex
  exact few (by decide)

end Scubed3.Partition
