import Scubed3.Partition.Mapping

/-! # The contents of a mesoblock

What `do_read` returns comes from the buffer, from the device, or is zero. A mesoblock that moves into the current
macroblock does not change the contents of the others.
-/

namespace Scubed3.Partition

open Blockio

variable {p : Params} {l l' : Partition} {m : ℕ}

/-- The buffer at position `no` of the current macroblock. -/
def ramMesoblk (p : Params) (l : Partition) (no : ℕ) : p.Mesoblk :=
  Memory.slice l.dev.tmpMacroblock ((no + 1) * p.mesoblkSize) p.mesoblkSize

/-- The contents of mesoblock `m`. -/
def content (p : Params) (l : Partition) (m : ℕ) : p.Mesoblk :=
  let index := l.blockIndices m
  if index = noIndex then fun _ => 0
  else if l.dev.bi = some (indexId p index) then ramMesoblk p l (indexNo p index)
  else readMesoblk p l.dev (indexId p index) (indexNo p index)

theorem content_unmapped (never : l.blockIndices m = noIndex) : content p l m = fun _ => 0 := if_pos never

theorem content_ram {b : ℕ} (mapped : Mapped p l m b) (current : l.dev.bi = some b) :
    content p l m = ramMesoblk p l (indexNo p (l.blockIndices m)) := by
  unfold content
  dsimp only
  rw [if_neg mapped.1, if_pos (mapped.2 ▸ current)]

theorem content_disk {b : ℕ} (mapped : Mapped p l m b) (elsewhere : l.dev.bi ≠ some b) :
    content p l m = readMesoblk p l.dev b (indexNo p (l.blockIndices m)) := by
  unfold content
  dsimp only
  rw [if_neg mapped.1, if_neg (mapped.2 ▸ elsewhere), mapped.2]

/-- Nothing on the device changes in memory. -/
theorem SameDevice.readMesoblk_eq {dev dev' : BlockioDev} (same : SameDevice dev dev') :
    readMesoblk p dev' = readMesoblk p dev := by
  funext id no
  unfold readMesoblk
  rw [(same.infos id).1, same.rest]
  rfl

/-- A position in the buffer exists. -/
theorem mesoblk_eq {no : ℕ} (small : no < p.b.mmpm) : mesoblk p no = .ok ((no + 1) * p.mesoblkSize) := by
  have pow := p.sound.mmpm
  have few : 2 ^ p.b.mesobits ≤ 2 ^ 14 := Nat.pow_le_pow_right (by decide) p.sound.mesobits_le
  unfold mesoblk
  rw [Nat.mod_eq_of_lt (show no < 2 ^ 16 by omega), check_of _ _ small]
  rfl

theorem mesoblk_fails (p : Params) : mesoblk p p.b.mmpm = .error (.assertion "no < l->dev->b->mmpm") := by
  have pow := p.sound.mmpm
  have few : 2 ^ p.b.mesobits ≤ 2 ^ 14 := Nat.pow_le_pow_right (by decide) p.sound.mesobits_le
  unfold mesoblk check
  rw [Nat.mod_eq_of_lt (show p.b.mmpm < 2 ^ 16 by omega), if_neg (lt_irrefl _)]
  rfl

/-- What reading needs so that no assertion fails. -/
structure Readable (p : Params) (l : Partition) (m : ℕ) : Prop where
  position : l.blockIndices m ≠ noIndex →
    indexId p (l.blockIndices m) < p.b.totalMacroblocks ∧ indexNo p (l.blockIndices m) < p.b.mmpm
  unmapped : l.blockIndices m = noIndex → l.dev.bi ≠ some (indexId p noIndex)

/-- `do_read` returns a part of the contents. -/
theorem doRead_eq {muoff size ooff : ℕ} {out : Bytes} (readable : Readable p l m) (inside : muoff + size ≤ p.mesoblkSize) :
    doRead p l m muoff size out ooff =
      .ok (Memory.blit out ooff size fun i => Memory.ofBlock (content p l m) (muoff + i)) := by
  have same {src src' : ℕ → UInt8} (agree : ∀ i < size, src i = src' i) :
      Memory.blit out ooff size src = Memory.blit out ooff size src' := by
    funext a
    unfold Memory.blit
    split
    · exact agree _ (by omega)
    · rfl
  unfold doRead
  dsimp only
  by_cases never : l.blockIndices m = noIndex
  · rw [never, if_neg (readable.unmapped never), if_pos rfl, content_unmapped never]
    refine congrArg Except.ok (same fun i bound => ?_)
    rw [Memory.ofBlock_apply _ (show muoff + i < p.mesoblkSize by omega)]
  · obtain ⟨exists_, position⟩ := readable.position never
    by_cases current : l.dev.bi = some (indexId p (l.blockIndices m))
    · rw [if_pos current, mesoblk_eq position, content_ram ⟨never, rfl⟩ current]
      refine congrArg Except.ok (same fun i bound => ?_)
      rw [Memory.ofBlock_apply _ (show muoff + i < p.mesoblkSize by omega), Nat.add_assoc]
      rfl
    · rw [if_neg current, if_neg never, content_disk ⟨never, rfl⟩ current]
      unfold readMesoblkPart
      rw [check_of _ _ ⟨exists_, position⟩]
      rfl

/-- Everything that is mapped can be read. -/
theorem Consistent.readable (consistent : Consistent p l) (bound : m < l.noBlockIndices)
    (unmapped : l.blockIndices m = noIndex → l.dev.bi ≠ some (indexId p noIndex)) : Readable p l m := by
  refine ⟨fun mapped => ?_, unmapped⟩
  obtain ⟨own, position, -⟩ := consistent.placed m bound _ ⟨mapped, rfl⟩
  exact ⟨(mem_owned.mp own).1, position.trans_le (consistent.bounded _ own)⟩

/-! ## When a mesoblock moves -/

namespace Relocated

variable {cur : ℕ} (relocated : Relocated p cur m l l')

include relocated

/-- The mesoblock that moved is in the buffer now. -/
theorem content_self (current : l.dev.bi = some cur) (addressable : Addressable p cur)
    (room : (l.dev.b.infos cur).noIndices < p.b.mmpm) :
    content p l' m = ramMesoblk p l' (l.dev.b.infos cur).noIndices := by
  rw [content_ram (relocated.mapped_self addressable room) (relocated.bi.trans current), relocated.entry_self,
    indexNo_blockIndex cur room]

/-- The others stay what they are, when the positions of the buffer that are taken stay. -/
theorem content_other (consistent : Consistent p l) (current : l.dev.bi = some cur) {m' : ℕ} (different : m' ≠ m)
    (bound : m' < l.noBlockIndices)
    (kept : ∀ k < (l.dev.b.infos cur).noIndices, ramMesoblk p l' k = ramMesoblk p l k) :
    content p l' m' = content p l m' := by
  unfold content
  dsimp only
  rw [relocated.entry_other different, relocated.bi, relocated.device.readMesoblk_eq]
  split
  · rfl
  · next mapped =>
    split
    · next here =>
      obtain rfl := Option.some.inj (current.symm.trans here)
      exact kept _ (consistent.placed m' bound _ ⟨mapped, rfl⟩).2.1
    · rfl

end Relocated

end Scubed3.Partition
