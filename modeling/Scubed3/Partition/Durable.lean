import Scubed3.Partition.Reopening
import Scubed3.Partition.View

/-! # What is on the device

The index blocks on the device describe a partition of their own: every mesoblock has the contents that the newest
macroblock with it has. A partition that is saved has these contents, and so has whoever opens the device.
-/

namespace Scubed3

/-- A partition as its user sees it: so many bytes, and zeroes behind them. -/
structure Volume where
  length : ℕ
  bytes : Bytes

namespace Partition

open Blockio

/-- Something with the property, if there is any. -/
noncomputable def pick {α : Type} (property : α → Prop) : Option α :=
  open Classical in if found : ∃ a, property a then some found.choose else none

theorem pick_eq_some {α : Type} {property : α → Prop} {a : α} (holds : property a) (unique : ∀ b, property b → b = a) :
    pick property = some a := by
  have found : ∃ a, property a := ⟨a, holds⟩
  rw [pick, dif_pos found, unique _ found.choose_spec]

theorem pick_eq_none {α : Type} {property : α → Prop} (none : ∀ a, ¬ property a) : pick property = Option.none :=
  dif_neg fun ⟨a, holds⟩ => none a holds

theorem pick_spec {α : Type} {property : α → Prop} {a : α} (picked : pick property = some a) : property a := by
  unfold pick at picked
  split at picked
  · next found => exact Option.some.inj picked ▸ found.choose_spec
  · cases picked

variable (p : Params)

/-- The partition as it is now. -/
def volume (l : Partition) : Volume := ⟨l.noBlockIndices * p.mesoblkSize, view p l⟩

/-- The number of mesoblocks that the newest index block announces. -/
noncomputable def storedMesoblks (base : Bytes) : ℕ :=
  match pick (Highest p base (headers p base)) with
  | some top => announced p base top
  | none => 0

/-- Mesoblock `m` as the newest macroblock with it has it. -/
noncomputable def storedContent (base : Bytes) (m : ℕ) : p.Mesoblk :=
  match pick fun place : ℕ × ℕ => Newest p base (headers p base) place.1 m place.2 with
  | some (c, k) => p.c.dec ((record p base c).seqno, k + 1, c)
      (Memory.slice base (c * p.macroblockSize + (k + 1) * p.mesoblkSize) p.mesoblkSize)
  | none => fun _ => 0

/-- The partition that the device has. -/
noncomputable def stored (base : Bytes) : Volume where
  length := storedMesoblks p base * p.mesoblkSize
  bytes a := if a / p.mesoblkSize < storedMesoblks p base then
      Memory.ofBlock (storedContent p base (a / p.mesoblkSize)) (a % p.mesoblkSize)
    else 0

variable {p} {l l' : Partition} {base base' : Bytes}

/-! ## Saved partitions -/

theorem Kept.volume (kept : Kept p l l') : volume p l' = volume p l := by
  rw [Partition.volume, Partition.volume, kept.noBlockIndices, kept.view]

theorem Intact.storedMesoblks_eq (intact : Intact p l) (saved : Saved p l) : storedMesoblks p l.dev.b.base = l.noBlockIndices := by
  unfold storedMesoblks
  rw [intact.sized, blank]
  cases picked : pick (Highest p l.dev.b.base (headers p l.dev.b.base)) with
  | some top =>
    obtain ⟨count, reserved⟩ := saved.described top (pick_spec picked)
    rw [← count, ← reserved]
    rfl
  | none =>
    have empty : headers p l.dev.b.base = ∅ := by
      by_contra some
      obtain ⟨top, highest⟩ : ∃ top, Highest p l.dev.b.base (headers p l.dev.b.base) top :=
        exists_top (Finset.nonempty_iff_ne_empty.mpr some)
      unfold pick at picked
      rw [dif_pos ⟨top, highest⟩] at picked
      cases picked
    obtain ⟨count, reserved⟩ := saved.written empty
    rw [if_pos (by rw [count]; exact Nat.zero_le _)]

theorem Saved.storedContent_eq (saved : Saved p l) (intact : Intact p l) {m : ℕ} (bound : m < l.noBlockIndices) :
    storedContent p l.dev.b.base m = Partition.content p l m := by
  rw [saved.content intact bound, storedContent]
  by_cases never : l.blockIndices m = noIndex
  · rw [if_pos never, pick_eq_none]
    exact fun place newest => ((saved.newest m bound _ _).mpr newest).1.1 never
  · rw [if_neg never, pick_eq_some (a := (indexId p (l.blockIndices m), indexNo p (l.blockIndices m)))
      ((saved.newest m bound _ _).mp ⟨⟨never, rfl⟩, rfl⟩)]
    intro place newest
    obtain ⟨⟨-, id⟩, no⟩ := (saved.newest m bound _ _).mpr newest
    exact Prod.ext id.symm no.symm

/-- When everything is saved, the device has what the partition shows. -/
theorem Saved.stored_eq (saved : Saved p l) (intact : Intact p l) : stored p l.dev.b.base = volume p l := by
  have size := intact.storedMesoblks_eq saved
  unfold stored volume view
  rw [size]
  congr 1
  funext a
  split
  · next bound => rw [saved.storedContent_eq intact bound]
  · rfl

/-- What was there when a macroblock was written is on the device. -/
theorem Flushes.stored_eq (flushes : Flushes p l base) : stored p base = volume p l := by
  obtain ⟨l₁, cur, intact, current, vacant, kept, rfl⟩ := flushes
  obtain ⟨-, between, kept'⟩ := intact.flush current vacant
  rw [(intact.saved_flush current vacant).stored_eq between.toIntact, kept'.volume, kept.volume]

/-! ## Changes behind our back -/

section Behind

variable {found : Finset ℕ} (same : ∀ c ∈ found, header p base' c = header p base c)
include same

theorem record_congr {c : ℕ} (member : c ∈ found) : record p base' c = record p base c := by
  rw [record, record, same c member]

theorem highest_congr : Highest p base' found = Highest p base found := by
  funext top
  refine propext (and_congr_right fun member => forall₂_congr fun c inside => ?_)
  rw [record_congr same member, record_congr same inside]

theorem newest_congr (m : ℕ) : (fun place : ℕ × ℕ => Newest p base' found place.1 m place.2) =
    fun place : ℕ × ℕ => Newest p base found place.1 m place.2 := by
  funext place
  refine propext (and_congr_right fun member => ?_)
  have listed {c k : ℕ} (inside : c ∈ found) : Listed p base' c m k ↔ Listed p base c m k := by
    rw [Listed, Listed, record_congr same inside]
  refine and_congr (listed member) (forall₂_congr fun d inside => forall_congr' fun i => ?_)
  rw [listed inside, record_congr same inside, record_congr same member]

end Behind

section Macroblocks

variable (same : headers p base' = headers p base)
  (macroblocks : ∀ c ∈ headers p base, Memory.slice base' (c * p.macroblockSize) p.macroblockSize =
    Memory.slice base (c * p.macroblockSize) p.macroblockSize)
  (capacity : ∀ c ∈ headers p base, (record p base c).noIndices ≤ p.b.mmpm)
include same macroblocks capacity

theorem storedContent_congr (m : ℕ) : storedContent p base' m = storedContent p base m := by
  have headersSame : ∀ c ∈ headers p base, header p base' c = header p base c := fun c member =>
    header_congr (macroblocks c member)
  unfold storedContent
  rw [same, newest_congr headersSame]
  cases picked : pick fun place : ℕ × ℕ => Newest p base (headers p base) place.1 m place.2 with
  | none => rfl
  | some place =>
    obtain ⟨member, listed, -⟩ := pick_spec picked
    have bound := macroblock_bound (listed.1.trans_le (capacity place.1 member))
    dsimp only
    rw [record_congr headersSame member, Memory.slice_within (macroblocks place.1 member) bound]

/-- Only the macroblocks with our index blocks count. -/
theorem stored_congr : stored p base' = stored p base := by
  have headersSame : ∀ c ∈ headers p base, header p base' c = header p base c := fun c member =>
    header_congr (macroblocks c member)
  have size : storedMesoblks p base' = storedMesoblks p base := by
    unfold storedMesoblks
    rw [same, highest_congr headersSame]
    cases picked : pick (Highest p base (headers p base)) with
    | none => rfl
    | some top =>
      dsimp only
      rw [announced, announced, headersSame top (pick_spec picked).1]
  unfold stored
  rw [size]
  simp only [storedContent_congr same macroblocks capacity]

end Macroblocks

end Partition

end Scubed3
