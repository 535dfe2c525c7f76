import Scubed3.Partition.Enlarging
import Scubed3.Partition.Neighbours
import Scubed3.ToMathlib.WriteBack

/-! # A partition writes back

Seen as a store, a partition changes in memory when a mesoblock is written, and everything so far reaches the device when
the current macroblock is written out. The log of these changes says what a partition shows. The device lags behind it,
and by at most one change when `updated` says that there is nothing to write.
-/

namespace Scubed3

/-- What can happen to a volume. -/
inductive Volume.Change where
  | write (offset size : ℕ) (data : Bytes)
  | enlarge (length : ℕ)

namespace Volume

def change : Change → Volume → Volume
  | .write offset size data, volume => { volume with bytes := Memory.blit volume.bytes offset size data }
  | .enlarge length, volume => { volume with length }

/-- A partition that was just created. -/
def empty : Volume := ⟨0, fun _ => 0⟩

/-- The volume after the changes of a log. -/
abbrev after (log : List Change) : Volume := WriteBack.value change empty log

/-- A device has what there was before the last `count` changes of a log. -/
abbrev LagsBy (count : ℕ) (log : List Change) (volume : Volume) : Prop := WriteBack.LagsBy change empty count log volume

end Volume

namespace Partition

open Blockio Splitting Volume

variable (p : Params)

/-- What one call of `do_write` changes. -/
def Call.change (buf : Bytes) (c : Call) : Change := .write (c.address p) c.size fun i => buf (c.ooff + i)

/-- What a request changes, one mesoblock after the other. -/
def reqChanges (rOffset size : ℕ) (buf : Bytes) : List Change := (reqCalls p rOffset size).map (Call.change p buf)

/-- An open partition that shows what the log says. -/
structure Tracks (log : List Change) (l : Partition) : Prop where
  tidy : Tidy p l
  shows : volume p l = after log
  lags : ∃ count, LagsBy count log (stored p l.dev.b.base) ∧ (l.dev.updated = false → count ≤ 1)

variable {p} {l l' : Partition} {log : List Change} {m muoff size rOffset fuel : ℕ} {buf data : Bytes}

/-- All changes of a request together. -/
theorem after_reqChanges {noBlockIndices : ℕ} (positive : 1 ≤ size) (inside : rOffset + size ≤ noBlockIndices * p.mesoblkSize)
    (buf : Bytes) (log : List Change) :
    after ((reqChanges p rOffset size buf).reverse ++ log) = Volume.change (.write rOffset size buf) (after log) := by
  have fold (calls : List Call) (v : Volume) : ((calls.map (Call.change p buf)).reverse).foldr Volume.change v =
      ⟨v.length, calls.foldl (fun m c => Memory.blit m (c.address p) c.size fun i => buf (c.ooff + i)) v.bytes⟩ := by
    induction calls generalizing v with
    | nil => rfl
    | cons c calls ih =>
      rw [List.map_cons, List.reverse_cons, List.foldr_append, ih]
      rfl
  rw [after, WriteBack.value_append, reqChanges, fold]
  have copied := (reqCalls_covers positive inside).splits.swap.foldl_blit buf (after log).bytes
  simp only [Nat.zero_add] at copied
  rw [copied]
  rfl

theorem Overwritten.volume (inside : m < l.noBlockIndices) (within : muoff + size ≤ p.mesoblkSize)
    (overwritten : Overwritten p m muoff size data l l') :
    volume p l' = Volume.change (.write (m * p.mesoblkSize + muoff) size data) (volume p l) := by
  rw [Partition.volume, overwritten.view inside within, overwritten.noBlockIndices]
  rfl

/-- A mesoblock is written. -/
theorem Tracks.cleanWrite (tracks : Tracks p log l) (current : l.dev.bi ≠ none) (inside : m < l.noBlockIndices)
    (within : muoff + size ≤ p.mesoblkSize) (fuel : ℕ) (data : Bytes) :
    Draw.Safe (Partition.cleanWrite p fuel l m muoff size data) fun l' =>
      Tracks p (.write (m * p.mesoblkSize + muoff) size data :: log) l' ∧ l'.dev.bi ≠ none ∧
        l'.noBlockIndices = l.noBlockIndices := by
  refine (tracks.tidy.cleanWrite current inside within fuel data).imp
    fun l' ⟨next, prepared, output, replaced, updated, left⟩ => ⟨⟨.ready prepared output, ?_, ?_⟩, ?_, replaced.noBlockIndices⟩
  · rw [replaced.volume inside within, tracks.shows]
    rfl
  · rcases left with ⟨stays, base⟩ | ⟨-, flushes⟩
    · obtain ⟨count, lags, -⟩ := tracks.lags
      exact ⟨count + 1, base ▸ lags.change _, fun same => nomatch (updated stays).symm.trans same⟩
    · refine ⟨1, ?_, fun _ => le_rfl⟩
      rw [flushes.stored_eq, tracks.shows]
      exact (WriteBack.LagsBy.flushed log).change _
  · rw [prepared.bi]
    exact nofun

/-- A request is a sequence of such writes. -/
theorem Tracks.cleanReq (tracks : Tracks p log l) (current : l.dev.bi ≠ none) (offset : rOffset < 2 ^ 63)
    (positive : 1 ≤ size) (small : size < 2 ^ 32) (fuel : ℕ) (buf : Bytes) :
    Draw.Safe (Partition.cleanReq p fuel l rOffset size buf) fun l' =>
      Tracks p (if rOffset + size ≤ l.noBlockIndices * p.mesoblkSize then (reqChanges p rOffset size buf).reverse ++ log else log) l' ∧
        l'.dev.bi ≠ none ∧ l'.noBlockIndices = l.noBlockIndices := by
  unfold Partition.cleanReq
  by_cases inside : rOffset + size ≤ l.noBlockIndices * p.mesoblkSize
  · have covers := reqCalls_covers positive inside
    rw [if_pos inside, doReq_eq _ l tracks.tidy.indices_lt offset positive small inside, reqChanges]
    refine .foldlM (I := fun made l' => Tracks p ((made.map (Call.change p buf)).reverse ++ log) l' ∧ l'.dev.bi ≠ none ∧
      l'.noBlockIndices = l.noBlockIndices) ⟨tracks, current, rfl⟩ fun made c member l₁ ⟨tracks₁, current₁, size₁⟩ => ?_
    obtain ⟨mesoff, within⟩ := covers.inside c member
    refine (tracks₁.cleanWrite current₁ (size₁ ▸ mesoff) within fuel fun i => buf (c.ooff + i)).imp
      fun l₂ ⟨tracks₂, current₂, size₂⟩ => ⟨?_, current₂, size₂.trans size₁⟩
    rw [List.map_append, List.reverse_append]
    exact tracks₂
  · rw [if_neg inside, doReq_past _ l offset positive small (not_le.mp inside)]
    exact .pure ⟨tracks, current, rfl⟩

/-- A cycle changes nothing, and everything reaches the device. -/
theorem Tracks.cycle {cur : ℕ} (tracks : Tracks p log l) (current : l.dev.bi = some cur) (clean : ¬ Repeats l) (fuel : ℕ) :
    Draw.Safe (cycle p fuel l) fun l' => Tracks p log l' ∧ l'.dev.bi ≠ none ∧ l'.noBlockIndices = l.noBlockIndices ∧
      stored p l'.dev.b.base = after log := by
  refine (tracks.tidy.cycle current clean fuel).imp fun l' ⟨next, selected, output, kept, _, flushes⟩ => ?_
  have disk : stored p l'.dev.b.base = after log := flushes.stored_eq.trans tracks.shows
  refine ⟨⟨.fresh selected output, kept.volume.trans tracks.shows, 0, disk.symm, fun _ => Nat.zero_le 1⟩, ?_,
    kept.noBlockIndices, disk⟩
  rw [selected.bi]
  exact nofun

/-- A resize that is answered only changes the length. -/
theorem Tracks.resize {entry entry' : Entry} {size reserved : ℤ} {tape rest : List ℕ} (tracks : Tracks p log entry.l)
    (ran : (Control.resize p fuel entry size reserved).run tape = .done (.ok, entry') rest) (nonneg : 0 ≤ reserved)
    (addressable : ∀ b ∈ owned p entry'.l.dev, Addressable p (b + 1)) :
    Tracks p (.enlarge (entry'.l.noBlockIndices * p.mesoblkSize) :: log) entry'.l := by
  obtain ⟨tidy, bytes, -, base, updated, -⟩ := tracks.tidy.resize ran nonneg addressable
  obtain ⟨count, lags, -⟩ := tracks.lags
  refine ⟨tidy, ?_, count + 1, base ▸ lags.change _, fun same => nomatch updated.symm.trans same⟩
  have shows := tracks.shows
  rw [volume] at shows
  have longer : after (.enlarge (entry'.l.noBlockIndices * p.mesoblkSize) :: log) =
      { after log with length := entry'.l.noBlockIndices * p.mesoblkSize } := rfl
  rw [volume, bytes, longer, ← shows]

/-- Others do not change it. -/
theorem Tracks.beside {b' : Blockio} (tracks : Tracks p log l) (others : Untouched p (· ∈ owned p l.dev) l.dev.b b')
    (fresh : ∀ c ∉ owned p l.dev, (b'.infos c).dev ≠ some l.dev.self) : Tracks p log (Partition.beside l b') := by
  have intact := tracks.tidy.intact
  refine ⟨tracks.tidy.beside others fresh, (intact.beside_kept others fresh).volume.trans tracks.shows, ?_⟩
  rw [show (Partition.beside l b').dev.b.base = b'.base from rfl, (intact.stays others).2]
  exact tracks.lags

/-! ## Closing and opening -/

/-- A closed partition that has on the device what the log says. -/
structure Keeps (p : Params) (log : List Change) (b : Blockio) : Prop where
  shut : Shut p b
  shelved : Shelved p b.base
  has : stored p b.base = after log

/-- Opening shows what is on the device. -/
theorem Keeps.opened {b : Blockio} {addr : ℕ} {add missing : Bool} {entry : Entry} {tape rest : List ℕ} (keeps : Keeps p log b)
    (fresh : ∀ c, (b.infos c).dev ≠ some addr)
    (ran : (Control.openCreateCommon p fuel b addr add).run tape = .done (.opened entry missing) rest) :
    Tracks p log entry.l := by
  obtain ⟨tidy, saved, base, -, -⟩ := tidy_of_opened keeps.shut keeps.shelved fresh ran
  have has := base ▸ keeps.has
  exact ⟨tidy, (saved.stored_eq tidy.intact).symm.trans has, 0, has.symm, fun _ => Nat.zero_le 1⟩

/-- A close writes the current macroblock when something was written since. -/
theorem Tracks.free {b : Blockio} (tracks : Tracks p log l) (vacant : l.dev.updated = true → Vacant p l)
    (ran : devFree p l.dev = .ok b) : ∃ count ≤ 1, (l.dev.updated = true → count = 0) ∧ Keeps p (log.drop count) b := by
  have shut := tracks.tidy.intact.alive.free ran
  obtain ⟨dev, written, rfl⟩ := devFree_eq_ok_iff.mp ran
  cases updated : l.dev.updated with
  | false =>
    rw [updated, if_neg (by decide)] at written
    subst written
    obtain ⟨count, lags, few⟩ := tracks.lags
    exact ⟨count, few updated, nofun, shut, tracks.tidy.intact.shelved, lags.symm⟩
  | true =>
    rw [updated, if_pos rfl] at written
    obtain ⟨cur, current, -⟩ := (writeCurrentMacroblock_eq_ok_iff p).mp written
    have vacant := vacant updated
    obtain ⟨ran', between, -⟩ := tracks.tidy.intact.flush current vacant
    obtain rfl := Except.ok.inj (ran'.symm.trans written)
    refine ⟨0, Nat.zero_le 1, fun _ => rfl, shut, between.shelved, ?_⟩
    have flushes : Flushes p l (flushed p l cur).dev.b.base := ⟨l, cur, tracks.tidy.intact, current, vacant, .refl l, rfl⟩
    exact flushes.stored_eq.trans tracks.shows

/-- When the program is killed, what is on the device stays. -/
theorem Tracks.crash (tracks : Tracks p log l) {count : ℕ} (lags : LagsBy count log (stored p l.dev.b.base)) :
    Keeps p (log.drop count) (initInfos p l.dev.b.base l.dev.b.written) :=
  ⟨@Good.crash p (.opened { size := 0, l }) tracks.tidy.intact.alive, tracks.tidy.intact.shelved, lags.symm⟩

end Partition

end Scubed3
