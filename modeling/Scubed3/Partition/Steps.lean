import Scubed3.Model.Partition
import Scubed3.ToMathlib.Except
import Mathlib.Logic.Relation

/-! # The three kinds of steps of an open partition

Whatever a partition does to a mesoblock happens in memory: the buffer, the entries of mesoblocks that
move into the current macroblock, and the counters of the others change. Apart from that it writes
the current macroblock or selects the next one. Every request and every cycle is a path of such steps.
-/

namespace Scubed3.Partition

open Blockio

variable (p : Params)

/-- Replace what changes in memory. -/
def setRam (dev : BlockioDev) (updated : Bool) (tmp : Bytes) (infos : BlockioInfos) : BlockioDev :=
  { dev with updated, tmpMacroblock := tmp, b := { dev.b with infos } }

/-- Only the buffer, the flag and the counters and indices of blocks differ. -/
structure SameDevice (dev dev' : BlockioDev) : Prop where
  rest : dev' = setRam dev dev'.updated dev'.tmpMacroblock dev'.b.infos
  infos : ∀ c, (dev'.b.infos c).seqno = (dev.b.infos c).seqno ∧
    (dev'.b.infos c).nextSeqno = (dev.b.infos c).nextSeqno ∧ (dev'.b.infos c).dev = (dev.b.infos c).dev
  dataHash : ∀ c, (dev'.b.infos c).dataHash = (dev.b.infos c).dataHash

/-- A step in memory: mesoblocks move into the current macroblock only. -/
structure Moved (l l' : Partition) : Prop extends SameDevice l.dev l'.dev where
  noBlockIndices : l'.noBlockIndices = l.noBlockIndices
  relocated : ∀ m, l'.blockIndices m = l.blockIndices m ∨
    ∃ b k, l.dev.bi = some b ∧ k < p.b.mmpm ∧ l'.blockIndices m = blockIndex p b k

/-- A step of an open partition. -/
inductive Step (fuel : ℕ) : Partition → Partition → Prop
  | moved {l l' : Partition} (moved : Moved p l l') : Step fuel l l'
  | output {l : Partition} {dev : BlockioDev} (ran : writeCurrentMacroblock p l.dev = .ok dev) :
      Step fuel l { l with dev }
  | select {l : Partition} {dev : BlockioDev} {tape rest : List ℕ}
      (ran : (selectNextMacroblock fuel l.dev).run tape = .done dev rest) : Step fuel l { l with dev }

/-- Any number of steps. -/
abbrev Path (fuel : ℕ) : Partition → Partition → Prop := Relation.ReflTransGen (Step p fuel)

variable {p}

namespace SameDevice

variable {dev dev' dev'' : BlockioDev}

theorem refl (dev : BlockioDev) : SameDevice dev dev := ⟨rfl, fun _ => ⟨rfl, rfl, rfl⟩, fun _ => rfl⟩

theorem trans (first : SameDevice dev dev') (second : SameDevice dev' dev'') : SameDevice dev dev'' := by
  refine ⟨second.rest.trans ?_, fun c => ?_, fun c => (second.dataHash c).trans (first.dataHash c)⟩
  · rw [first.rest]
    rfl
  · obtain ⟨seqno, nextSeqno, owner⟩ := first.infos c
    obtain ⟨seqno', nextSeqno', owner'⟩ := second.infos c
    exact ⟨seqno'.trans seqno, nextSeqno'.trans nextSeqno, owner'.trans owner⟩

end SameDevice

namespace Moved

variable {l l' l'' : Partition}

theorem refl (l : Partition) : Moved p l l := ⟨.refl l.dev, rfl, fun _ => .inl rfl⟩

theorem bi (moved : Moved p l l') : l'.dev.bi = l.dev.bi := by rw [moved.rest]; rfl

theorem trans (first : Moved p l l') (second : Moved p l' l'') : Moved p l l'' := by
  refine ⟨first.toSameDevice.trans second.toSameDevice, second.noBlockIndices.trans first.noBlockIndices,
    fun m => ?_⟩
  rcases second.relocated m with same | ⟨b, k, current, room, moved⟩
  · rw [same]
    exact first.relocated m
  · exact .inr ⟨b, k, first.bi ▸ current, room, moved⟩

theorem path {fuel : ℕ} (moved : Moved p l l') : Path p fuel l l' := .single (.moved moved)

/-- Changing the fields that only live in the partition. -/
theorem flags (l : Partition) (updated outputInitialized : Bool) :
    Moved p l { l with dev := { l.dev with updated }, outputInitialized } :=
  ⟨⟨rfl, fun _ => ⟨rfl, rfl, rfl⟩, fun _ => rfl⟩, rfl, fun _ => .inl rfl⟩

theorem setTmp (l : Partition) (tmp : Bytes) : Moved p l (l.setTmp tmp) :=
  ⟨⟨rfl, fun _ => ⟨rfl, rfl, rfl⟩, fun _ => rfl⟩, rfl, fun _ => .inl rfl⟩

theorem setInfo (l : Partition) (id : ℕ) (info : BlockioInfo) (seqno : info.seqno = (l.dev.b.infos id).seqno)
    (nextSeqno : info.nextSeqno = (l.dev.b.infos id).nextSeqno) (dev : info.dev = (l.dev.b.infos id).dev)
    (dataHash : info.dataHash = (l.dev.b.infos id).dataHash) : Moved p l (l.setInfo id info) := by
  have record (c : ℕ) : (l.setInfo id info).dev.b.infos c = if c = id then info else l.dev.b.infos c := rfl
  refine ⟨⟨rfl, fun c => ?_, fun c => ?_⟩, rfl, fun _ => .inl rfl⟩
  · rw [record]
    split
    · next same => exact same ▸ ⟨seqno, nextSeqno, dev⟩
    · exact ⟨rfl, rfl, rfl⟩
  · rw [record]
    split
    · next same => exact same ▸ dataHash
    · rfl

end Moved

/-! ## Garbage collection -/

/-- The record of a block that lost one mesoblock. -/
def obsoleted (info : BlockioInfo) : BlockioInfo :=
  { info with
    noNonobsolete := info.noNonobsolete - 1
    noIndices := if info.noNonobsolete - 1 = 0 then 0 else info.noIndices }

/-- The record of a block that got one more mesoblock. -/
def withRef (info : BlockioInfo) (offset : ℕ) : BlockioInfo :=
  { info with
    indices := Function.update info.indices info.noIndices offset
    noIndices := info.noIndices + 1 }

theorem obsoleteMesoblk_eq_ok_iff {l l' : Partition} {bi : ℕ} : obsoleteMesoblk l bi = .ok l' ↔
    (l.dev.b.infos bi).noNonobsolete ≠ 0 ∧ l' = l.setInfo bi (obsoleted (l.dev.b.infos bi)) := by
  unfold obsoleteMesoblk
  simp only [Except.bind_eq_ok_iff, check_eq_ok_iff, exists_const, Except.pure_eq_ok_iff, eq_comm (b := l')]
  rfl

theorem addBlockref_eq_ok_iff {l l' : Partition} {bi offset : ℕ} : addBlockref p l bi offset = .ok l' ↔
    (l.dev.b.infos bi).noIndices < p.b.mmpm ∧
      l' = updateBlockIndices p (l.setInfo bi (withRef (l.dev.b.infos bi) offset)) offset bi
        (l.dev.b.infos bi).noIndices := by
  unfold addBlockref
  simp only [Except.ite_throw_eq_ok_iff, Except.pure_eq_ok_iff, eq_comm (b := l'), ge_iff_le, not_le]
  rfl

theorem obsoleteMesoblk_moved (l : Partition) (bi : ℕ) : (obsoleteMesoblk l bi).Yields (Moved p l) := by
  refine .yields fun l' ran => ?_
  obtain ⟨-, rfl⟩ := obsoleteMesoblk_eq_ok_iff.mp ran
  exact .setInfo l bi _ rfl rfl rfl rfl

theorem obsoleteMesoblkByidx_moved (l : Partition) (index : ℕ) :
    (obsoleteMesoblkByidx p l index).Yields (Moved p l) := by
  unfold obsoleteMesoblkByidx
  split
  · exact obsoleteMesoblk_moved l _
  · exact .pure (.refl l)

theorem updateBlockIndices_moved {l : Partition} {bi no : ℕ} (current : l.dev.bi = some bi) (room : no < p.b.mmpm)
    (offset : ℕ) : Moved p l (updateBlockIndices p l offset bi no) := by
  refine ⟨.refl l.dev, rfl, fun m => ?_⟩
  change Function.update l.blockIndices offset (blockIndex p bi no) m = _ ∨ ∃ b k, _ ∧ _ ∧
    Function.update l.blockIndices offset (blockIndex p bi no) m = _
  by_cases same : m = offset
  · rw [same, Function.update_self]
    exact .inr ⟨bi, no, current, room, rfl⟩
  · rw [Function.update_of_ne same]
    exact .inl rfl

theorem addBlockref_moved (l : Partition) {bi : ℕ} (current : l.dev.bi = some bi) (offset : ℕ) :
    (addBlockref p l bi offset).Yields (Moved p l) := by
  refine .yields fun l' ran => ?_
  obtain ⟨room, rfl⟩ := addBlockref_eq_ok_iff.mp ran
  exact (Moved.setInfo l bi (withRef (l.dev.b.infos bi) offset) rfl rfl rfl rfl).trans
    (updateBlockIndices_moved (l := l.setInfo bi (withRef (l.dev.b.infos bi) offset)) current room _)

theorem copyMesoblk_moved (l : Partition) (bi k : ℕ) : (copyMesoblk p l bi k).Yields (Moved p l) := by
  unfold copyMesoblk
  dsimp only
  split
  · exact .pure (.refl l)
  · split
    · split
      · exact .throw trivial
      · next current found =>
        refine .bind (m := fun _ => True) (.yields fun _ _ => trivial) fun addr _ => ?_
        let copied := l.setTmp (Memory.store l.dev.tmpMacroblock addr (readMesoblk p l.dev bi k))
        refine .bind (addBlockref_moved copied found _) fun l' added => ?_
        exact (obsoleteMesoblk_moved l' bi).imp fun l'' obsoleted =>
          ((Moved.setTmp l _).trans added).trans obsoleted
    · exact .pure (.refl l)

theorem copyMesoblks_moved (bi turns k : ℕ) (l : Partition) :
    (copyMesoblks p bi turns k l).Yields (Moved p l) := by
  induction turns generalizing k l with
  | zero =>
    unfold copyMesoblks
    split
    · exact .throw trivial
    · exact .pure (.refl l)
  | succ turns ih =>
    unfold copyMesoblks
    split
    · exact .bind (copyMesoblk_moved l bi k) fun l' moved => (ih (k + 1) l').imp fun _ => moved.trans
    · exact .pure (.refl l)

theorem copyOldBlockToCurrent_moved (l : Partition) : (copyOldBlockToCurrent p l).Yields (Moved p l) := by
  unfold copyOldBlockToCurrent
  split
  · exact .pure (.refl l)
  · next bi _ =>
    refine .bind (m := fun _ => True) (.yields fun _ _ => trivial) fun status _ => ?_
    split
    · exact copyMesoblks_moved ..
    · exact .pure (.refl l)

theorem initializeOutput_moved (l : Partition) : (initializeOutput p l).Yields (Moved p l) := by
  unfold initializeOutput
  split
  · exact .pure (.refl l)
  · exact .bind (copyOldBlockToCurrent_moved l) fun l' moved => .pure (moved.trans (.flags l' l'.dev.updated true))

/-! ## Writing -/

theorem cowPart_moved (l : Partition) (index addr offset len : ℕ) :
    (cowPart p l index addr offset len).Yields (Moved p l) :=
  .bind (m := fun _ => True) (.yields fun _ _ => trivial) fun _ _ => .pure (Moved.setTmp l _)

theorem doCow_moved (l : Partition) (index muoff size addr : ℕ) :
    (doCow p l index muoff size addr).Yields (Moved p l) := by
  unfold doCow
  refine .bind (m := Moved p l) ?_ fun l' moved => ?_
  · split
    · exact cowPart_moved ..
    · exact .pure (.refl l)
  · split
    · exact (cowPart_moved ..).imp fun _ => moved.trans
    · exact .pure moved

theorem storeMesoblk_moved {l : Partition} {bi : ℕ} (current : l.dev.bi = some bi)
    (index mesoff muoff size : ℕ) (data : Bytes) :
    (storeMesoblk p l bi index mesoff muoff size data).Yields (Moved p l) := by
  unfold storeMesoblk
  refine .bind (m := fun _ => True) (.yields fun _ _ => trivial) fun addr _ => ?_
  split
  · exact .pure (.setTmp l _)
  · refine .bind (doCow_moved ..) fun l₁ cow => .bind (obsoleteMesoblkByidx_moved l₁ _) fun l₂ obsoleted => ?_
    have moved : Moved p l l₂ := ((Moved.setTmp l _).trans cow).trans obsoleted
    exact (addBlockref_moved l₂ (moved.bi.trans current) _).imp fun _ => moved.trans

theorem output_yields (fuel : ℕ) (l : Partition) :
    (writeCurrentMacroblock p l.dev).Yields fun dev => Path p fuel l { l with dev } :=
  .yields fun _ ran => .single (.output ran)

theorem select_yields (p : Params) (fuel : ℕ) (l : Partition) :
    Draw.Yields (selectNextMacroblock fuel l.dev) fun dev => Path p fuel l { l with dev } :=
  .of_forall_done fun _ _ _ ran => .single (.select ran)

theorem selectNewMacroblocks_path (fuel turns : ℕ) (l : Partition) :
    Draw.Yields (selectNewMacroblocks p fuel turns l) (Path p fuel l) := by
  induction turns generalizing l with
  | zero => exact .starve
  | succ turns ih =>
    unfold selectNewMacroblocks
    refine .bind (m := fun dev => Path p fuel l { l with dev }) ?_ fun dev selected => ?_
    · exact .bind (output_yields fuel l).lift fun dev written =>
        (select_yields p fuel { l with dev }).imp fun _ => written.trans
    · refine .bind (copyOldBlockToCurrent_moved _).lift fun l' moved => ?_
      have path : Path p fuel l l' := selected.trans moved.path
      split
      · exact .raise trivial
      · split
        · exact (ih l').imp fun _ => path.trans
        · exact .pure path

theorem selectNewMacroblock_path (fuel : ℕ) (l : Partition) :
    Draw.Yields (selectNewMacroblock p fuel l) (Path p fuel l) :=
  .bind (m := fun _ => True) (.lift (fun _ _ => trivial) fun _ _ => trivial) fun _ _ =>
    selectNewMacroblocks_path fuel fuel l

theorem doWrite_path (fuel : ℕ) (l : Partition) (mesoff muoff size : ℕ) (data : Bytes) :
    Draw.Yields (doWrite p fuel l mesoff muoff size data) (Path p fuel l) := by
  unfold doWrite
  refine .bind (m := fun _ => True) (.lift (fun _ _ => trivial) fun _ _ => trivial) fun _ _ => ?_
  refine .bind (initializeOutput_moved _).lift fun l₁ moved => ?_
  have path : Path p fuel l l₁ := ((Moved.flags l true l.outputInitialized).trans moved).path
  split
  · exact .raise trivial
  · next bi current =>
    split
    · exact (storeMesoblk_moved current ..).lift.imp fun _ stored => path.trans stored.path
    · refine .bind (m := Path p fuel l) ?_ fun l₂ path => ?_
      · split
        · exact (selectNewMacroblock_path fuel l₁).imp fun _ => path.trans
        · exact .pure path
      · split
        · exact .raise trivial
        · next current' => exact (storeMesoblk_moved current' ..).lift.imp fun _ stored => path.trans stored.path

theorem cycle_path (fuel : ℕ) (l : Partition) : Draw.Yields (cycle p fuel l) (Path p fuel l) := by
  unfold cycle
  refine .bind (m := Moved p l) ?_ fun l' moved => ?_
  · split
    · exact .pure (.refl l)
    · exact .bind (copyOldBlockToCurrent_moved l).lift fun l' moved =>
        .pure (moved.trans (.flags l' l'.dev.updated true))
  · refine .bind (output_yields fuel l').lift fun dev written => .bind (select_yields p fuel { l' with dev })
      fun dev' selected => .pure ?_
    have flag : Moved p { l' with dev := dev' } { l' with dev := dev', outputInitialized := false } :=
      .flags _ dev'.updated false
    exact ((moved.path.trans written).trans selected).trans flag.path

section Request

variable {σ : Type} {action : σ → (mesoff muoff size ooff : ℕ) → Draw Failure σ} {R : σ → σ → Prop}

theorem doReqLoop_yields (refl : ∀ s, R s s) (trans : ∀ {s t u}, R s t → R t u → R s u)
    (acts : ∀ s mesoff muoff size ooff, Draw.Yields (action s mesoff muoff size ooff) (R s))
    (turns : ℕ) (s : σ) (meso size ooff : ℕ) : Draw.Yields (doReqLoop p action turns s meso size ooff) (R s) := by
  induction turns generalizing s meso size ooff with
  | zero =>
    unfold doReqLoop
    split
    · exact acts ..
    · exact .pure (refl s)
  | succ turns ih =>
    unfold doReqLoop
    exact .bind (acts ..) fun s' first => (ih s' ..).imp fun _ => trans first

/-- A request does what its action does, any number of times. -/
theorem doReq_yields (refl : ∀ s, R s s) (trans : ∀ {s t u}, R s t → R t u → R s u)
    (acts : ∀ s mesoff muoff size ooff, Draw.Yields (action s mesoff muoff size ooff) (R s))
    (noBlockIndices : ℕ) (s : σ) (rOffset size : ℕ) :
    Draw.Yields (doReq p action noBlockIndices s rOffset size) (R s) := by
  unfold doReq
  dsimp only
  split
  · exact .pure (refl s)
  · split
    · exact .bind (acts ..) fun s' first => (doReqLoop_yields refl trans acts ..).imp fun _ => trans first
    · exact doReqLoop_yields refl trans acts ..

end Request

theorem reqWrite_path (fuel : ℕ) (l : Partition) (rOffset size : ℕ) (buf : Bytes) :
    Draw.Yields (reqWrite p fuel l rOffset size buf) (Path p fuel l) :=
  doReq_yields (fun _ => .refl) .trans (fun l mesoff muoff size _ => doWrite_path fuel l mesoff muoff size _) ..

end Scubed3.Partition
