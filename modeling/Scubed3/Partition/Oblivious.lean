import Scubed3.Model.Control
import Scubed3.Model.Daemon
import Scubed3.ToMathlib.Related

/-! # What is stored does not show in what is done

An observer sees which macroblocks are written, in which order and with which initialisation vectors. All that, and
everything that the partition keeps in memory but the bytes themselves, depends on where was written and on the random
choices, and not on what was written, on the key, or on what the device had before.
-/

namespace Scubed3

/-- A cipher with its key, and a hash. -/
structure Key (b : Geometry) where
  c : Cipher (2 ^ b.mesoblkLog)
  hash : List UInt8 → Hash

/-- The same base device for another key. -/
def Params.withKey (p : Params) (k : Key p.b) : Params := { p with c := k.c, hash := k.hash }

/-- Other bytes on the device and in the buffer. -/
def BlockioDev.withBytes (dev : BlockioDev) (base tmp : Bytes) : BlockioDev :=
  { dev with tmpMacroblock := tmp, b := { dev.b with base } }

def Partition.withBytes (l : Partition) (base tmp : Bytes) : Partition := { l with dev := l.dev.withBytes base tmp }

/-- They only differ in the bytes. -/
def BlockioDev.Alike (dev dev' : BlockioDev) : Prop := ∃ base tmp, dev' = dev.withBytes base tmp

def Partition.Alike (l l' : Partition) : Prop := ∃ base tmp, l' = l.withBytes base tmp

def Entry.Alike (entry entry' : Entry) : Prop := ∃ base tmp, entry' = { entry with l := entry.l.withBytes base tmp }

variable {p : Params} {k : Key p.b}

/-- All but the bytes: what was written where and in which order, the schedule, and where the mesoblocks are. -/
def Entry.hidden (entry : Entry) : Entry := { entry with l := entry.l.withBytes (fun _ => 0) fun _ => 0 }

theorem Entry.alike_iff {entry entry' : Entry} : entry.Alike entry' ↔ entry.hidden = entry'.hidden := by
  constructor
  · rintro ⟨base, tmp, rfl⟩
    rfl
  · intro same
    refine ⟨entry'.l.dev.b.base, entry'.l.dev.tmpMacroblock, ?_⟩
    exact congrArg (fun hidden : Entry => { hidden with l := hidden.l.withBytes entry'.l.dev.b.base entry'.l.dev.tmpMacroblock })
      same.symm

theorem Partition.Alike.of_dev {l l' : Partition} {dev' : BlockioDev} (dev : l.dev.Alike dev') (rest : l' = { l with dev := dev' }) :
    l.Alike l' := by
  obtain ⟨base, tmp, rfl⟩ := dev
  exact ⟨base, tmp, rest⟩

namespace Blockio

variable {dev dev' : BlockioDev} (alike : dev.Alike dev')
include alike

theorem writeCurrentMacroblock_related :
    (writeCurrentMacroblock p dev).Related BlockioDev.Alike (writeCurrentMacroblock (p.withKey k) dev') := by
  obtain ⟨base, tmp, rfl⟩ := alike
  unfold writeCurrentMacroblock
  rw [show (dev.withBytes base tmp).bi = dev.bi from rfl]
  cases dev.bi with
  | none => exact .throw _
  | some id =>
    refine .bind_same _ fun _ => .bind_same _ fun _ => .ite (.throw _) (.pure ⟨_, _, rfl⟩)

theorem selectNextMacroblock_related (fuel : ℕ) :
    (selectNextMacroblock fuel dev).Related BlockioDev.Alike (selectNextMacroblock fuel dev') := by
  obtain ⟨base, tmp, rfl⟩ := alike
  unfold selectNextMacroblock
  refine .bind_same _ fun _ => .bind_same _ fun r => ?_
  obtain ⟨_ | id, j, infos⟩ := r
  · exact .raise _
  · exact .ite (.pure ⟨base, tmp, rfl⟩) .starve

theorem allocateMacroblock_related :
    (allocateMacroblock dev).Related BlockioDev.Alike (allocateMacroblock dev') := by
  obtain ⟨base, tmp, rfl⟩ := alike
  unfold allocateMacroblock
  refine .bind_same _ fun no => ?_
  rw [show (dev.withBytes base tmp).b.unallocated = dev.b.unallocated from rfl]
  cases dev.b.unallocated[no]? with
  | none => exact .raise _
  | some i =>
    refine .bind_same _ fun j => .lift ?_
    unfold changeMacroblockStatus
    exact .bind_same _ fun _ => .bind_same _ fun _ => .bind_same _ fun _ => .pure ⟨base, tmp, rfl⟩

theorem allocateTurns_related (size : ℕ) : (allocateTurns size dev).Related BlockioDev.Alike (allocateTurns size dev') := by
  induction size generalizing dev dev' with
  | zero => exact .pure alike
  | succ size ih => exact (allocateMacroblock_related alike).bind fun _ _ => ih

end Blockio

namespace Partition

open Blockio

/-! ## Garbage collection -/

section Collection

variable {l l' : Partition} (alike : l.Alike l')
include alike

theorem obsoleteMesoblk_related (bi : ℕ) : (obsoleteMesoblk l bi).Related Alike (obsoleteMesoblk l' bi) := by
  obtain ⟨base, tmp, rfl⟩ := alike
  exact .bind_same _ fun _ => .pure ⟨base, tmp, rfl⟩

theorem obsoleteMesoblkByidx_related (index : ℕ) :
    (obsoleteMesoblkByidx p l index).Related Alike (obsoleteMesoblkByidx (p.withKey k) l' index) :=
  .ite (obsoleteMesoblk_related alike _) (.pure alike)

theorem addBlockref_related (bi offset : ℕ) :
    (addBlockref p l bi offset).Related Alike (addBlockref (p.withKey k) l' bi offset) := by
  obtain ⟨base, tmp, rfl⟩ := alike
  exact .ite (.throw _) (.pure ⟨base, tmp, rfl⟩)

theorem copyMesoblk_related (bi i : ℕ) :
    (copyMesoblk p l bi i).Related Alike (copyMesoblk (p.withKey k) l' bi i) := by
  obtain ⟨base, tmp, rfl⟩ := alike
  unfold copyMesoblk
  refine .ite (.pure ⟨base, tmp, rfl⟩) (.ite ?_ (.pure ⟨base, tmp, rfl⟩))
  rw [show (l.withBytes base tmp).dev.bi = l.dev.bi from rfl]
  cases l.dev.bi with
  | none => exact .throw _
  | some current =>
    refine .bind_same (mesoblk p _) fun addr => .bind (addBlockref_related ⟨_, _, rfl⟩ _ _) fun _ _ added => ?_
    exact obsoleteMesoblk_related added bi

theorem copyMesoblks_related (bi turns i : ℕ) :
    (copyMesoblks p bi turns i l).Related Alike (copyMesoblks (p.withKey k) bi turns i l') := by
  induction turns generalizing i l l' with
  | zero =>
    obtain ⟨base, tmp, rfl⟩ := alike
    exact .ite (.throw _) (.pure ⟨base, tmp, rfl⟩)
  | succ turns ih =>
    have copied := copyMesoblk_related (k := k) alike bi i
    obtain ⟨base, tmp, rfl⟩ := alike
    exact .ite (copied.bind fun _ _ alike => ih alike (i + 1)) (.pure ⟨base, tmp, rfl⟩)

theorem copyOldBlockToCurrent_related :
    (copyOldBlockToCurrent p l).Related Alike (copyOldBlockToCurrent (p.withKey k) l') := by
  have copied (bi : ℕ) := copyMesoblks_related (k := k) alike bi p.b.mmpm 0
  obtain ⟨base, tmp, rfl⟩ := alike
  unfold copyOldBlockToCurrent
  rw [show (l.withBytes base tmp).dev.tailMacroblock = l.dev.tailMacroblock from rfl]
  cases l.dev.tailMacroblock with
  | none => exact .pure ⟨base, tmp, rfl⟩
  | some bi => exact .bind_same (getMacroblockStatus p l.dev bi) fun _ => .ite (copied bi) (.pure ⟨base, tmp, rfl⟩)

theorem selectNewMacroblocks_related (fuel turns : ℕ) :
    (selectNewMacroblocks p fuel turns l).Related Alike (selectNewMacroblocks (p.withKey k) fuel turns l') := by
  induction turns generalizing l l' with
  | zero => exact .starve
  | succ turns ih =>
    obtain ⟨base, tmp, rfl⟩ := alike
    unfold selectNewMacroblocks
    have output := writeCurrentMacroblock_related (p := p) (k := k) (show l.dev.Alike _ from ⟨base, tmp, rfl⟩)
    refine .bind (.bind (.lift output) fun _ _ written => selectNextMacroblock_related written fuel) fun dev dev' selected => ?_
    refine .bind (.lift (copyOldBlockToCurrent_related (.of_dev selected rfl))) fun l₁ l₂ copied => ?_
    have again := ih copied
    obtain ⟨base, tmp, rfl⟩ := copied
    rw [show (l₁.withBytes base tmp).dev.bi = l₁.dev.bi from rfl]
    cases l₁.dev.bi with
    | none => exact .raise _
    | some bi => exact .ite again (.pure ⟨base, tmp, rfl⟩)

theorem selectNewMacroblock_related (fuel : ℕ) :
    (selectNewMacroblock p fuel l).Related Alike (selectNewMacroblock (p.withKey k) fuel l') := by
  have selected := selectNewMacroblocks_related (k := k) alike fuel fuel
  obtain ⟨base, tmp, rfl⟩ := alike
  exact .bind_same (liftM (check (l.outputInitialized = true) "l->output_initialized")) fun _ => selected

theorem initializeOutput_related :
    (initializeOutput p l).Related Alike (initializeOutput (p.withKey k) l') := by
  have copied := copyOldBlockToCurrent_related (k := k) alike
  obtain ⟨base, tmp, rfl⟩ := alike
  refine .ite (.pure ⟨base, tmp, rfl⟩) (copied.bind ?_)
  rintro l₁ _ ⟨base, tmp, rfl⟩
  exact .pure ⟨base, tmp, rfl⟩

/-! ## Requests -/

theorem cowPart_related (index addr addr' offset len : ℕ) :
    (cowPart p l index addr offset len).Related Alike (cowPart (p.withKey k) l' index addr' offset len) := by
  obtain ⟨base, tmp, rfl⟩ := alike
  unfold cowPart
  refine .bind (r := fun _ _ => True) (.ite ?_ (.pure trivial)) fun _ _ _ => .pure ⟨_, _, rfl⟩
  exact .bind_same (check (indexId p index < p.b.totalMacroblocks ∧ indexNo p index < p.b.mmpm) _) fun _ => .pure trivial

theorem doCow_related (index muoff size addr : ℕ) :
    (doCow p l index muoff size addr).Related Alike (doCow (p.withKey k) l' index muoff size addr) := by
  unfold doCow
  refine .bind (.ite (cowPart_related alike ..) (.pure alike)) fun _ _ alike => ?_
  exact .ite (cowPart_related alike ..) (.pure alike)

theorem storeMesoblk_related (bi index mesoff muoff size : ℕ) (data data' : Bytes) :
    (storeMesoblk p l bi index mesoff muoff size data).Related Alike
      (storeMesoblk (p.withKey k) l' bi index mesoff muoff size data') := by
  obtain ⟨base, tmp, rfl⟩ := alike
  unfold storeMesoblk
  refine .bind_same (mesoblk p _) fun addr => .ite (.pure ⟨_, _, rfl⟩) ?_
  refine .bind (doCow_related ⟨_, _, rfl⟩ ..) fun _ _ alike => ?_
  exact .bind (obsoleteMesoblkByidx_related alike _) fun _ _ alike => addBlockref_related alike ..

theorem doWrite_related (fuel mesoff muoff size : ℕ) (data data' : Bytes) :
    (doWrite p fuel l mesoff muoff size data).Related Alike
      (doWrite (p.withKey k) fuel l' mesoff muoff size data') := by
  obtain ⟨base, tmp, rfl⟩ := alike
  unfold doWrite
  refine .bind_same (liftM (check (muoff + size ≤ p.mesoblkSize) _)) fun _ => ?_
  refine .bind (.lift (initializeOutput_related ⟨base, tmp, rfl⟩)) fun l₁ l₂ alike => ?_
  have stored (bi : ℕ) := storeMesoblk_related (p := p) (k := k) alike bi (l.blockIndices mesoff) mesoff muoff
    size data data'
  have selected := selectNewMacroblock_related (p := p) (k := k) alike fuel
  have same : l₂.dev.bi = l₁.dev.bi ∧ l₂.dev.b.infos = l₁.dev.b.infos := by
    obtain ⟨base, tmp, rfl⟩ := alike
    exact ⟨rfl, rfl⟩
  rw [same.1, same.2]
  cases l₁.dev.bi with
  | none => exact .raise _
  | some bi =>
    refine .ite (.lift (stored bi)) (.bind (.ite selected (.pure alike)) fun l₃ l₄ alike => ?_)
    have stored (bi index : ℕ) := storeMesoblk_related (p := p) (k := k) alike bi index mesoff muoff
      size data data'
    obtain ⟨base, tmp, rfl⟩ := alike
    rw [show (l₃.withBytes base tmp).dev.bi = l₃.dev.bi from rfl]
    cases l₃.dev.bi with
    | none => exact .raise _
    | some bi => exact .lift (stored bi _)

theorem cycle_related (fuel : ℕ) :
    (cycle p fuel l).Related Alike (cycle (p.withKey k) fuel l') := by
  unfold cycle
  refine .bind (r := Alike) ?_ fun l₁ l₂ alike => ?_
  · have copied := copyOldBlockToCurrent_related (p := p) (k := k) alike
    obtain ⟨base, tmp, rfl⟩ := alike
    refine .ite (.pure ⟨base, tmp, rfl⟩) (.bind (.lift copied) ?_)
    rintro l₁ _ ⟨base, tmp, rfl⟩
    exact .pure ⟨base, tmp, rfl⟩
  · obtain ⟨base, tmp, rfl⟩ := alike
    have output := writeCurrentMacroblock_related (p := p) (k := k) (show l₁.dev.Alike _ from ⟨base, tmp, rfl⟩)
    refine .bind (.lift output) fun _ _ written => .bind (selectNextMacroblock_related written fuel) ?_
    rintro dev _ ⟨base, tmp, rfl⟩
    exact .pure ⟨base, tmp, rfl⟩

end Collection

section DoReq

variable {σ σ' : Type} {r : σ → σ' → Prop} {action : σ → (mesoff muoff size ooff : ℕ) → Draw Failure σ}
  {action' : σ' → (mesoff muoff size ooff : ℕ) → Draw Failure σ'}
  (each : ∀ s s', r s s' → ∀ mesoff muoff size ooff, (action s mesoff muoff size ooff).Related r (action' s' mesoff muoff size ooff))
include each

theorem doReqLoop_related (turns : ℕ) {s : σ} {s' : σ'} (start : r s s') (meso size ooff : ℕ) :
    (doReqLoop p action turns s meso size ooff).Related r
      (doReqLoop (p.withKey k) action' turns s' meso size ooff) := by
  induction turns generalizing s s' meso size ooff with
  | zero => exact .ite (each _ _ start ..) (.pure start)
  | succ turns ih => exact .bind (each _ _ start ..) fun _ _ related => ih related ..

/-- Requests of the same size at the same place. -/
theorem doReq_related {s : σ} {s' : σ'} (start : r s s') (noBlockIndices rOffset size : ℕ) :
    (doReq p action noBlockIndices s rOffset size).Related r
      (doReq (p.withKey k) action' noBlockIndices s' rOffset size) := by
  refine .ite (.pure start) (.ite ?_ (doReqLoop_related each _ start ..))
  exact .bind (each _ _ start ..) fun _ _ related => doReqLoop_related each _ related ..

end DoReq

theorem reqWrite_related {l l' : Partition} (alike : l.Alike l') (fuel rOffset size : ℕ) (buf buf' : Bytes) :
    (reqWrite p fuel l rOffset size buf).Related Alike (reqWrite (p.withKey k) fuel l' rOffset size buf') := by
  have whole := doReq_related (p := p) (k := k) (fun (l l' : Partition) (alike : l.Alike l') mesoff muoff size ooff =>
    doWrite_related (k := k) alike fuel mesoff muoff size (fun i => buf (ooff + i)) fun i => buf' (ooff + i))
    alike l.noBlockIndices rOffset size
  obtain ⟨base, tmp, rfl⟩ := alike
  exact whole

/-- A read fails when the other one does. -/
theorem reqRead_related {l l' : Partition} (alike : l.Alike l') (rOffset size : ℕ) (buf buf' : Bytes) :
    (reqRead p l rOffset size buf).Related (fun _ _ => True) (reqRead (p.withKey k) l' rOffset size buf') := by
  obtain ⟨base, tmp, rfl⟩ := alike
  refine doReq_related (fun out out' _ mesoff muoff size ooff => .lift ?_) trivial l.noBlockIndices rOffset size
  refine .ite (.bind_same (mesoblk p _) fun _ => .pure trivial) (.ite (.pure trivial) ?_)
  refine .bind (r := fun _ _ => True) ?_ fun _ _ _ => .pure trivial
  exact .bind_same (check (indexId p (l.blockIndices mesoff) < p.b.totalMacroblocks ∧
    indexNo p (l.blockIndices mesoff) < p.b.mmpm) _) fun _ => .pure trivial

end Partition

namespace Control

open Blockio Scubed3.Partition

/-! ## Sessions -/

theorem cycleTurns_related {l l' : Partition} (alike : l.Alike l') (fuel times : ℕ) :
    (cycleTurns p fuel times l).Related Partition.Alike (cycleTurns (p.withKey k) fuel times l') := by
  induction times generalizing l l' with
  | zero => exact .pure alike
  | succ times ih => exact .bind (cycle_related alike fuel) fun _ _ => ih

theorem resize_related {entry entry' : Entry} (alike : entry.Alike entry') (fuel : ℕ) (size reserved : ℤ) :
    (resize p fuel entry size reserved).Related (fun r r' => r'.1 = r.1 ∧ r.2.Alike r'.2)
      (resize (p.withKey k) fuel entry' size reserved) := by
  obtain ⟨base, tmp, rfl⟩ := alike
  have allocated := allocateTurns_related (show entry.l.dev.Alike (entry.l.withBytes base tmp).dev from ⟨base, tmp, rfl⟩)
  have refused (message : String) : (pure (.refused message, entry) : Draw Failure (Reply × Entry)).Related
      (fun r r' => r'.1 = r.1 ∧ r.2.Alike r'.2) (pure (.refused message, { entry with l := entry.l.withBytes base tmp })) :=
    .pure ⟨rfl, base, tmp, rfl⟩
  refine .ite (refused _) (.ite (refused _) (.ite (refused _) (.ite (refused _) (.ite (refused _) ?_))))
  refine .bind (r := Option.Rel BlockioDev.Alike) (.ite (.pure .none) ((allocated _).bind fun _ _ alike => .pure (.some alike)))
    fun _ _ granted => ?_
  cases granted with
  | none => exact refused _
  | @some dev _ alike =>
    obtain ⟨base, tmp, rfl⟩ := alike
    refine .bind (r := Partition.Alike) (.lift (.ite (.pure ⟨base, tmp, rfl⟩) (.ite (.throw _) (.pure ⟨base, tmp, rfl⟩)))) ?_
    rintro l _ ⟨base, tmp, rfl⟩
    have selected := selectNextMacroblock_related (show l.dev.Alike _ from ⟨base, tmp, rfl⟩) fuel
    refine .bind (.ite selected (.pure ⟨base, tmp, rfl⟩)) ?_
    rintro dev _ ⟨base, tmp, rfl⟩
    exact .pure ⟨rfl, base, tmp, rfl⟩

/-- What is asked of an open partition. -/
inductive Operation where
  | read (rOffset size : ℕ)
  | write (rOffset size : ℕ) (buf : Bytes)
  | cycle (times : ℕ)
  | resize (size reserved : ℤ)

/-- The same is asked, but perhaps other data is written. -/
inductive Operation.SameShape : Operation → Operation → Prop
  | read (rOffset size : ℕ) : SameShape (.read rOffset size) (.read rOffset size)
  | write (rOffset size : ℕ) (buf buf' : Bytes) : SameShape (.write rOffset size buf) (.write rOffset size buf')
  | cycle (times : ℕ) : SameShape (.cycle times) (.cycle times)
  | resize (size reserved : ℤ) : SameShape (.resize size reserved) (.resize size reserved)

def perform (p : Params) (fuel : ℕ) (entry : Entry) : Operation → Draw Failure Entry
  | .read rOffset size => do
    let _ ← reqRead p entry.l rOffset size fun _ => 0
    return entry
  | .write rOffset size buf => do
    let l ← reqWrite p fuel entry.l rOffset size buf
    return { entry with l }
  | .cycle times => do
    let l ← cycleTurns p fuel times entry.l
    return { entry with l }
  | .resize size reserved => do
    let (_, entry) ← Control.resize p fuel entry size reserved
    return entry

theorem perform_related {entry entry' : Entry} (alike : entry.Alike entry') (fuel : ℕ) {op op' : Operation}
    (same : op.SameShape op') :
    (perform p fuel entry op).Related Entry.Alike (perform (p.withKey k) fuel entry' op') := by
  have onPartition {x x' : Draw Failure Partition} (related : x.Related Partition.Alike x') :
      (do let l ← x; return { entry with l } : Draw Failure Entry).Related Entry.Alike
        (do let l ← x'; return { entry' with l }) := by
    obtain ⟨-, -, rfl⟩ := alike
    refine related.bind ?_
    rintro l _ ⟨base, tmp, rfl⟩
    exact .pure ⟨base, tmp, rfl⟩
  have alike_l : entry.l.Alike entry'.l := by
    obtain ⟨base, tmp, rfl⟩ := alike
    exact ⟨base, tmp, rfl⟩
  cases same with
  | read rOffset size => exact .bind (reqRead_related alike_l rOffset size _ _) fun _ _ _ => .pure alike
  | write rOffset size buf buf' => exact onPartition (reqWrite_related alike_l fuel rOffset size buf buf')
  | cycle times => exact onPartition (cycleTurns_related alike_l fuel times)
  | resize size reserved => exact .bind (resize_related alike fuel size reserved) fun _ _ done => .pure done.2

/-- Whatever is written, under whatever key: for the same random choices the same happens. -/
theorem trace_oblivious {entry entry' : Entry} (alike : entry.hidden = entry'.hidden) (fuel : ℕ) {ops ops' : List Operation}
    (shape : List.Forall₂ Operation.SameShape ops ops') :
    Entry.hidden <$> ops.foldlM (perform p fuel) entry =
      Entry.hidden <$> ops'.foldlM (perform (p.withKey k) fuel) entry' := by
  have related : (ops.foldlM (perform p fuel) entry).Related Entry.Alike (ops'.foldlM (perform (p.withKey k) fuel) entry') :=
    Draw.Related.foldlM (f := perform p fuel) (g := perform (p.withKey k) fuel)
      (fun _ _ _ _ alike same => perform_related alike fuel same) shape (Entry.alike_iff.mpr alike)
  exact (related.mono fun _ _ => Entry.alike_iff.mp).map_eq

/-- A partition without macroblocks on a base device of one macroblock. -/
def unsizedEntry : Entry where
  size := 0
  l := {
    dev := {
      b := Blockio.initInfos (Params.smallest 1 Geometry.one_fits) (fun _ => 0) []
      self := 0
      status := Bitmap.init (Geometry.smallest 1).maxMacroblocks } }

/-- Another byte under another key. -/
theorem trace_oblivious_write :
    Entry.hidden <$> [.resize 1 0, .write 0 1 fun _ => 1, .cycle 1].foldlM (perform (Params.smallest 1 Geometry.one_fits) 1)
        unsizedEntry =
      Entry.hidden <$> [.resize 1 0, .write 0 1 fun _ => 2, .cycle 1].foldlM
        (perform ((Params.smallest 1 Geometry.one_fits).withKey ⟨⟨fun _ block => block, fun _ block => block, fun _ _ => rfl⟩,
          fun _ _ => 1⟩) 1) unsizedEntry :=
  trace_oblivious rfl 1 (.cons (.resize ..) (.cons (.write ..) (.cons (.cycle ..) .nil)))

end Control

end Scubed3
