import Scubed3.Partition.Tracking
import Mathlib

/-! # Orderly histories

An orderly history is one in which none of these happens: a macroblock with mesoblocks is written out although it comes
next itself; the macroblocks outgrow the entries of the table; a partition is closed between a resize and the collection
that is due; a partition with mesoblocks has no current macroblock, because its size is a multiple of four gigabytes. In
every state of such a history the partition shows what the log of its changes says, over all sessions, and the device lags
behind by the end of the log.
-/

namespace Scubed3

open Blockio Scubed3.Partition Volume

section Orderly

variable (p : Params)

/-- An orderly history with the log of its changes, the newest first. What is lost when the program is killed, or was not
written when the partition is closed, is taken from the log. -/
inductive Orderly : DeviceState → List Change → Prop
  | start {b : Blockio} (coherent : Coherent p b) (written : b.written = [])
      (foreign : ∀ c < p.b.totalMacroblocks, Foreign p b.base c) : Orderly (.closed b) []
  | opened {b : Blockio} {log : List Change} {fuel addr : ℕ} {add missing : Bool} {entry : Entry} {tape rest : List ℕ}
      (before : Orderly (.closed b) log) (fresh : ∀ c, (b.infos c).dev ≠ some addr)
      (ran : (Control.openCreateCommon p fuel b addr add).run tape = .done (.opened entry missing) rest)
      (current : entry.l.dev.bi = none → entry.l.noBlockIndices = 0) : Orderly (.opened entry) log
  | refused {b b' : Blockio} {log : List Change} {fuel addr : ℕ} {add : Bool} {message : String} {tape rest : List ℕ}
      (before : Orderly (.closed b) log) (fresh : ∀ c, (b.infos c).dev ≠ some addr)
      (ran : (Control.openCreateCommon p fuel b addr add).run tape = .done (.refused message b') rest) :
      Orderly (.closed b') log
  | write {entry : Entry} {log : List Change} {l : Partition} {fuel rOffset size : ℕ} {buf : Bytes} {tape rest : List ℕ}
      (before : Orderly (.opened entry) log) (offset : rOffset < 2 ^ 63) (positive : 1 ≤ size) (small : size < 2 ^ 32)
      (inside : rOffset + size ≤ (after log).length)
      (ran : (cleanReq p fuel entry.l rOffset size buf).run tape = .done l rest) :
      Orderly (.opened { entry with l }) ((reqChanges p rOffset size buf).reverse ++ log)
  | cycle {entry : Entry} {log : List Change} {l : Partition} {cur fuel : ℕ} {tape rest : List ℕ}
      (before : Orderly (.opened entry) log) (current : entry.l.dev.bi = some cur) (clean : ¬ Repeats entry.l)
      (ran : (Partition.cycle p fuel entry.l).run tape = .done l rest) : Orderly (.opened { entry with l }) log
  | resize {entry entry' : Entry} {log : List Change} {fuel : ℕ} {size reserved : ℤ} {tape rest : List ℕ}
      (before : Orderly (.opened entry) log) (nonneg : 0 ≤ reserved)
      (addressable : ∀ b ∈ owned p entry'.l.dev, Addressable p (b + 1))
      (ran : (Control.resize p fuel entry size reserved).run tape = .done (.ok, entry') rest) :
      Orderly (.opened entry') (.enlarge (entry'.l.noBlockIndices * p.mesoblkSize) :: log)
  | close {entry : Entry} {log : List Change} {b : Blockio} {count : ℕ} (before : Orderly (.opened entry) log)
      (vacant : entry.l.dev.updated = true → Vacant p entry.l) (ran : Control.close p entry = .ok (.ok, b))
      (lags : LagsBy count log (stored p b.base)) : Orderly (.closed b) (log.drop count)
  | crash {state : DeviceState} {log : List Change} {count : ℕ} (before : Orderly state log)
      (lags : LagsBy count log (stored p state.device.base)) :
      Orderly (.closed (initInfos p state.device.base state.device.written)) (log.drop count)
  | othersClosed {b b' : Blockio} {log : List Change} (before : Orderly (.closed b) log)
      (others : Untouched p (Reserved p b) b b') : Orderly (.closed b') log
  | othersOpened {entry : Entry} {log : List Change} {b' : Blockio} (before : Orderly (.opened entry) log)
      (others : Untouched p (· ∈ owned p entry.l.dev) entry.l.dev.b b')
      (fresh : ∀ c ∉ owned p entry.l.dev, (b'.infos c).dev ≠ some entry.l.dev.self) :
      Orderly (.opened { entry with l := beside entry.l b' }) log

end Orderly

variable {p : Params} {log : List Change} {entry : Entry} {b : Blockio}

/-- What holds in every state of an orderly history. -/
def InOrder (p : Params) : DeviceState → List Change → Prop
  | .closed b, log => Keeps p log b
  | .opened entry, log => Tracks p log entry.l ∧
      (entry.l.dev.bi = none → entry.l.noBlockIndices = 0 ∧ entry.l.dev.updated = false)

/-- Nothing was ever written. -/
theorem Partition.Keeps.start (coherent : Coherent p b) (written : b.written = [])
    (foreign : ∀ c < p.b.totalMacroblocks, Foreign p b.base c) : Keeps p [] b := by
  have none : headers p b.base = ∅ := by
    refine Finset.eq_empty_of_forall_notMem fun c member => ?_
    obtain ⟨bound, isOurs⟩ := mem_headers.mp member
    exact nomatch isOurs.symm.trans (foreign c bound)
  have nothing (top : ℕ) : ¬ Highest p b.base ∅ top := fun highest => absurd highest.1 (Finset.notMem_empty top)
  have size : storedMesoblks p b.base = 0 := by
    unfold storedMesoblks
    rw [none, pick_eq_none nothing]
  refine ⟨.start coherent written foreign, ?_, ?_⟩
  · constructor
    all_goals rw [none]
    · exact fun c member => absurd member (Finset.notMem_empty c)
    all_goals exact fun top highest => absurd highest (nothing top)
  · unfold stored
    rw [size, Nat.zero_mul]
    rfl

/-- An open that is refused changes nothing on the device. -/
theorem Partition.Keeps.refused {b' : Blockio} {fuel addr : ℕ} {add : Bool} {message : String} {tape rest : List ℕ}
    (keeps : Keeps p log b) (fresh : ∀ c, (b.infos c).dev ≠ some addr)
    (ran : (Control.openCreateCommon p fuel b addr add).run tape = .done (.refused message b') rest) : Keeps p log b' := by
  obtain ⟨dev, found, closed⟩ := Control.openCreateCommon_refused ran
  have inventory := (devInit_yields b addr).value dev found
  obtain ⟨dev', written, rfl⟩ := devFree_eq_ok_iff.mp closed
  rw [inventory.idle.2.2, if_neg (by decide)] at written
  subst written
  have base : (freed p dev').base = b.base := inventory.base
  exact ⟨Control.shut_of_openCreateCommon_refused keeps.shut fresh ran, base ▸ keeps.shelved, base ▸ keeps.has⟩

/-- Every step keeps the order. -/
theorem Orderly.inOrder {state : DeviceState} (orderly : Orderly p state log) : InOrder p state log := by
  induction orderly with
  | start coherent written foreign => exact .start coherent written foreign
  | @opened b log fuel addr add missing entry tape rest before fresh ran current ih =>
    obtain ⟨-, -, -, updated, -⟩ := tidy_of_opened ih.shut ih.shelved fresh ran
    exact ⟨Keeps.opened ih fresh ran, fun none => ⟨current none, updated⟩⟩
  | refused _ fresh ran ih => exact Keeps.refused ih fresh ran
  | @write entry log l fuel rOffset size buf tape rest _ offset positive small inside ran ih =>
    obtain ⟨tracks, idle⟩ := ih
    rw [← tracks.shows] at inside
    change rOffset + size ≤ entry.l.noBlockIndices * p.mesoblkSize at inside
    have current : entry.l.dev.bi ≠ none := by
      intro none
      rw [(idle none).1] at inside
      omega
    obtain ⟨tracks', current', -⟩ := (tracks.cleanReq current offset positive small fuel buf).of_done ran
    rw [if_pos inside] at tracks'
    exact ⟨tracks', fun none => absurd none current'⟩
  | cycle _ current clean ran ih =>
    obtain ⟨tracks, current', -⟩ := (ih.1.cycle current clean _).of_done ran
    exact ⟨tracks, fun none => absurd none current'⟩
  | resize _ nonneg addressable ran ih =>
    exact ⟨ih.1.resize ran nonneg addressable, fun none => absurd none (ih.1.tidy.resize ran nonneg addressable).2.2.2.2.2⟩
  | close _ vacant ran lags ih =>
    obtain ⟨-, closed⟩ := Control.close_eq_ok_iff.mp ran
    obtain ⟨_, -, -, keeps⟩ := ih.1.free vacant closed
    exact ⟨keeps.shut, keeps.shelved, lags.symm⟩
  | @crash state log count _ lags ih =>
    cases state with
    | closed b =>
      have shut : Shut p (initInfos p b.base b.written) := @Good.crash p (.closed b) ih.shut
      exact ⟨shut, ih.shelved, lags.symm⟩
    | opened entry => exact ih.1.crash lags
  | othersClosed _ others ih =>
    obtain ⟨shelved, same⟩ := ih.shut.stays others ih.shelved
    exact ⟨ih.shut.untouched others, shelved, same.trans ih.has⟩
  | othersOpened _ others fresh ih => exact ⟨ih.1.beside others fresh, ih.2⟩

/-! ## What the partition shows -/

/-- Reading gives the bytes of the volume. -/
structure Shows (p : Params) (l : Partition) (volume : Volume) : Prop where
  length : l.noBlockIndices * p.mesoblkSize = volume.length
  reads : ∀ rOffset size buf, rOffset < 2 ^ 63 → size < 2 ^ 32 → rOffset + size ≤ volume.length →
    reqRead p l rOffset size buf = pure (Memory.blit buf 0 size fun i => volume.bytes (rOffset + i))

theorem Partition.Tracks.shows_log {l : Partition} (tracks : Tracks p log l) : Shows p l (after log) := by
  rw [← tracks.shows]
  exact ⟨rfl, fun rOffset size buf offset small inside => tracks.tidy.reqRead offset small inside buf⟩

/-- What was announced is in some index block. -/
theorem headers_ne_empty {base : Bytes} (some : 0 < (stored p base).length) : headers p base ≠ ∅ := by
  intro none
  have nothing (top : ℕ) : ¬ Highest p base ∅ top := fun highest => absurd highest.1 (Finset.notMem_empty top)
  have size : storedMesoblks p base = 0 := by
    unfold storedMesoblks
    rw [none, pick_eq_none nothing]
  rw [stored, size, Nat.zero_mul] at some
  exact absurd some (lt_irrefl 0)

/-- A closed partition that has something can always be opened, and shows what is on the device. -/
theorem Partition.Keeps.reopens {addr : ℕ} (keeps : Keeps p log b) (fresh : ∀ c, (b.infos c).dev ≠ some addr)
    (some : 0 < (after log).length) (fuel : ℕ) : Draw.Safe (Control.openPartition p fuel b addr) fun opened =>
      ∃ entry missing, opened = .opened entry missing ∧ Shows p entry.l (after log) := by
  have written : headers p b.base ≠ ∅ := headers_ne_empty (keeps.has ▸ some)
  refine (open_safe keeps.shut keeps.shelved fresh written).reached.imp fun opened ⟨⟨entry, missing, same⟩, tape, rest, ran⟩ => ?_
  subst same
  exact ⟨entry, missing, rfl, (keeps.opened fresh ran).shows_log⟩

theorem Orderly.shows (orderly : Orderly p (.opened entry) log) : Shows p entry.l (after log) := orderly.inOrder.1.shows_log

/-- A partition that can store something has a current macroblock. -/
theorem Orderly.current (orderly : Orderly p (.opened entry) log) (some : 0 < (after log).length) : entry.l.dev.bi ≠ none := by
  intro none
  rw [← orderly.shows.length, (orderly.inOrder.2 none).1, Nat.zero_mul] at some
  exact absurd some (lt_irrefl 0)

theorem Orderly.after_request {rOffset size : ℕ} (orderly : Orderly p (.opened entry) log) (positive : 1 ≤ size)
    (inside : rOffset + size ≤ (after log).length) (buf : Bytes) : after ((reqChanges p rOffset size buf).reverse ++ log) =
      ⟨(after log).length, Memory.blit (after log).bytes rOffset size buf⟩ := by
  rw [← orderly.shows.length] at inside
  exact after_reqChanges positive inside buf log

/-- A close is answered when the collection is done that is due. -/
theorem Orderly.closes (orderly : Orderly p (.opened entry) log) (closed : entry.inuse = false)
    (vacant : entry.l.dev.updated = true → Vacant p entry.l) : ∃ b, Control.close p entry = .ok (.ok, b) := by
  obtain ⟨tracks, idle⟩ := orderly.inOrder
  suffices freed : ∃ b, devFree p entry.l.dev = .ok b by
    obtain ⟨b, ran⟩ := freed
    exact ⟨b, Control.close_eq_ok_iff.mpr ⟨closed, ran⟩⟩
  simp only [devFree_eq_ok_iff]
  cases updated : entry.l.dev.updated with
  | false => exact ⟨_, _, rfl, rfl⟩
  | true =>
    have some : entry.l.dev.bi ≠ none := fun none => nomatch (idle none).2.symm.trans updated
    obtain ⟨cur, current⟩ := Option.ne_none_iff_exists'.mp some
    exact ⟨_, _, (tracks.tidy.intact.flush current (vacant updated)).1, rfl⟩

/-- What is on the device in a state. -/
theorem InOrder.lags {state : DeviceState} (inOrder : InOrder p state log) :
    ∃ count, LagsBy count log (stored p state.device.base) ∧
      Keeps p (log.drop count) (initInfos p state.device.base state.device.written) := by
  cases state with
  | closed b =>
    have shut : Shut p (initInfos p b.base b.written) := @Good.crash p (.closed b) inOrder.shut
    exact ⟨0, inOrder.has.symm, shut, inOrder.shelved, inOrder.has⟩
  | opened entry =>
    obtain ⟨count, lags, -⟩ := inOrder.1.lags
    exact ⟨count, lags, inOrder.1.crash lags⟩

/-! ## A first partition -/

/-- Create a partition on an empty device, and give it macroblocks. -/
def createPartition (total : ℕ) (few : total ≤ 1984) (size reserved : ℤ) : Draw Failure Entry := do
  match ← Control.openCreateCommon (.smallest total few) 8 (initInfos (.smallest total few) (fun _ => 0) []) 0 true with
  | .refused _ _ => .starve
  | .opened entry _ =>
    if entry.l.noBlockIndices = 0 then
      match ← Control.resize (.smallest total few) 8 entry size reserved with
      | (.ok, entry) => return entry
      | _ => .starve
    else .starve

theorem Orderly.createPartition {total : ℕ} {few : total ≤ 1984} {size reserved : ℤ} {tape rest : List ℕ}
    (foreign : ∀ c < total, Foreign (.smallest total few) (fun _ => 0) c) (nonneg : 0 ≤ reserved)
    (ran : (createPartition total few size reserved).run tape = .done entry rest) :
    Orderly (.smallest total few) (.opened entry) [.enlarge (entry.l.noBlockIndices * 512)] := by
  unfold Scubed3.createPartition at ran
  obtain ⟨outcome, _, opened, others⟩ := Draw.bind_done_iff.mp ran
  cases outcome with
  | refused => cases others
  | opened created missing =>
    dsimp only at others
    split at others
    · next nothing =>
      obtain ⟨⟨reply, entry'⟩, _, resized, others⟩ := Draw.bind_done_iff.mp others
      cases reply with
      | refused message => cases others
      | ok =>
        cases others
        have coherent : Coherent (.smallest total few) (initInfos (.smallest total few) (fun _ => 0) []) :=
          ⟨List.nodup_range, fun c => by simp [initInfos]⟩
        have before : Orderly (.smallest total few) (.closed _) [] := .start coherent rfl foreign
        refine .resize (.opened before (by simp [initInfos]) opened fun _ => nothing) nonneg (fun b own => ?_) resized
        have below : b < total := (mem_owned.mp own).1
        change b + 1 < 2 ^ 31
        omega
    · cases others

/-- Create a partition on a device of one macroblock. -/
def createFirst : Draw Failure Entry := do
  let entry ← createPartition 1 Geometry.one_fits 1 0
  if entry.l.noBlockIndices = 1 then return entry else .starve

theorem Orderly.createFirst {tape rest : List ℕ} (ran : createFirst.run tape = .done entry rest) :
    Orderly (.smallest 1 (by decide)) (.opened entry) [.enlarge 512] := by
  obtain ⟨created, _, ran, others⟩ := Draw.bind_done_iff.mp ran
  split at others
  · next one =>
    cases others
    have history := Orderly.createPartition (fun c bound => ?_) le_rfl ran
    · rwa [one] at history
    · obtain rfl : c = 0 := Nat.lt_one_iff.mp bound
      unfold Foreign
      decide +kernel
  · cases others

/-- Create a partition, and write byte 5. -/
def writeFirst : Draw Failure (Partition × Entry) := do
  let entry ← createFirst
  let l ← cleanReq (.smallest 1 Geometry.one_fits) 4 entry.l 5 1 fun _ => 7
  if entry.inuse = false then return (l, entry) else .starve

theorem Orderly.writeFirst : ∃ entry log, Orderly (.smallest 1 (by decide)) (.opened entry) log ∧ entry.inuse = false ∧
    after log = ⟨512, Memory.blit (fun _ => 0) 5 1 fun _ => 7⟩ := by
  have ran : (do let _ ← Scubed3.writeFirst; return : Draw Failure Unit).run [0, 0, 0] = .done () [] := by
    decide +kernel
  obtain ⟨⟨l, entry⟩, _, wrote, -⟩ := Draw.bind_done_iff.mp ran
  unfold Scubed3.writeFirst at wrote
  obtain ⟨entry', _, created, writing⟩ := Draw.bind_done_iff.mp wrote
  obtain ⟨l', _, cleaned, returns⟩ := Draw.bind_done_iff.mp writing
  split at returns
  · next idle =>
    cases returns
    have history := Orderly.write (.createFirst created) (by decide) (by decide) (by decide) (by decide) cleaned
    refine ⟨_, _, history, idle, ?_⟩
    exact (Orderly.createFirst created).after_request (by decide) (by decide) fun _ => 7
  · cases returns

/-- Create a partition, and write its macroblock out. -/
def cycleFirst : Draw Failure (Partition × Entry) := do
  let entry ← createFirst
  if entry.inuse = false ∧ entry.l.dev.bi = some 0 ∧ ¬ Repeats entry.l then
    let l ← Partition.cycle (.smallest 1 Geometry.one_fits) 4 entry.l
    if l.dev.updated = false then return (l, entry) else .starve
  else .starve

theorem Orderly.cycleFirst : ∃ (entry : Entry) (l : Partition) (tape rest : List ℕ),
    Orderly (.smallest 1 (by decide)) (.opened entry) [.enlarge 512] ∧ entry.inuse = false ∧ entry.l.dev.bi = some 0 ∧
    ¬ Repeats entry.l ∧ (Partition.cycle (.smallest 1 (by decide)) 4 entry.l).run tape = .done l rest ∧
    l.dev.updated = false := by
  have ran : (do let _ ← Scubed3.cycleFirst; return : Draw Failure Unit).run [0, 0, 0, 0] = .done () [] := by
    decide +kernel
  obtain ⟨⟨l, entry⟩, _, cycled, -⟩ := Draw.bind_done_iff.mp ran
  unfold Scubed3.cycleFirst at cycled
  obtain ⟨entry', _, created, cycling⟩ := Draw.bind_done_iff.mp cycled
  split at cycling
  · next holds =>
    obtain ⟨l', _, cycled, returns⟩ := Draw.bind_done_iff.mp cycling
    split at returns
    · next unchanged =>
      cases returns
      exact ⟨_, _, _, _, .createFirst created, holds.1, holds.2.1, holds.2.2, cycled, unchanged⟩
    · cases returns
  · cases cycling

/-! ## Over all sessions -/

end Scubed3
