import Scubed3.Model.Daemon
import Scubed3.Partition.Steps

/-! # What a command does to the daemon

Whatever is typed, a command does one of seven things to the partition that it names and to the device. How it
answers does not matter here.
-/

namespace Scubed3.Control

open List Scubed3.Partition

variable {u : Setup} {s : Socket} {d : Daemon u} {env : Env} {name : List UInt8}

/-- The daemon after a command about `name`. -/
inductive Acts (env : Env) (d : Daemon u) (name : List UInt8) : Daemon u → Prop
  | told : Acts env d name d
  /-- A property of a partition was set. -/
  | set {old entry : FuseIoEntry u} (found : d.find name = some old) (key : entry.key = old.key)
      (c : entry.c = old.c) (io : entry.io = old.io) : Acts env d name (d.put entry)
  | cycled {entry : FuseIoEntry u} {times : ℕ} {l : Partition} {tape rest : List ℕ}
      (found : d.find name = some entry)
      (ran : (cycleTurns (u.params entry.c) env.fuel times (entry.io.attach d.b).l).run tape = .done l rest) :
      Acts env d name (d.putIo entry { entry.io with l })
  | resized {entry : FuseIoEntry u} {size reserved : ℤ} {io : Entry} {tape rest : List ℕ}
      (found : d.find name = some entry)
      (ran : (resize (u.params entry.c) env.fuel (entry.io.attach d.b) size reserved).run tape = .done (.ok, io) rest) :
      Acts env d name (d.putIo entry io)
  | opened {spec key : List UInt8} {add : Bool} {entry : FuseIoEntry u} {tape rest : List ℕ}
      (new : d.find name = none) (ran : (openTry env d name spec key add).run tape = .done (.ok entry) rest) :
      Acts env d name { b := entry.io.l.dev.b, ids := entry.uniqueId :: d.ids, entries := addElement (·.key) entry d.entries }
  /-- An open was undone. -/
  | undone {spec key message : List UInt8} {add : Bool} {opening : Opening u} {d' : Daemon u} {tape rest : List ℕ}
      (ran : (openTry env d name spec key add).run tape = .done (.error (message, opening)) rest)
      (freed : freer { d with ids := opening.id.toList ++ d.ids } opening = .ok d') : Acts env d name d'
  | closed {entry : FuseIoEntry u} {d' : Daemon u} (found : d.find name = some entry)
      (idle : entry.io.inuse = false)
      (freed : freer { d with entries := d.entries.filter (·.key ≠ name) }
        { d := some (entry.c, (entry.io.attach d.b).l.dev), id := some entry.uniqueId } = .ok d') : Acts env d name d'

/-- Whoever returns has done one of these. -/
abbrev Does (env : Env) (d : Daemon u) (name : List UInt8) (x : Draw Failure (ℤ × Socket × Daemon u)) : Prop :=
  Draw.Yields x fun r => Acts env d name r.2.2

theorem reply_does {answer : ℤ × Socket} {d' : Daemon u} (acts : Acts env d name d') : Does env d name (reply answer d') :=
  .pure acts

theorem found_does {x : FuseIoEntry u → Draw Failure (ℤ × Socket × Daemon u)}
    (found : ∀ entry, d.find name = some entry → Does env d name (x entry)) :
    Does env d name (match d.find name with
      | none => reply (notFound s name) d
      | some entry => x entry) := by
  cases look : d.find name with
  | none => exact reply_does .told
  | some entry => exact found entry look

theorem controlCycle_does {count : List UInt8} : Does env d name (controlCycle env s d name count) := by
  refine found_does fun entry found => ?_
  dsimp only
  split
  · exact reply_does .told
  split
  · exact reply_does .told
  · refine .bind (m := fun l => Acts env d name (d.putIo entry { entry.io with l })) ?_ fun _ acts => reply_does acts
    exact .of_forall_done fun _ _ _ ran => .cycled found ran

theorem controlResize_does {size reserved : List UInt8} : Does env d name (controlResize env s d name size reserved) := by
  refine found_does fun entry found => ?_
  split
  · exact reply_does .told
  dsimp only
  split
  · exact reply_does .told
  split
  · exact reply_does .told
  · refine .bind (m := fun r => r.1 = .ok → Acts env d name (d.putIo entry r.2)) ?_ fun r acts => ?_
    · refine .of_forall_done fun _ r _ ran granted => ?_
      obtain ⟨answer, io⟩ := r
      cases granted
      exact .resized found ran
    · obtain ⟨_ | _, io⟩ := r
      · exact reply_does (acts rfl)
      · exact reply_does .told

theorem controlOpenCreateCommon_does {spec key : List UInt8} {add : Bool} :
    Does env d name (controlOpenCreateCommon env s d name spec key add) := by
  unfold controlOpenCreateCommon
  split
  · exact reply_does .told
  split
  · exact reply_does .told
  · next new =>
    have new : d.find name = none := by simpa using new
    refine .of_forall_done fun tape r rest ran => ?_
    obtain ⟨outcome, mid, tried, body⟩ := Draw.bind_done_iff.mp ran
    cases outcome with
    | ok entry =>
      cases body
      exact .opened new tried
    | error failed =>
      obtain ⟨d', _, undone, answered⟩ := Draw.bind_done_iff.mp body
      cases answered
      exact .undone tried (Draw.lift_done_iff.mp undone).1

theorem controlClose_does : Does env d name (controlClose s d name) := by
  refine found_does fun entry found => ?_
  split
  · exact reply_does .told
  · next idle =>
    refine .bind (m := Acts env d name) ?_ fun _ acts => reply_does acts
    exact .lift (fun _ freed => .closed found (by simpa using idle) freed) fun _ _ => trivial

theorem controlSetAux_does {key value : List UInt8} : Does env d name (controlSetAux s d name key value) := by
  refine found_does fun entry found => ?_
  split
  · exact reply_does (.set found rfl rfl rfl)
  · exact reply_does .told

theorem controlSetReadonly_does {value : List UInt8} : Does env d name (controlSetReadonly s d name value) := by
  refine found_does fun entry found => ?_
  split
  · exact reply_does .told
  · split
    · exact reply_does (.set found rfl rfl rfl)
    · exact reply_does .told

theorem controlSetCloseOnRelease_does {value : List UInt8} : Does env d name (controlSetCloseOnRelease s d name value) := by
  refine found_does fun entry found => ?_
  split
  · exact reply_does (.set found rfl rfl rfl)
  · exact reply_does .told

theorem runCommand_does {command : Command} {argv : List (List UInt8)} :
    Does env d (argv.headD []) (runCommand env s d command argv) := by
  unfold runCommand
  split
  · exact reply_does .told
  · exact reply_does .told
  · exact reply_does .told
  · exact controlSetReadonly_does
  · exact controlSetCloseOnRelease_does
  · unfold controlCheckAvailable
    split
    · exact reply_does .told
    · split <;> exact reply_does .told
  · exact controlCycle_does
  · exact found_does fun _ _ => reply_does .told
  · exact reply_does .told
  · exact controlOpenCreateCommon_does
  · exact found_does fun _ _ => reply_does .told
  · refine found_does fun _ _ => ?_
    split <;> exact reply_does .told
  · exact controlSetAux_does
  · exact controlOpenCreateCommon_does
  · exact reply_does .told
  · exact controlClose_does
  · exact controlResize_does
  · exact .raise trivial

/-- The partition that a command line is about. -/
def named (line : List UInt8) : List UInt8 :=
  match splitArgs maxArgc (line.takeWhile (· ≠ 0)) with
  | none => []
  | some argv => argv.tail.headD []

/-- All that a command can do. -/
theorem controlCall_does {line : List UInt8} : Does env d (named line) (controlCall env s d line) := by
  unfold controlCall named
  cases splitArgs maxArgc (line.takeWhile (· ≠ 0)) with
  | none => exact reply_does .told
  | some argv =>
    dsimp only
    split
    · exact reply_does .told
    split
    · exact reply_does .told
    split
    · exact reply_does .told
    · exact runCommand_does

/-- How an open ends well. -/
theorem openTry_ok {spec key : List UInt8} {add : Bool} {entry : FuseIoEntry u} {tape rest : List ℕ}
    (ran : (openTry env d name spec key add).run tape = .done (.ok entry) rest) :
    entry.key = name ∧ entry.io.inuse = false ∧ ∃ dev l missing, ∃ mid : List ℕ,
      Blockio.devInit (u.params entry.c) d.b env.addr = .ok dev ∧
      Partition.init (u.params entry.c) dev = .ok (l, missing) ∧ l.dev.bi = none ∧
      entry.io.l = { l with dev := entry.io.l.dev } ∧
      if entry.io.size > 0 then (Blockio.selectNextMacroblock env.fuel l.dev).run mid = .done entry.io.l.dev rest
      else entry.io.l.dev = l.dev := by
  unfold openTry at ran
  cases initialised : openCipher u d.ids spec key with
  | error text =>
    rw [initialised] at ran
    cases ran
  | ok r =>
    obtain ⟨c, id⟩ := r
    rw [initialised] at ran
    obtain ⟨scan, _, scanned, returned⟩ := Draw.bind_done_iff.mp ran
    cases scan with
    | error failed => cases returned
    | ok io =>
      cases returned
      unfold openScan at scanned
      obtain ⟨dev, mid, scanning, body⟩ := Draw.bind_done_iff.mp scanned
      obtain ⟨found, rfl⟩ := Draw.lift_done_iff.mp scanning
      split at body
      · cases body
      split at body
      · cases body
      · obtain ⟨⟨l, missing⟩, _, starting, checking⟩ := Draw.bind_done_iff.mp body
        obtain ⟨started, rfl⟩ := Draw.lift_done_iff.mp starting
        obtain ⟨_, afterwards, checked, selecting⟩ := Draw.bind_done_iff.mp checking
        obtain ⟨idle, -⟩ := Draw.lift_done_iff.mp checked
        obtain ⟨dev', _, selected, answered⟩ := Draw.bind_done_iff.mp selecting
        cases answered
        refine ⟨rfl, rfl, dev, l, missing, afterwards, found, started, check_eq_ok_iff.mp idle, rfl, ?_⟩
        dsimp only
        generalize (if dev.noMacroblocks > dev.reservedMacroblocks then
          entrySize (u.params c) dev.noMacroblocks dev.reservedMacroblocks else 0) = size at selected ⊢
        split at selected
        · next positive => rwa [if_pos positive]
        · next zero =>
          cases selected
          rw [if_neg zero]

/-! ## The entry that is concerned -/

theorem find_split {entry : FuseIoEntry u} (distinct : (d.entries.map (·.key)).Nodup) (found : d.find name = some entry) :
    ∃ before after, d.entries = before ++ entry :: after ∧ entry.key = name ∧
      d.entries.filter (·.key ≠ name) = before ++ after ∧
      ∀ entry' : FuseIoEntry u, entry'.key = name → (d.put entry').entries = before ++ entry' :: after := by
  obtain ⟨before, after, whole⟩ := append_of_mem (mem_of_find?_eq_some found)
  have key : entry.key = name := by simpa using find?_some found
  rw [whole, map_append, map_cons, nodup_middle, nodup_cons, ← map_append] at distinct
  have others : ∀ other ∈ before ++ after, other.key ≠ name := fun other member same =>
    distinct.1 (mem_map.mpr ⟨other, member, same.trans key.symm⟩)
  have left : ∀ other ∈ before, other.key ≠ name := fun other member => others other (mem_append_left _ member)
  have right : ∀ other ∈ after, other.key ≠ name := fun other member => others other (mem_append_right _ member)
  refine ⟨before, after, whole, key, ?_, fun entry' key' => ?_⟩
  · rw [whole, filter_append, filter_cons_of_neg (by simp [key]), filter_eq_self.mpr fun other member => by
      simp [left other member], filter_eq_self.mpr fun other member => by simp [right other member]]
  · change d.entries.map _ = _
    rw [whole, map_append, map_cons, if_pos (key.trans key'.symm), key']
    rw [map_congr_left fun other member => if_neg (left other member),
      map_congr_left fun other member => if_neg (right other member), map_id', map_id']

end Scubed3.Control
