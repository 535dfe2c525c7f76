import Scubed3.Partition.Homes
import Scubed3.Server.Ownership

/-! # What happens to one partition does not show in another

A command names one partition, and so does a request of the file system. Whatever it does, the macroblocks that the other
partitions hold stay what they are, so a read of any of them gives what it gave before, in every state of the daemon.
-/

namespace Scubed3.Control

open List Blockio Memory Scubed3.Partition

variable {u : Setup} {keys : Set u.WideCipher} {d d' : Daemon u} {env : Env} {name : List UInt8} {entry : FuseIoEntry u}

/-! ## Turns of the daemon -/

/-- Something happens to the partition `name`. -/
inductive Turn (keys : Set u.WideCipher) : List UInt8 → Daemon u → Daemon u → Prop
  | command {d d' : Daemon u} {env : Env} {s s' : Socket} {line : List UInt8} {ret : ℤ} {tape rest : List ℕ}
      (fresh : ∀ entry ∈ d.entries, entry.io.l.dev.self ≠ env.addr)
      (ran : (controlCall env s d line).run tape = .done (ret, s', d') rest) (used : ∀ entry ∈ d'.entries, entry.c ∈ keys)
      (apart : KeysApart keys d d') : Turn keys (named line) d d'
  /-- `fuse_io_write`. -/
  | write {d : Daemon u} {name : List UInt8} {entry : FuseIoEntry u} {fuel rOffset size : ℕ} {buf : Bytes}
      {l : Partition} {tape rest : List ℕ} (found : d.find name = some entry)
      (ran : (reqWrite (u.params entry.c) fuel (entry.io.attach d.b).l rOffset size buf).run tape = .done l rest)
      (apart : KeysApart keys d (d.putIo entry { entry.io with l })) : Turn keys name d (d.putIo entry { entry.io with l })
  /-- `fuse_io_open` and `fuse_io_release`. -/
  | inuse {d : Daemon u} {name : List UInt8} {entry : FuseIoEntry u} {inuse : Bool} (found : d.find name = some entry) :
      Turn keys name d (d.put { entry with io := { entry.io with inuse } })
  /-- `fuse_io_release`, when the partition is to be closed on release. -/
  | release {d d' : Daemon u} {name : List UInt8} {entry : FuseIoEntry u} (found : d.find name = some entry)
      (freed : freer { d with entries := d.entries.filter (·.key ≠ name) }
        { d := some (entry.c, (entry.device d.b)), id := some entry.uniqueId } = .ok d')
      (apart : KeysApart keys d d') : Turn keys name d d'

theorem Operates.turn (operates : Operates keys d) (turn : Turn keys name d d') : Operates keys d' := by
  cases turn with
  | command fresh ran used apart => exact operates.command fresh ran used apart
  | write found ran apart => exact operates.write found ran apart
  | inuse found => exact operates.inuse found
  | release found freed apart => exact operates.release found freed apart

/-- What a read of a partition gives. -/
def shows (d : Daemon u) (entry : FuseIoEntry u) (rOffset size : ℕ) (buf : Bytes) : Draw Failure Bytes :=
  reqRead (u.params entry.c) (entry.io.attach d.b).l rOffset size buf

/-! ## One turn -/

/-- Only the partition `name` changes, and only macroblocks that it holds or takes. -/
structure Leaves (name : List UInt8) (d d' : Daemon u) : Prop where
  kept : ∀ entry ∈ d.entries, entry.key ≠ name → entry ∈ d'.entries
  homed : ∀ entry ∈ d'.entries, entry ∈ d.entries ∨ Homed (u.params entry.c) entry.io.l
  spares : ∃ mine, (∀ entry ∈ d.entries, entry.key ≠ name → ∀ c ∈ held entry.io.l.dev, c ∉ mine) ∧
    ∀ c, Spares (u.params c) mine d.b d'.b

theorem Leaves.refl (d : Daemon u) : Leaves name d d :=
  ⟨fun _ listed _ => listed, fun _ => .inl, [], fun _ _ _ _ _ => not_mem_nil, fun _ => .refl _⟩

/-- The device of a partition, and what is taken from the unallocated list. -/
theorem Leaves.of_spares {mine : List ℕ} {c : u.WideCipher} (kept : ∀ entry ∈ d.entries, entry.key ≠ name → entry ∈ d'.entries)
    (homed : ∀ entry ∈ d'.entries, entry ∈ d.entries ∨ Homed (u.params entry.c) entry.io.l)
    (apart : ∀ entry ∈ d.entries, entry.key ≠ name → ∀ c ∈ held entry.io.l.dev, c ∉ mine)
    (spares : Spares (u.params c) mine d.b d'.b) : Leaves name d d' :=
  ⟨kept, homed, mine, apart, fun _ => ⟨spares.seqno, spares.macroblock⟩⟩

/-- An entry is replaced. -/
theorem Leaves.put {mine : List ℕ} {b : Blockio} (entry : FuseIoEntry u) (key : entry.key = name) (homed : Homed (u.params entry.c) entry.io.l)
    (apart : ∀ entry ∈ d.entries, entry.key ≠ name → ∀ c ∈ held entry.io.l.dev, c ∉ mine)
    (spares : Spares (u.params entry.c) mine d.b b) : Leaves name d { d.put entry with b } := by
  refine .of_spares (fun other listed different => ?_) (fun other listed => ?_) apart spares
  · exact mem_map.mpr ⟨other, listed, if_neg fun same => different (same.trans key)⟩
  · obtain ⟨old, member, rfl⟩ := mem_map.mp listed
    split
    · exact .inr homed
    · exact .inl member

namespace Ledger

variable (ledger : Ledger d)
include ledger

theorem unallocated_apart (listed : entry ∈ d.entries) : ∀ c ∈ held entry.io.l.dev, c ∉ d.b.unallocated :=
  fun _ mine free => (nodup_append'.mp ledger.nodup).2.2 free (mem_flatMap.mpr ⟨entry, listed, mine⟩)

theorem apart (found : d.find name = some entry) :
    ∀ other ∈ d.entries, other.key ≠ name → ∀ c ∈ held other.io.l.dev, c ∉ d.b.unallocated ++ held entry.io.l.dev := by
  intro other listed different c mine taken
  obtain ⟨member, key⟩ := find_eq_some found
  rcases mem_append.mp taken with free | taken
  · exact ledger.unallocated_apart listed c mine free
  · exact different (ledger.eq_of_held member listed taken mine ▸ key)

variable (counts : Counts keys d) (homes : ∀ entry ∈ d.entries, Homed (u.params entry.c) entry.io.l)
  (few : u.b.totalMacroblocks ≤ 2 ^ (32 - u.b.mesobits))

include homes few in
theorem leaves_path {fuel : ℕ} {l : Partition} (found : d.find name = some entry)
    (path : Path (u.params entry.c) fuel (entry.io.attach d.b).l l) :
    Leaves name d (d.putIo entry { entry.io with l }) := by
  obtain ⟨member, key⟩ := find_eq_some found
  have holds := ledger.holds entry member
  have inside := ledger.inside_mine member
  have nodup := ledger.nodup_mine member
  have homed : Homed (u.params entry.c) (entry.io.attach d.b).l := (homes entry member).congr rfl fun _ => id
  exact .put { entry with io := { entry.io with l } } key (homed.path few inside nodup holds path)
    (ledger.apart found) (path_spares inside nodup holds path)

/-- A partition is closed. -/
theorem leaves_close (found : d.find name = some entry)
    (freed : freer { d with entries := d.entries.filter (·.key ≠ name) }
      { d := some (entry.c, (entry.device d.b)), id := some entry.uniqueId } = .ok d') : Leaves name d d' := by
  obtain ⟨dev, flushed, rfl⟩ := freer_some freed
  have holds := ledger.holds entry (find_eq_some found).1
  have written : Spares (u.params entry.c) (d.b.unallocated ++ held entry.io.l.dev) d.b dev.b := by
    split at flushed
    · exact .output holds flushed
    · rw [flushed]
      exact .refl _
  refine .of_spares (fun other listed different => ?_) (fun other listed => .inl (mem_filter.mp listed).1) (ledger.apart found)
    (written.trans (.freed dev))
  exact mem_filter.mpr ⟨listed, by simpa using different⟩

include counts few in
/-- A partition is opened. -/
theorem leaves_open {spec key : List UInt8} {add : Bool} {tape rest : List ℕ}
    (fresh : ∀ entry ∈ d.entries, entry.io.l.dev.self ≠ env.addr)
    (ran : (Control.openTry env d name spec key add).run tape = .done (.ok entry) rest) (used : entry.c ∈ keys) :
    Leaves name d
      { b := entry.io.l.dev.b, ids := entry.uniqueId :: d.ids, entries := addElement (·.key) entry d.entries } := by
  obtain ⟨-, -, dev, l, missing, mid, found, started, -, same, selected⟩ := openTry_ok ran
  have coherent := ledger.coherent entry.c
  have inventory := (devInit_yields d.b env.addr).value dev found
  have holds := holds_of_devInit coherent (ledger.fresh fresh) (counts _ used) found
  have inside : ∀ c ∈ d.b.unallocated, c < u.b.totalMacroblocks := fun c free => ledger.inside (mem_append_left _ free)
  have capacity (c : ℕ) (listed : c ∈ dev.replay) : (dev.b.infos c).noIndices ≤ u.b.mmpm := by
    have isOurs := (inventory.mem_replay c).mp listed
    rw [inventory.info_ours c isOurs]
    exact (inventory.parses c isOurs).capacity
  have homed : Homed (u.params entry.c) l := .init few inside holds capacity started
  obtain ⟨writes, base⟩ := holds.init started
  have spares : Spares (u.params entry.c) d.b.unallocated d.b l.dev.b :=
    (Spares.devInit coherent found).trans (.of_base base fun c _ => ((init_sameDevice started).infos c).1)
  obtain ⟨lists, chosen⟩ : (∀ c ∈ held l.dev, c ∈ held entry.io.l.dev) ∧
      Spares (u.params entry.c) d.b.unallocated d.b entry.io.l.dev.b := by
    split at selected
    · exact ⟨fun c => ((writes.holds.select selected).mem_held writes.holds).mpr, spares.trans (.select writes.holds selected)⟩
    · rw [selected]
      exact ⟨fun _ => id, spares⟩
  refine .of_spares (fun other listed _ => mem_addElement.mpr (.inr listed)) (fun other listed => ?_)
    (fun other listed _ => ledger.unallocated_apart listed) chosen
  rcases mem_addElement.mp listed with rfl | old
  · exact .inr (homed.congr (by rw [same]) lists)
  · exact .inl old

include counts homes few in
/-- A command. -/
theorem leaves_acts (fresh : ∀ entry ∈ d.entries, entry.io.l.dev.self ≠ env.addr) (acts : Acts env d name d')
    (used : ∀ entry ∈ d'.entries, entry.c ∈ keys) : Leaves name d d' := by
  cases acts with
  | told => exact .refl d
  | @set old entry found key c io =>
    obtain ⟨member, named⟩ := find_eq_some found
    refine .put _ (key.trans named) ?_ (fun _ _ _ _ _ => not_mem_nil) (.refl _)
    rw [c, io]
    exact homes old member
  | cycled found ran => exact ledger.leaves_path homes few found ((cycleTurns_path _ _ _ _).of_done ran)
  | @resized entry size reserved io tape rest found ran =>
    obtain ⟨member, key⟩ := find_eq_some found
    obtain ⟨spares, homed⟩ := resize_homed (ledger.holds entry member) (ledger.nodup_mine member) ran
    exact .put { entry with io } key (homed ((homes entry member).congr rfl fun _ => id)) (ledger.apart found) spares
  | opened new ran => exact ledger.leaves_open counts few fresh ran (used _ (mem_addElement.mpr (.inl rfl)))
  | undone ran freed =>
    rcases openTry_error ran with ⟨-, rfl⟩ | ⟨-, c, id, dev, found, rfl⟩
    · cases freed
    · obtain ⟨dev', flushed, rfl⟩ := freer_some freed
      have inventory := (devInit_yields _ _).value _ found
      rw [inventory.idle.2.2, if_neg (by decide)] at flushed
      subst flushed
      exact .of_spares (fun _ listed _ => listed) (fun _ => .inl) (fun _ listed _ => ledger.unallocated_apart listed)
        ((Spares.devInit (ledger.coherent c) found).trans (.freed dev'))
  | closed found _ freed => exact ledger.leaves_close found freed

include counts homes few in
theorem leaves_turn (turn : Turn keys name d d') : Leaves name d d' := by
  cases turn with
  | command fresh ran used => exact ledger.leaves_acts counts homes few fresh (controlCall_does.of_done ran) used
  | write found ran => exact ledger.leaves_path homes few found ((reqWrite_path ..).of_done ran)
  | inuse found =>
    obtain ⟨member, key⟩ := find_eq_some found
    have homed := homes _ member
    exact .put _ key homed (fun _ _ _ _ _ => not_mem_nil) (.refl _)
  | release found freed => exact ledger.leaves_close found freed

end Ledger

/-! ## Any number of turns -/

variable (few : u.b.totalMacroblocks ≤ 2 ^ (32 - u.b.mesobits))
include few

/-- In every state every partition reads where it may. -/
theorem Operates.homed (operates : Operates keys d) : ∀ entry ∈ d.entries, Homed (u.params entry.c) entry.io.l := by
  have step {name : List UInt8} {d d' : Daemon u} (before : Operates keys d) (turn : Turn keys name d d')
      (homes : ∀ entry ∈ d.entries, Homed (u.params entry.c) entry.io.l) :
      ∀ entry ∈ d'.entries, Homed (u.params entry.c) entry.io.l := fun entry listed => by
    obtain ⟨ledger, counts⟩ := before.ledger
    rcases (ledger.leaves_turn counts homes few turn).homed entry listed with old | homed
    · exact homes entry old
    · exact homed
  induction operates with
  | start => exact nofun
  | command before fresh ran used apart ih => exact step before (.command fresh ran used apart) ih
  | write before found ran apart ih => exact step before (.write found ran apart) ih
  | inuse before found ih => exact step before (.inuse found) ih
  | release before found freed apart ih => exact step before (.release found freed apart) ih

/-- What happens to another partition does not show. -/
theorem Operates.shows_turn (operates : Operates keys d) (turn : Turn keys name d d') (listed : entry ∈ d.entries)
    (other : entry.key ≠ name) : entry ∈ d'.entries ∧ shows d' entry = shows d entry := by
  obtain ⟨ledger, counts⟩ := operates.ledger
  have homed := operates.homed few entry listed
  obtain ⟨kept, -, mine, apart, spares⟩ := ledger.leaves_turn counts (operates.homed few) few turn
  refine ⟨kept entry listed other, funext fun rOffset => funext fun size => funext fun buf => ?_⟩
  exact reqRead_beside (l := (entry.io.attach d.b).l) (homed.congr rfl fun _ => id) (spares entry.c) (apart entry listed other)
    rOffset size buf

omit few

/-! ### Two partitions -/

theorem complement_complement (block : Fin 16 → UInt8) : (fun i => ~~~ (fun i => ~~~ block i) i) = block :=
  funext fun _ => UInt8.not_not

/-- A block cipher that is as good as none. -/
def complementing : BlockCipher where
  enc block i := ~~~ block i
  dec block i := ~~~ block i
  dec_enc := complement_complement

/-- A base device of two macroblocks, and a library that knows one block cipher. -/
def twoCiphers : Setup :=
  { Setup.smallest 2 Geometry.two_fits with
    gcrypt := {
      mapName := fun _ => 1
      blockLen := fun _ => 16
      keyLen := fun _ => 1
      setkey := fun _ _ => .ok complementing
      sha256 := fun text _ => text.headD 0 } }

def twoCiphersEmpty : Daemon twoCiphers where
  b := Blockio.initInfos (Params.smallest 2 Geometry.two_fits) (fun _ => 0) []

/-- These keys find no index block among zeroes. -/
def blankKeys : Set twoCiphers.WideCipher :=
  { c | [0, 1].all (fun no => !seemsOurs (twoCiphers.params c) (header (twoCiphers.params c) (fun _ => 0) no)) = true }

/-- A command that answers, for partitions at these addresses. -/
structure Answers (addr : ℕ) (line : String) (tape : List ℕ) (d d' : Daemon twoCiphers) (selves : List ℕ) : Prop where
  ran : ∃ s', (controlCall { fuel := 1, addr, times := 0 } { accepts := fun _ => 1 } d (ascii line)).run tape =
    .done (0, s', d') []
  base : d'.b.base = fun _ => 0
  keys : d'.entries.all (fun entry => [0, 1].all fun no =>
    !seemsOurs (twoCiphers.params entry.c) (header (twoCiphers.params entry.c) (fun _ => 0) no)) = true
  selves : d'.entries.map (·.io.l.dev.self) = selves

theorem Answers.turn {addr : ℕ} {line : String} {tape selves selves' : List ℕ} {d d' : Daemon twoCiphers}
    (answers : Answers addr line tape d d' selves') (base : d.b.base = fun _ => 0)
    (before : d.entries.map (·.io.l.dev.self) = selves) (fresh : addr ∉ selves) : Turn blankKeys (named (ascii line)) d d' := by
  obtain ⟨s', ran⟩ := answers.ran
  refine .command (fun entry listed same => fresh ?_) ran (fun entry listed => ?_) (.of_base (answers.base.trans base.symm))
  · rw [← before]
    exact mem_map.mpr ⟨entry, listed, same⟩
  · exact all_eq_true.mp answers.keys entry listed

end Scubed3.Control
