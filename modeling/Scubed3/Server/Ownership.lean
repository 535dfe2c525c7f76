import Scubed3.Server.Ledger

/-! # No macroblock is lost, none is shared

From a base device without index blocks of ours, whatever the control thread and the file system do, the
macroblocks stay divided, and every partition knows how many it has.
-/

namespace Scubed3.Control

open List Blockio Memory

variable {u : Setup}

/-! ## Runs of the daemon -/

/-- What a partition writes does not look like an index block to another key. -/
def KeysApart (keys : Set u.WideCipher) (d d' : Daemon u) : Prop :=
  ∀ c ∈ keys, ∀ entry ∈ d.entries, entry.c ≠ c → ∀ no < u.b.totalMacroblocks,
    (d.b.infos no).dev = some entry.io.l.dev.self →
    header (u.params c) d'.b.base no ≠ header (u.params c) d.b.base no →
    seemsOurs (u.params c) (header (u.params c) d'.b.base no) = false

theorem KeysApart.of_base {keys : Set u.WideCipher} {d d' : Daemon u} (same : d'.b.base = d.b.base) :
    KeysApart keys d d' := fun _ _ _ _ _ _ _ _ changed => absurd (by rw [same]) changed

/-- What can happen to the daemon, when partitions are opened with `keys`. -/
inductive Operates (keys : Set u.WideCipher) : Daemon u → Prop
  | start {c : u.WideCipher} {base : Bytes}
      (empty : ∀ c ∈ keys, ∀ no < u.b.totalMacroblocks, seemsOurs (u.params c) (header (u.params c) base no) = false) :
      Operates keys { b := initInfos (u.params c) base [] }
  | command {d d' : Daemon u} {env : Env} {s s' : Socket} {line : List UInt8} {ret : ℤ} {tape rest : List ℕ}
      (before : Operates keys d) (fresh : ∀ entry ∈ d.entries, entry.io.l.dev.self ≠ env.addr)
      (ran : (controlCall env s d line).run tape = .done (ret, s', d') rest) (used : ∀ entry ∈ d'.entries, entry.c ∈ keys)
      (apart : KeysApart keys d d') : Operates keys d'
  /-- `fuse_io_write`. -/
  | write {d : Daemon u} {name : List UInt8} {entry : FuseIoEntry u} {fuel rOffset size : ℕ} {buf : Bytes}
      {l : Partition} {tape rest : List ℕ} (before : Operates keys d) (found : d.find name = some entry)
      (ran : (Partition.reqWrite (u.params entry.c) fuel (entry.io.attach d.b).l rOffset size buf).run tape = .done l rest)
      (apart : KeysApart keys d (d.putIo entry { entry.io with l })) : Operates keys (d.putIo entry { entry.io with l })
  /-- `fuse_io_open` and `fuse_io_release`. -/
  | inuse {d : Daemon u} {name : List UInt8} {entry : FuseIoEntry u} {inuse : Bool} (before : Operates keys d)
      (found : d.find name = some entry) : Operates keys (d.put { entry with io := { entry.io with inuse } })
  /-- `fuse_io_release`, when the partition is to be closed on release. -/
  | release {d d' : Daemon u} {name : List UInt8} {entry : FuseIoEntry u} (before : Operates keys d)
      (found : d.find name = some entry)
      (freed : freer { d with entries := d.entries.filter (·.key ≠ name) }
        { d := some (entry.c, (entry.device d.b)), id := some entry.uniqueId } = .ok d')
      (apart : KeysApart keys d d') : Operates keys d'

/-- The index blocks of these keys count what they mark. -/
def Counts (keys : Set u.WideCipher) (d : Daemon u) : Prop :=
  ∀ c ∈ keys, ∀ no < u.b.totalMacroblocks, Counted (u.params c) d.b.base no

variable {keys : Set u.WideCipher} {d d' : Daemon u} {env : Env} {name : List UInt8} {entry : FuseIoEntry u}

theorem Counts.congr (counts : Counts keys d) (base : d'.b.base = d.b.base) : Counts keys d' := fun c member no bound => by
  rw [base]
  exact counts c member no bound

/-- A partition writes. -/
theorem Counts.writes {mine : List ℕ} {dev : BlockioDev} (counts : Counts keys d) (listed : entry ∈ d.entries)
    (writes : Writes (u.params entry.c) mine (entry.device d.b) dev) (base : d'.b.base = dev.b.base)
    (apart : KeysApart keys d d') : Counts keys d' := by
  intro c member no bound
  by_cases same : header (u.params c) d'.b.base no = header (u.params c) d.b.base no
  · unfold Counted
    rw [same]
    exact counts c member no bound
  by_cases own : (d.b.infos no).dev = some entry.io.l.dev.self
  · by_cases key : entry.c = c
    · rw [base]
      subst key
      exact writes.counted no bound (counts _ member no bound)
    · intro isOurs
      cases isOurs.symm.trans (apart c member entry listed key no bound own same)
  · refine absurd ?_ same
    rw [base]
    exact header_congr (p := u.params c) (writes.elsewhere no own)

theorem cycleTurns_path (p : Params) (fuel times : ℕ) (l : Partition) :
    Draw.Yields (cycleTurns p fuel times l) (Partition.Path p fuel l) := by
  induction times generalizing l with
  | zero => exact .pure .refl
  | succ times ih =>
    unfold cycleTurns
    exact .bind (Partition.cycle_path fuel l) fun l' path => (ih l').imp fun _ => path.trans

/-- Freeing a partition that was set up. -/
theorem freer_some {c : u.WideCipher} {dev : BlockioDev} {id : Hash}
    (ran : freer d { d := some (c, dev), id := some id } = .ok d') :
    ∃ dev', (if dev.updated then writeCurrentMacroblock (u.params c) dev = .ok dev' else dev' = dev) ∧
      d' = { d with b := freed (u.params c) dev', ids := d.ids.erase id } := by
  unfold freer at ran
  obtain ⟨b, freeing, returned⟩ := Except.bind_eq_ok_iff.mp ran
  obtain ⟨dev', flushed, rfl⟩ := devFree_eq_ok_iff.mp freeing
  cases returned
  exact ⟨dev', flushed, rfl⟩

section Steps

variable (ledger : Ledger d) (counts : Counts keys d)

include ledger

theorem Ledger.flush {dev : BlockioDev} (found : d.find name = some entry)
    (flushed : if (entry.device d.b).updated then writeCurrentMacroblock (u.params entry.c) (entry.device d.b) = .ok dev
      else dev = entry.device d.b) :
    Writes (u.params entry.c) (d.b.unallocated ++ held entry.io.l.dev) (entry.device d.b) dev := by
  have member := (find_eq_some found).1
  have holds := ledger.holds entry member
  split at flushed
  · exact holds.output (ledger.nodup_mine member) (ledger.inside_mine member) flushed
  · rw [flushed]
    exact .refl holds

include counts

/-- A partition is closed. -/
theorem Ledger.release (found : d.find name = some entry)
    (ran : freer { d with entries := d.entries.filter (·.key ≠ name) }
      { d := some (entry.c, (entry.device d.b)), id := some entry.uniqueId } = .ok d')
    (apart : KeysApart keys d d') : Ledger d' ∧ Counts keys d' := by
  obtain ⟨dev, flushed, rfl⟩ := freer_some ran
  have writes := ledger.flush found flushed
  exact ⟨ledger.closed found writes, counts.writes (find_eq_some found).1 writes rfl apart⟩

/-- Steps of a partition. -/
theorem Ledger.path {fuel : ℕ} {l : Partition} (found : d.find name = some entry)
    (path : Partition.Path (u.params entry.c) fuel (entry.io.attach d.b).l l)
    (apart : KeysApart keys d (d.putIo entry { entry.io with l })) :
    Ledger (d.putIo entry { entry.io with l }) ∧ Counts keys (d.putIo entry { entry.io with l }) := by
  have member := (find_eq_some found).1
  have writes := (ledger.holds entry member).path (ledger.nodup_mine member) (ledger.inside_mine member) path
  exact ⟨ledger.update found writes.keeps, counts.writes member writes rfl apart⟩

/-- A partition is opened. -/
theorem Ledger.openTry {spec key : List UInt8} {add : Bool} {tape rest : List ℕ}
    (fresh : ∀ entry ∈ d.entries, entry.io.l.dev.self ≠ env.addr) (new : d.find name = none)
    (ran : (openTry env d name spec key add).run tape = .done (.ok entry) rest) (used : entry.c ∈ keys) :
    Ledger { b := entry.io.l.dev.b, ids := entry.uniqueId :: d.ids, entries := addElement (·.key) entry d.entries } ∧
      Counts keys
        { b := entry.io.l.dev.b, ids := entry.uniqueId :: d.ids, entries := addElement (·.key) entry d.entries } := by
  obtain ⟨named, -, dev, l, missing, mid, found, started, -, -, selected⟩ := openTry_ok ran
  have inventory := (devInit_yields d.b env.addr).value dev found
  have coherent := ledger.coherent entry.c
  obtain ⟨starts, base⟩ := (holds_of_devInit coherent (ledger.fresh fresh) (counts _ used) found).init started
  obtain ⟨writes, base'⟩ : Writes (u.params entry.c) d.b.unallocated dev entry.io.l.dev ∧
      entry.io.l.dev.b.base = dev.b.base := by
    split at selected
    · have writes := starts.holds.select selected
      obtain ⟨-, id, j, infos, -, -, -, same⟩ := selectNext_done selected
      exact ⟨starts.trans writes, by rw [same, ← base]⟩
    · rw [selected]
      exact ⟨starts, base⟩
  have self : entry.io.l.dev.self = env.addr := writes.self.trans inventory.owner
  refine ⟨ledger.opened (by rw [named]; exact new) (fun other listed => self ▸ fresh other listed) writes.holds
    fun c elsewhere => ?_, counts.congr (base'.trans inventory.base)⟩
  have untaken : ¬ (c ∈ ours (u.params entry.c) d.b ∨ c ∈ dev.j.unscheduled) := fun taken =>
    elsewhere ((coherent.mem_iff c).mpr (inventory.free taken))
  rw [writes.owners, inventory.dev_eq, if_neg untaken]

/-- A command. -/
theorem Ledger.acts (fresh : ∀ entry ∈ d.entries, entry.io.l.dev.self ≠ env.addr) (acts : Acts env d name d')
    (used : ∀ entry ∈ d'.entries, entry.c ∈ keys) (apart : KeysApart keys d d') : Ledger d' ∧ Counts keys d' := by
  cases acts with
  | told => exact ⟨ledger, counts⟩
  | set found key c io => exact ⟨ledger.set found key c (congrArg Entry.l io), counts.congr rfl⟩
  | cycled found ran => exact ledger.path counts found ((cycleTurns_path _ _ _ _).of_done ran) apart
  | resized found ran =>
    have member := (find_eq_some found).1
    obtain ⟨keeps, base⟩ := (ledger.holds _ member).resize (ledger.nodup_mine member) ran
    exact ⟨ledger.update found keeps, counts.congr base⟩
  | opened new ran =>
    exact ledger.openTry counts fresh new ran (used _ (mem_addElement.mpr (.inl rfl)))
  | undone ran freed =>
    rcases openTry_error ran with ⟨-, rfl⟩ | ⟨-, c, id, dev, found, rfl⟩
    · cases freed
    · obtain ⟨dev', flushed, rfl⟩ := freer_some freed
      have inventory := (devInit_yields _ _).value _ found
      rw [inventory.idle.2.2, if_neg (by decide)] at flushed
      subst flushed
      exact ⟨ledger.undone fresh found, counts.congr inventory.base⟩
  | closed found _ freed => exact ledger.release counts found freed apart

end Steps

theorem Operates.ledger (operates : Operates keys d) : Ledger d ∧ Counts keys d := by
  induction operates with
  | @start c base empty =>
    refine ⟨⟨.of_eq (append_nil _), fun _ _ => rfl, nofun, nofun, nodup_nil, nodup_nil⟩, fun c member no bound isOurs => ?_⟩
    cases isOurs.symm.trans (empty c member no bound)
  | command _ fresh ran used apart ih => exact ih.1.acts ih.2 fresh (controlCall_does.of_done ran) used apart
  | write _ found ran apart ih => exact ih.1.path ih.2 found ((Partition.reqWrite_path ..).of_done ran) apart
  | inuse _ found ih => exact ⟨ih.1.set found rfl rfl rfl, ih.2.congr rfl⟩
  | release _ found freed apart ih => exact ih.1.release ih.2 found freed apart

/-! ## The books -/

/-- The macroblocks are partitioned, and the numbers that are kept are right. -/
structure Partitioned (d : Daemon u) : Prop where
  inside : ∀ no, no ∈ d.b.unallocated ∨ (∃ entry ∈ d.entries, no ∈ held entry.io.l.dev) → no < u.b.totalMacroblocks
  free_iff : ∀ no < u.b.totalMacroblocks, (d.b.infos no).dev = none ↔ no ∈ d.b.unallocated
  /-- Every macroblock is exactly once in exactly one list; if that is not the unallocated one, it is a list of the
  partition that owns the macroblock. -/
  once : ∀ no < u.b.totalMacroblocks,
    (d.b.unallocated.count no = 1 ∧ ∀ entry ∈ d.entries, no ∉ held entry.io.l.dev) ∨
    no ∉ d.b.unallocated ∧ ∃ entry ∈ d.entries, (d.b.infos no).dev = some entry.io.l.dev.self ∧
      entry.io.l.dev.replay.count no + entry.io.l.dev.j.scheduled.count no + entry.io.l.dev.j.unscheduled.count no = 1 ∧
      ∀ other ∈ d.entries, no ∈ held other.io.l.dev ∨ other.io.l.dev.self = entry.io.l.dev.self → other = entry
  counted : ∀ entry ∈ d.entries, entry.io.l.dev.noMacroblocks = (owned (u.params entry.c) (entry.device d.b)).card ∧
    entry.io.l.dev.noMacroblocks = (marks (u.params entry.c) entry.io.l.dev.status).card
  unclaimed : macroblocksLeft d = d.b.unallocated.length
  apart : ∀ entry ∈ d.entries, ∀ other ∈ d.entries, ∀ no, no ∈ held entry.io.l.dev → no ∈ held other.io.l.dev →
    other = entry

theorem Ledger.eq_of_self (ledger : Ledger d) {other : FuseIoEntry u} (listed : entry ∈ d.entries)
    (listed' : other ∈ d.entries) (same : other.io.l.dev.self = entry.io.l.dev.self) : other = entry :=
  inj_on_of_nodup_map ledger.selves listed' listed same

theorem Ledger.eq_of_held (ledger : Ledger d) {other : FuseIoEntry u} {no : ℕ} (listed : entry ∈ d.entries)
    (listed' : other ∈ d.entries) (mine : no ∈ held entry.io.l.dev) (others : no ∈ held other.io.l.dev) :
    other = entry := by
  have owned := ((ledger.holds entry listed).own no).mp mine
  have owned' := ((ledger.holds other listed').own no).mp others
  exact ledger.eq_of_self listed listed' (Option.some.inj (owned'.symm.trans owned))

/-- Subtracting the numbers of macroblocks never wraps around. -/
theorem macroblocksLeft_eq {entries : List (FuseIoEntry u)} {left : ℕ} (small : left < 2 ^ 32)
    (known : ∀ entry ∈ entries, entry.io.l.dev.noMacroblocks = (held entry.io.l.dev).length)
    (enough : (heldBy entries).length ≤ left) :
    entries.foldl (fun left entry => (left + 2 ^ 32 - entry.io.l.dev.noMacroblocks) % 2 ^ 32) left =
      left - (heldBy entries).length := by
  induction entries generalizing left with
  | nil => rfl
  | cons entry entries ih =>
    have whole : (heldBy (entry :: entries)).length = (held entry.io.l.dev).length + (heldBy entries).length := by
      rw [heldBy, flatMap_cons, length_append]
    have count := known entry mem_cons_self
    have next : (left + 2 ^ 32 - entry.io.l.dev.noMacroblocks) % 2 ^ 32 = left - (held entry.io.l.dev).length := by
      omega
    rw [foldl_cons, next, ih (by omega) (fun other member => known other (mem_cons_of_mem _ member)) (by omega)]
    omega

/-- In every state of the daemon the macroblocks are partitioned. -/
theorem macroblocks_partitioned (operates : Operates keys d) : Partitioned d := by
  obtain ⟨ledger, -⟩ := operates.ledger
  have listed {no : ℕ} {entry : FuseIoEntry u} (member : entry ∈ d.entries) (mine : no ∈ held entry.io.l.dev) :
      no ∈ heldBy d.entries := mem_flatMap.mpr ⟨entry, member, mine⟩
  have disjoint := (nodup_append'.mp ledger.nodup).2.2
  refine ⟨fun no => ?_, fun no bound => ?_, fun no bound => ?_, fun entry member => ?_, ?_, fun entry member other member' no =>
    ledger.eq_of_held member member'⟩
  · rintro (unallocated | ⟨entry, member, mine⟩)
    · exact ledger.inside (mem_append_left _ unallocated)
    · exact ledger.inside (mem_append_right _ (listed member mine))
  · refine ⟨fun free => ?_, ledger.free no⟩
    rcases mem_append.mp (ledger.perm.mem_iff.mpr (mem_range.mpr bound)) with unallocated | taken
    · exact unallocated
    · obtain ⟨entry, member, mine⟩ := mem_flatMap.mp taken
      cases free.symm.trans (((ledger.holds entry member).own no).mp mine)
  · rcases mem_append.mp (ledger.perm.mem_iff.mpr (mem_range.mpr bound)) with unallocated | taken
    · refine .inl ⟨count_eq_one_of_mem (nodup_append.mp ledger.nodup).1 unallocated, fun entry member mine => ?_⟩
      exact disjoint unallocated (listed member mine)
    · obtain ⟨entry, member, mine⟩ := mem_flatMap.mp taken
      have holds := ledger.holds entry member
      have once : (held entry.io.l.dev).count no = 1 := count_eq_one_of_mem (holds.nodup_held (ledger.nodup_mine member)) mine
      refine .inr ⟨fun unallocated => disjoint unallocated taken, entry, member, (holds.own no).mp mine, ?_,
        fun other member' => ?_⟩
      · rw [held, count_append, count_append] at once
        omega
      · rintro (others | same)
        · exact ledger.eq_of_held member member' mine others
        · exact ledger.eq_of_self member member' same
  · have holds := ledger.holds entry member
    have nodup := ledger.nodup_mine member
    have own : owned (u.params entry.c) (entry.device d.b) = (held entry.io.l.dev).toFinset := by
      ext no
      rw [mem_owned, mem_toFinset]
      refine ⟨fun owned => (holds.own no).mpr owned.2, fun mine => ⟨?_, (holds.own no).mp mine⟩⟩
      exact ledger.inside (mem_append_right _ (listed member mine))
    have distinct : (held entry.io.l.dev).Nodup := holds.nodup_held nodup
    refine ⟨?_, (holds.card_marks nodup (ledger.inside_mine member)).symm⟩
    rw [own, toFinset_card_of_nodup distinct]
    exact holds.noMacroblocks
  · have lengths := ledger.perm.length_eq
    rw [length_append, length_range] at lengths
    have small := u.accepted.sound.total_le.trans_lt u.accepted.sound.maxMacroblocks_lt
    rw [macroblocksLeft, macroblocksLeft_eq small (fun entry member => (ledger.holds entry member).noMacroblocks) (by omega)]
    omega

/-- A base device of one macroblock, on which a partition is created and resized. -/
theorem macroblocks_partitioned_resized : ∃ d : Daemon (Setup.smallest 1 (by decide)),
    d.entries.map (·.io.l.dev.j.scheduled) = [[0]] ∧ Partitioned d := by
  let blank (c : (Setup.smallest 1 (by decide)).WideCipher) : Bool :=
    !seemsOurs ((Setup.smallest 1 (by decide)).params c) (header ((Setup.smallest 1 (by decide)).params c) (fun _ => 0) 0)
  obtain ⟨s', d', created, self, base, keys, s'', d'', resized, base', keys', scheduled⟩ :
      ∃ s' d', (controlCall { fuel := 1, addr := 0, times := 0 } { accepts := fun _ => 1 } (Daemon.empty 1 (by decide))
          (ascii "create-internal a NULL() 00")).run [] = .done (0, s', d') [] ∧
        d'.entries.map (·.io.l.dev.self) = [0] ∧ d'.b.base = (fun _ => 0) ∧
        d'.entries.all (fun entry => blank entry.c) = true ∧
        ∃ s'' d'', (controlCall { fuel := 1, addr := 1, times := 0 } { accepts := fun _ => 1 } d'
          (ascii "resize-internal a 1 0")).run [0, 0, 0] = .done (0, s'', d'') [] ∧ d''.b.base = (fun _ => 0) ∧
        d''.entries.all (fun entry => blank entry.c) = true ∧ d''.entries.map (·.io.l.dev.j.scheduled) = [[0]] := by
    refine ⟨_, _, rfl, rfl, rfl, rfl, ?_⟩
    exact ⟨_, _, rfl, rfl, rfl, rfl⟩
  have started : Operates { c | blank c = true } (Daemon.empty 1 (by decide)) := by
    refine .start (c := Cipher.complement _) fun c member no bound => ?_
    have zero : no = 0 := Nat.lt_one_iff.mp bound
    rw [zero]
    exact Bool.not_eq_true' _ ▸ member
  have afterCreate := started.command nofun created (fun entry listed => all_eq_true.mp keys entry listed) (.of_base base)
  have fresh : ∀ entry ∈ d'.entries, entry.io.l.dev.self ≠ 1 := fun entry listed same => by
    have member := mem_map_of_mem (f := (·.io.l.dev.self)) listed
    rw [self, same] at member
    cases mem_singleton.mp member
  have afterResize := afterCreate.command fresh resized (fun entry listed => all_eq_true.mp keys' entry listed)
    (.of_base (base'.trans base.symm))
  exact ⟨d'', scheduled, macroblocks_partitioned afterResize⟩

end Scubed3.Control
