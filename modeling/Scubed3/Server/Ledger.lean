import Scubed3.Device.Ledger
import Scubed3.Server.Effects
import Scubed3.Server.OpenFailed

/-! # Who holds which macroblock

The unallocated list and the lists of the open partitions divide the macroblocks of the base device among
themselves. A command concerns one partition; it moves macroblocks between the lists of that partition and the
unallocated list, and what the others hold stays theirs.

Index blocks are recognised by decrypting them. What one partition writes must not look like an index block to
another: `KeysApart` asks that of the ciphers, for each step.
-/

namespace Scubed3

open List Blockio Memory

variable {u : Setup}

/-- The partition of an entry on the base device `b`, without its mesoblocks. -/
abbrev FuseIoEntry.device (entry : FuseIoEntry u) (b : Blockio) : BlockioDev := (entry.io.attach b).l.dev

namespace Control

/-- The macroblocks in the lists of these partitions. -/
abbrev heldBy (entries : List (FuseIoEntry u)) : List ℕ := entries.flatMap fun entry => held entry.io.l.dev

/-- The macroblocks are divided among the partitions and the unallocated list. -/
structure Ledger (d : Daemon u) : Prop where
  perm : (d.b.unallocated ++ heldBy d.entries).Perm (range u.b.totalMacroblocks)
  free : ∀ c ∈ d.b.unallocated, (d.b.infos c).dev = none
  holds : ∀ entry ∈ d.entries, Holds (u.params entry.c) (d.b.unallocated ++ held entry.io.l.dev) (entry.device d.b)
  owner : ∀ c a, (d.b.infos c).dev = some a → ∃ entry ∈ d.entries, entry.io.l.dev.self = a
  selves : (d.entries.map fun entry => entry.io.l.dev.self).Nodup
  keys : (d.entries.map (·.key)).Nodup

variable {d d' : Daemon u} {env : Env} {name : List UInt8} {entry : FuseIoEntry u}

namespace Ledger

theorem nodup (ledger : Ledger d) : (d.b.unallocated ++ heldBy d.entries).Nodup :=
  ledger.perm.nodup_iff.mpr nodup_range

theorem inside (ledger : Ledger d) {c : ℕ} (member : c ∈ d.b.unallocated ++ heldBy d.entries) :
    c < u.b.totalMacroblocks := mem_range.mp (ledger.perm.mem_iff.mp member)

/-- The macroblocks that a step of one partition is about. -/
theorem sublist (member : entry ∈ d.entries) :
    (d.b.unallocated ++ held entry.io.l.dev).Sublist (d.b.unallocated ++ heldBy d.entries) := by
  obtain ⟨before, after, whole⟩ := append_of_mem member
  rw [whole, heldBy, flatMap_append, flatMap_cons]
  exact .append_left ((sublist_append_left _ _).trans (sublist_append_right _ _)) _

theorem nodup_mine (ledger : Ledger d) (member : entry ∈ d.entries) :
    (d.b.unallocated ++ held entry.io.l.dev).Nodup := (sublist member).nodup ledger.nodup

theorem inside_mine (ledger : Ledger d) (member : entry ∈ d.entries) :
    ∀ c ∈ d.b.unallocated ++ held entry.io.l.dev, c < u.b.totalMacroblocks := fun _ mine =>
  ledger.inside ((sublist member).subset mine)

theorem coherent (ledger : Ledger d) (c : u.WideCipher) : Coherent (u.params c) d.b := by
  refine ⟨(nodup_append.mp ledger.nodup).1, fun no => ⟨fun member => ?_, fun ⟨bound, free⟩ => ?_⟩⟩
  · exact ⟨ledger.inside (mem_append_left _ member), ledger.free no member⟩
  · rcases mem_append.mp (ledger.perm.mem_iff.mpr (mem_range.mpr bound)) with unallocated | taken
    · exact unallocated
    · obtain ⟨entry, member, listed⟩ := mem_flatMap.mp taken
      cases free.symm.trans (((ledger.holds entry member).own no).mp listed)

/-- Some partitions are replaced by others that hold the same, up to the unallocated list. -/
theorem replace (ledger : Ledger d) {olds news others : List (FuseIoEntry u)} (before : d.entries.Perm (olds ++ others))
    (after : d'.entries.Perm (news ++ others))
    (perm : (d'.b.unallocated ++ heldBy news).Perm (d.b.unallocated ++ heldBy olds))
    (free : ∀ c ∈ d'.b.unallocated, (d'.b.infos c).dev = none)
    (holds : ∀ entry ∈ news, Holds (u.params entry.c) (d'.b.unallocated ++ held entry.io.l.dev) (entry.device d'.b))
    (outside : ∀ c ∉ d.b.unallocated ++ heldBy olds, (d'.b.infos c).dev = (d.b.infos c).dev)
    (selves : ((news ++ others).map fun entry => entry.io.l.dev.self).Nodup)
    (keys : ((news ++ others).map (·.key)).Nodup) : Ledger d' := by
  have whole : (d.b.unallocated ++ heldBy olds ++ heldBy others).Perm (range u.b.totalMacroblocks) := by
    refine Perm.trans ?_ ledger.perm
    rw [append_assoc, heldBy, heldBy, ← flatMap_append]
    exact (before.symm.flatMap_right _).append_left _
  have nodup := whole.nodup_iff.mpr nodup_range
  -- who holds one of the macroblocks that moved
  have moved (c : ℕ) (mine : c ∈ d.b.unallocated ++ heldBy olds) :
      (d'.b.infos c).dev = none ∨ ∃ entry ∈ news, (d'.b.infos c).dev = some entry.io.l.dev.self := by
    rcases mem_append.mp (perm.mem_iff.mpr mine) with unallocated | taken
    · exact .inl (free c unallocated)
    · obtain ⟨entry, member, listed⟩ := mem_flatMap.mp taken
      exact .inr ⟨entry, member, ((holds entry member).own c).mp listed⟩
  refine
    { perm := ?_, free := free, holds := fun entry member => ?_, owner := fun c a owned => ?_
      selves := ((after.map _).nodup_iff).mpr selves, keys := ((after.map _).nodup_iff).mpr keys }
  · refine Perm.trans ?_ whole
    refine ((after.flatMap_right _).append_left _).trans ?_
    rw [flatMap_append, ← append_assoc]
    exact perm.append_right _
  · rcases mem_append.mp (after.mem_iff.mp member) with new | other
    · exact holds entry new
    have old := ledger.holds entry (before.mem_iff.mpr (mem_append_right _ other))
    have own (c : ℕ) : c ∈ held entry.io.l.dev ↔ (d'.b.infos c).dev = some entry.io.l.dev.self := by
      by_cases mine : c ∈ d.b.unallocated ++ heldBy olds
      · refine iff_of_false (fun listed => ?_) fun owned => ?_
        · exact (nodup_append'.mp nodup).2.2 mine (mem_flatMap.mpr ⟨entry, other, listed⟩)
        · rcases moved c mine with none | ⟨new, inNews, owned'⟩
          · cases none.symm.trans owned
          · rw [map_append] at selves
            refine (nodup_append'.mp selves).2.2 (mem_map.mpr ⟨new, inNews, ?_⟩) (mem_map.mpr ⟨entry, other, rfl⟩)
            exact Option.some.inj (owned'.symm.trans owned)
      · rw [outside c mine]
        exact old.own c
    exact ⟨⟨.refl _, free, own⟩, old.current, old.noMacroblocks, old.noBits, old.used⟩
  · by_cases mine : c ∈ d.b.unallocated ++ heldBy olds
    · rcases moved c mine with none | ⟨new, inNews, owned'⟩
      · cases none.symm.trans owned
      · exact ⟨new, after.mem_iff.mpr (mem_append_left _ inNews), Option.some.inj (owned'.symm.trans owned)⟩
    · rw [outside c mine] at owned
      obtain ⟨entry, member, self⟩ := ledger.owner c a owned
      rcases mem_append.mp (before.mem_iff.mp member) with old | other
      · refine absurd (mem_append_right _ (mem_flatMap.mpr ⟨entry, old, ?_⟩)) mine
        exact ((ledger.holds entry member).own c).mpr (owned.trans (congrArg some self.symm))
      · exact ⟨entry, after.mem_iff.mpr (mem_append_right _ other), self⟩

/-- A step of one partition. -/
theorem update {io : Entry} (ledger : Ledger d) (found : d.find name = some entry)
    (keeps : Keeps (u.params entry.c) (d.b.unallocated ++ held entry.io.l.dev) (entry.device d.b) io.l.dev) :
    Ledger (d.putIo entry io) := by
  obtain ⟨before, after, whole, key, -, stored⟩ := find_split ledger.keys found
  have old : d.entries.Perm ([entry] ++ (before ++ after)) := by
    rw [whole]
    exact perm_middle
  have new : (d.putIo entry io).entries.Perm ([{ entry with io }] ++ (before ++ after)) :=
    (Perm.of_eq (stored { entry with io } key)).trans perm_middle
  have self : io.l.dev.self = entry.io.l.dev.self := keeps.self
  have mine : heldBy [entry] = held entry.io.l.dev := flatMap_singleton ..
  refine ledger.replace old new ?_ keeps.holds.free (fun other member => ?_) (fun c elsewhere => ?_) ?_ ?_
  · rw [mine, heldBy, flatMap_singleton]
    exact keeps.holds.perm
  · rw [mem_singleton.mp member]
    exact { keeps.holds with perm := .refl _ }
  · exact keeps.outside c (mine ▸ elsewhere)
  · have selves := (old.map fun entry => entry.io.l.dev.self).nodup_iff.mp ledger.selves
    rw [map_append, map_singleton] at selves ⊢
    rw [self]
    exact selves
  · exact (old.map (·.key)).nodup_iff.mp ledger.keys

/-- A property of a partition is set. -/
theorem set {old : FuseIoEntry u} (ledger : Ledger d) (found : d.find name = some old) (key : entry.key = old.key)
    (c : entry.c = old.c) (l : entry.io.l = old.io.l) : Ledger (d.put entry) := by
  obtain ⟨before, after, whole, key', -, stored⟩ := find_split ledger.keys found
  have mine : heldBy [entry] = heldBy [old] := by rw [heldBy, heldBy, flatMap_singleton, flatMap_singleton, l]
  have olds : d.entries.Perm ([old] ++ (before ++ after)) := (Perm.of_eq whole).trans perm_middle
  have news : (d.put entry).entries.Perm ([entry] ++ (before ++ after)) :=
    (Perm.of_eq (stored entry (key.trans key'))).trans perm_middle
  refine ledger.replace olds news (.of_eq (congrArg _ mine)) ledger.free (fun other member => ?_) (fun _ _ => rfl) ?_ ?_
  · have holds := ledger.holds old (find_eq_some found).1
    rw [mem_singleton.mp member, FuseIoEntry.device, Entry.attach, l, c]
    exact holds
  · have selves := (olds.map fun entry => entry.io.l.dev.self).nodup_iff.mp ledger.selves
    rw [map_append, map_singleton] at selves ⊢
    rw [l]
    exact selves
  · have keys := (olds.map (·.key)).nodup_iff.mp ledger.keys
    rw [map_append, map_singleton] at keys ⊢
    rw [key]
    exact keys

theorem fresh (ledger : Ledger d) {addr : ℕ} (new : ∀ entry ∈ d.entries, entry.io.l.dev.self ≠ addr) (c : ℕ) :
    (d.b.infos c).dev ≠ some addr := fun owned => by
  obtain ⟨entry, member, self⟩ := ledger.owner c addr owned
  exact new entry member self

/-- A partition is opened. -/
theorem opened {ids : List Hash} (ledger : Ledger d) (new : d.find entry.key = none)
    (self : ∀ other ∈ d.entries, other.io.l.dev.self ≠ entry.io.l.dev.self)
    (holds : Holds (u.params entry.c) d.b.unallocated entry.io.l.dev)
    (outside : ∀ c ∉ d.b.unallocated, (entry.io.l.dev.b.infos c).dev = (d.b.infos c).dev) :
    Ledger { b := entry.io.l.dev.b, ids, entries := addElement (·.key) entry d.entries } := by
  have news : (addElement (·.key) entry d.entries).Perm ([entry] ++ d.entries) := addElement_perm ..
  have mine : heldBy [entry] = held entry.io.l.dev := flatMap_singleton ..
  have olds : d.b.unallocated ++ heldBy ([] : List (FuseIoEntry u)) = d.b.unallocated := append_nil _
  have same : d.entries.Perm ([] ++ d.entries) := .refl _
  refine ledger.replace same news ?_ holds.free (fun other member => ?_) (fun c elsewhere => ?_) ?_ ?_
  · rw [mine, olds]
    exact holds.perm
  · rw [mem_singleton.mp member]
    exact { holds with perm := .refl _ }
  · exact outside c (olds ▸ elsewhere)
  · refine nodup_cons.mpr ⟨fun member => ?_, ledger.selves⟩
    obtain ⟨other, listed, same⟩ := mem_map.mp member
    exact self other listed same
  · refine nodup_cons.mpr ⟨fun member => ?_, ledger.keys⟩
    obtain ⟨other, listed, same⟩ := mem_map.mp member
    exact absurd same (by simpa using find?_eq_none.mp new other listed)

/-- A partition is closed. -/
theorem closed {dev : BlockioDev} {ids : List Hash} (ledger : Ledger d) (found : d.find name = some entry)
    (writes : Writes (u.params entry.c) (d.b.unallocated ++ held entry.io.l.dev) (entry.device d.b) dev) :
    Ledger { d with b := freed (u.params entry.c) dev, ids, entries := d.entries.filter (·.key ≠ name) } := by
  obtain ⟨before, after, whole, -, others, -⟩ := find_split ledger.keys found
  have member := (find_eq_some found).1
  have olds : d.entries.Perm ([entry] ++ (before ++ after)) := (Perm.of_eq whole).trans perm_middle
  have mine : heldBy [entry] = held entry.io.l.dev := flatMap_singleton ..
  obtain ⟨perm, owners⟩ := writes.holds.toShares.freed (p := u.params entry.c) (ledger.inside_mine member)
  have shared (c : ℕ) : c ∈ d.b.unallocated ++ held entry.io.l.dev ↔ c ∈ dev.b.unallocated ∨ c ∈ held dev :=
    writes.holds.mem_mine
  have news : (d.entries.filter (·.key ≠ name)).Perm ([] ++ (before ++ after)) := .of_eq others
  refine ledger.replace olds news ?_ (fun c listed => ?_) nofun (fun c elsewhere => ?_) ?_ ?_
  · rw [mine]
    exact (Perm.of_eq (append_nil _)).trans perm
  · rw [owners]
    split
    · rfl
    · next unheld =>
      exact writes.holds.free c (((shared c).mp (perm.mem_iff.mp listed)).resolve_right unheld)
  · rw [mine] at elsewhere
    rw [owners, if_neg fun listed => elsewhere ((shared c).mpr (.inr listed))]
    exact writes.owners c
  · exact ((olds.map _).nodup_iff.mp ledger.selves).sublist (.map _ (sublist_append_right _ _))
  · exact ((olds.map _).nodup_iff.mp ledger.keys).sublist (.map _ (sublist_append_right _ _))

/-- An open is undone. -/
theorem undone {c : u.WideCipher} {addr : ℕ} {dev : BlockioDev} {ids : List Hash} (ledger : Ledger d)
    (new : ∀ entry ∈ d.entries, entry.io.l.dev.self ≠ addr) (ran : devInit (u.params c) d.b addr = .ok dev) :
    Ledger { d with b := freed (u.params c) dev, ids } := by
  have inventory := (devInit_yields d.b addr).value dev ran
  have shares := inventory.shares (ledger.coherent c) (ledger.fresh new)
  obtain ⟨perm, owners⟩ := shares.freed (p := u.params c) fun no member => ledger.inside (mem_append_left _ member)
  have restored (no : ℕ) := (freed_inventory inventory (ledger.coherent c) (ledger.fresh new) no).1
  have same : d.entries.Perm ([] ++ d.entries) := .refl _
  refine ledger.replace same same ?_ (fun no listed => ?_) nofun (fun no _ => ?_)
    ledger.selves ledger.keys
  · exact perm.append_right _
  · exact (restored no).trans (ledger.free no (perm.mem_iff.mp listed))
  · exact restored no

end Ledger

end Control

end Scubed3
