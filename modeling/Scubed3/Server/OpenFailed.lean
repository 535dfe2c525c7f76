import Scubed3.Server.Handlers

/-! # A failed open

The destructor of an entry undoes the scan: the macroblocks that it took go back to the unallocated list. But
it expects that the scan was begun. An exception that is thrown before, because the key is malformed, the
cipher is unknown or the combination is in use, leaves `entry->d.b` zero, and `blockio_dev_free` follows it.
-/

namespace Scubed3.Control

open List Blockio

variable {u : Setup} {s s' : Socket} {d d' : Daemon u} {env : Env} {name spec key message : List UInt8} {add : Bool}
  {opening : Opening u}

/-- The unallocated list holds the macroblocks that belong to nobody, each once. -/
structure Sound (d : Daemon u) : Prop where
  nodup : d.b.unallocated.Nodup
  mem_iff : ∀ no, no ∈ d.b.unallocated ↔ no < u.b.totalMacroblocks ∧ (d.b.infos no).dev = none

theorem Sound.coherent (sound : Sound d) (c : u.WideCipher) : Coherent (u.params c) d.b :=
  ⟨sound.nodup, sound.mem_iff⟩

/-- Nobody can see that the open was tried. -/
structure Restored (d d' : Daemon u) : Prop where
  entries : d'.entries = d.entries
  ids : d'.ids = d.ids
  owners : ∀ no, (d'.b.infos no).dev = (d.b.infos no).dev
  unallocated : ∀ no, no ∈ d'.b.unallocated ↔ no ∈ d.b.unallocated

/-- The key is well-formed, the cipher accepts it, and nobody uses the combination. -/
def Keyed (d : Daemon u) (spec key : List UInt8) : Prop :=
  key.length % 2 = 0 ∧ ∃ bytes c, unbase16 key = some bytes ∧ u.cipherInit spec bytes = .ok c ∧
    u.gcrypt.sha256 (List.ofFn (c.enc (0, 0, 0) fun _ => 0)) ∉ d.ids

theorem openCipher_ok_iff : (∃ c id, openCipher u d.ids spec key = .ok (c, id)) ↔ Keyed d spec key := by
  unfold openCipher Keyed
  by_cases odd : key.length % 2 ≠ 0
  · rw [if_pos odd]
    exact iff_of_false (fun ⟨_, _, thrown⟩ => by cases thrown) fun keyed => odd keyed.1
  rw [if_neg odd]
  cases parsed : unbase16 key with
  | none => exact iff_of_false (fun ⟨_, _, thrown⟩ => by cases thrown) fun ⟨_, _, _, same, _⟩ => by cases same
  | some bytes =>
    simp only [Except.bind_eq_ok_iff, Option.some.injEq]
    constructor
    · rintro ⟨c, id, c', init, stored⟩
      split at stored
      · cases stored
      · next unused => exact ⟨not_not.mp odd, bytes, c', rfl, init, unused⟩
    · rintro ⟨-, _, c, rfl, init, unused⟩
      exact ⟨c, _, c, init, if_neg unused⟩

/-- An exception after the scan leaves what the scan found. -/
theorem openScan_error {p : Params} {fuel addr : ℕ} {b : Blockio} {dev : BlockioDev} {tape rest : List ℕ}
    (ran : (openScan p fuel b addr add).run tape = .done (.error (message, dev)) rest) : devInit p b addr = .ok dev := by
  unfold openScan at ran
  obtain ⟨dev', mid, scanned, body⟩ := Draw.bind_done_iff.mp ran
  obtain ⟨found, rfl⟩ := Draw.lift_done_iff.mp scanned
  split at body
  · cases body
    exact found
  split at body
  · cases body
    exact found
  · obtain ⟨_, _, _, checking⟩ := Draw.bind_done_iff.mp body
    obtain ⟨_, _, _, selecting⟩ := Draw.bind_done_iff.mp checking
    obtain ⟨_, _, _, returned⟩ := Draw.bind_done_iff.mp selecting
    cases returned

/-- What an exception leaves in the entry: nothing, or what the scan found. -/
theorem openTry_error {tape rest : List ℕ}
    (ran : (openTry env d name spec key add).run tape = .done (.error (message, opening)) rest) :
    (¬ Keyed d spec key ∧ opening = {}) ∨ Keyed d spec key ∧ ∃ c id dev,
      devInit (u.params c) d.b env.addr = .ok dev ∧ opening = { d := some (c, dev), id := some id } := by
  unfold openTry at ran
  rw [← openCipher_ok_iff]
  cases initialised : openCipher u d.ids spec key with
  | error text =>
    rw [initialised] at ran
    cases ran
    exact .inl ⟨nofun, rfl⟩
  | ok r =>
    obtain ⟨c, id⟩ := r
    rw [initialised] at ran
    obtain ⟨scan, mid, scanned, returned⟩ := Draw.bind_done_iff.mp ran
    cases scan with
    | ok io => cases returned
    | error failed =>
      obtain ⟨text, dev⟩ := failed
      cases returned
      exact .inr ⟨⟨c, id, rfl⟩, c, id, dev, openScan_error scanned, rfl⟩

section Undo

variable {p : Params} {b : Blockio} {addr : ℕ} {dev : BlockioDev}

theorem mem_owned_inventory (inventory : Inventory p b addr dev) (fresh : ∀ c, (b.infos c).dev ≠ some addr) (c : ℕ) :
    c ∈ owned p dev ↔ c ∈ ours p b ∨ c ∈ dev.j.unscheduled := by
  rw [mem_owned, inventory.dev_eq, inventory.owner]
  by_cases taken : c ∈ ours p b ∨ c ∈ dev.j.unscheduled
  · rw [if_pos taken]
    exact iff_of_true ⟨(inventory.free taken).1, rfl⟩ taken
  · rw [if_neg taken]
    exact iff_of_false (fun own => fresh c own.2) taken

/-- `blockio_dev_free` gives back what the scan took. -/
theorem freed_inventory (inventory : Inventory p b addr dev) (coherent : Coherent p b)
    (fresh : ∀ c, (b.infos c).dev ≠ some addr) (c : ℕ) :
    ((freed p dev).infos c).dev = (b.infos c).dev ∧ (c ∈ (freed p dev).unallocated ↔ c ∈ b.unallocated) := by
  have listed : c ∈ (freed p dev).unallocated ↔
      (c < p.b.totalMacroblocks ∧ (dev.b.infos c).dev = none) ∨ c ∈ dev.j.unscheduled ∨ c ∈ ours p b := by
    rw [freed, inventory.unscheduled_only.1, append_nil, mem_append, mem_append, mem_reverse, inventory.mem_replay,
      (inventory.coherent coherent).mem_iff, or_assoc]
  rw [freed_dev, listed, coherent.mem_iff, inventory.dev_eq]
  by_cases taken : c ∈ ours p b ∨ c ∈ dev.j.unscheduled
  · obtain ⟨inside, free⟩ := inventory.free taken
    rw [if_pos ((mem_owned_inventory inventory fresh c).mpr taken), if_pos taken]
    exact ⟨free.symm, iff_of_true (.inr taken.symm) ⟨inside, free⟩⟩
  · rw [if_neg (mt (mem_owned_inventory inventory fresh c).mp taken), if_neg taken]
    exact ⟨rfl, or_iff_left fun other => taken other.symm⟩

end Undo

/-- An open that fails after its entry was added is undone if and only if the exception was thrown after the
cipher was set up. -/
theorem failed_open_restores_iff {tape rest : List ℕ} (sound : Sound d) (fresh : ∀ no, (d.b.infos no).dev ≠ some env.addr)
    (legal : checkName name = false) (new : d.find name = none)
    (failed : (openTry env d name spec key add).run tape = .done (.error (message, opening)) rest) :
    (∃ ret s' d' rest', (controlOpenCreateCommon env s d name spec key add).run tape = .done (ret, s', d') rest' ∧
      Restored d d') ↔ Keyed d spec key := by
  have caught : (controlOpenCreateCommon env s d name spec key add).run tape =
      (openCatch s d message opening).run rest := by
    unfold controlOpenCreateCommon
    rw [if_neg (by simp [legal]), if_neg (by simp [new]), Draw.run_bind, failed]
  rw [caught]
  rcases openTry_error failed with ⟨unkeyed, rfl⟩ | ⟨keyed, c, id, dev, found, rfl⟩
  · refine iff_of_false ?_ unkeyed
    rintro ⟨ret, s', d', rest', returned, -⟩
    cases returned
  · refine iff_of_true ?_ keyed
    have inventory := (devInit_yields d.b env.addr).value dev found
    have free : devFree (u.params c) dev = .ok (freed (u.params c) dev) := by
      refine devFree_eq_ok_iff.mpr ⟨dev, ?_, rfl⟩
      rw [inventory.idle.2.2, if_neg (by decide)]
    refine ⟨(controlWriteComplete s true message).1, (controlWriteComplete s true message).2,
      { d with b := freed (u.params c) dev }, rest, ?_, rfl, rfl, fun no => ?_, fun no => ?_⟩
    · have ids : ((some id).toList ++ d.ids).erase id = d.ids := erase_cons_head id d.ids
      unfold openCatch freer
      simp only [free, ids]
      rfl
    · exact (freed_inventory inventory (sound.coherent c) fresh no).1
    · exact (freed_inventory inventory (sound.coherent c) fresh no).2

theorem sound_empty (total : ℕ) (few : total ≤ 1984) : Sound (Daemon.empty total few) where
  nodup := nodup_range
  mem_iff no := by simp [Daemon.empty, initInfos, Params.smallest, Setup.smallest]

/-- No block is found. -/
theorem failed_open_restores_iff_empty :
    (∃ ret s' d' rest', (controlOpenCreateCommon { fuel := 0, addr := 0, times := 0 } { accepts := fun _ => 1 }
        (Daemon.empty 0 (by decide)) (ascii "a") (ascii "NULL()") (ascii "00") false).run [] =
        .done (ret, s', d') rest' ∧ Restored (Daemon.empty 0 (by decide)) d') ↔
      Keyed (Daemon.empty 0 (by decide)) (ascii "NULL()") (ascii "00") := by
  have failed : ∃ opening, (openTry { fuel := 0, addr := 0, times := 0 } (Daemon.empty 0 (by decide)) (ascii "a")
      (ascii "NULL()") (ascii "00") false).run [] =
      .done (.error (ascii "no blocks found: passphrase wrong?", opening)) [] := ⟨_, rfl⟩
  obtain ⟨opening, failed⟩ := failed
  exact failed_open_restores_iff (sound_empty 0 (by decide)) (fun no => by simp [Daemon.empty, initInfos])
    (by decide) rfl failed

/-- The key has an odd number of digits. -/
theorem failed_open_crashes : checkName (ascii "a") = false ∧ (Daemon.empty 1 (by decide)).find (ascii "a") = none ∧
    (openTry { fuel := 0, addr := 0, times := 0 } (Daemon.empty 1 (by decide)) (ascii "a") (ascii "NULL()")
        (ascii "abc") false).run [] =
      .done (.error (ascii "cipher key not valid base16 (uneven number of chars)", {})) [] ∧
    (controlCall { fuel := 0, addr := 0, times := 0 } { accepts := fun _ => 1 } (Daemon.empty 1 (by decide))
        (ascii "open-internal a NULL() abc")).run [] = .failed (.null "dev->b") :=
  ⟨by decide, rfl, rfl, rfl⟩

end Scubed3.Control
