import Scubed3.Model.FuseIo
import Mathlib.Data.List.Nodup

/-! # Entries are deleted once

Who deletes an entry lets go of it in between. Meanwhile it is still linked, but marked, so that it is not opened
any more. `fuse_io_release` marks an entry that it was the last to use, and `control_close` does not ask whether
it finds an entry that is marked. Apart from that, nobody else comes to delete it.
-/

namespace Scubed3.FuseIo

open SharedTable

variable {σ : Type} {s s' : System σ} {addr : ℕ} {entry entry' : SharedEntry σ}

/-- No address is freed twice. -/
structure Sane (t : SharedTable σ) : Prop where
  nodup : t.freed.Nodup
  freed_lt : ∀ addr ∈ t.freed, addr < t.next
  linked : ∀ addr, t.linked = some addr → addr < t.next ∧ addr ∉ t.freed

/-- There is no entry, and nobody has to do with one. -/
structure Vacant (s : System σ) : Prop where
  linked : s.table.linked = none
  files : s.files = []
  memory : ∀ a, s.table.memory a = none
  releasing : s.releasing = []
  control : s.control = .idle

/-- There is one entry. At most one file is open, and at most one thread is going to delete the entry. -/
structure Occupied (s : System σ) (addr : ℕ) (entry : SharedEntry σ) : Prop where
  linked : s.table.linked = some addr
  memory : ∀ a, s.table.memory a = if a = addr then some entry else none
  inuse : entry.inuse = s.files.length
  once : s.files.length ≤ 1
  writers : true ∈ s.files → entry.readonly = false
  marked : entry.toBeDeleted = true → s.files = []
  deleter : entry.toBeDeleted = true → s.releasing = [addr] ∨ s.control ≠ .idle
  releasing : s.releasing = [] ∨ s.releasing = [addr] ∧ entry.toBeDeleted = true ∧ s.control = .idle
  control : s.control = .idle ∨ (s.control = .opened addr ∧ entry.closeOnRelease = false) ∨
    (s.control = .closing addr ∧ entry.toBeDeleted = true)

/-- What holds between two steps. -/
def Tidy (s : System σ) : Prop := Sane s.table ∧ (Vacant s ∨ ∃ addr entry, Occupied s addr entry)

/-- `control_close` does not find an idle entry that is marked. -/
def Unmarked (s : System σ) : Action σ → Prop
  | .controlClose => ∀ addr entry, s.table.linked = some addr → s.table.memory addr = some entry → entry.inuse = 0 →
      entry.toBeDeleted = false
  | _ => True

/-! ## The table -/

theorem Vacant.find (vacant : Vacant s) : s.table.findElementBykey = .ok none := by
  rw [findElementBykey, vacant.linked]
  rfl

namespace Occupied

theorem memory_self (occupied : Occupied s addr entry) : s.table.memory addr = some entry := by
  rw [occupied.memory, if_pos rfl]

theorem deref (occupied : Occupied s addr entry) : s.table.deref addr = .ok entry := by
  rw [SharedTable.deref, occupied.memory_self]

theorem find (occupied : Occupied s addr entry) : s.table.findElementBykey = .ok (some (addr, entry)) := by
  rw [findElementBykey, occupied.linked]
  simp only [occupied.deref]
  rfl

theorem memory_store (occupied : Occupied s addr entry) (entry' : SharedEntry σ) (a : ℕ) :
    (s.table.store addr entry').memory a = if a = addr then some entry' else none := by
  change Function.update s.table.memory addr (some entry') a = _
  by_cases same : a = addr
  · rw [same, Function.update_self, if_pos rfl]
  · rw [Function.update_of_ne same, occupied.memory, if_neg same, if_neg same]

/-- A property of the entry changes that no thread relies on. -/
theorem store (occupied : Occupied s addr entry) (entry' : SharedEntry σ) (inuse : entry'.inuse = entry.inuse)
    (writers : true ∈ s.files → entry'.readonly = false) (toBeDeleted : entry'.toBeDeleted = entry.toBeDeleted)
    (closeOnRelease : s.control ≠ .idle → entry'.closeOnRelease = entry.closeOnRelease) :
    Occupied { s with table := s.table.store addr entry' } addr entry' where
  linked := occupied.linked
  memory := occupied.memory_store entry'
  inuse := inuse.trans occupied.inuse
  once := occupied.once
  writers := writers
  marked := by rw [toBeDeleted]; exact occupied.marked
  deleter := by rw [toBeDeleted]; exact occupied.deleter
  releasing := by rw [toBeDeleted]; exact occupied.releasing
  control := by
    rcases occupied.control with idle | ⟨opened, unset⟩ | closing
    · exact .inl idle
    · exact .inr (.inl ⟨opened, (closeOnRelease (by rw [opened]; nofun)).trans unset⟩)
    · rw [toBeDeleted]
      exact .inr (.inr closing)

/-- The entry is deleted, and freed. -/
theorem delete (occupied : Occupied s addr entry) (sane : Sane s.table) :
    ∃ table, s.table.deleteElementByptr addr = .ok table ∧ table.linked = none ∧ (∀ a, table.memory a = none) ∧
      Sane table := by
  obtain ⟨small, new⟩ := sane.linked addr occupied.linked
  refine ⟨{ s.table with
    memory := Function.update s.table.memory addr none
    linked := none
    freed := addr :: s.table.freed }, ?_, rfl, fun a => ?_, List.nodup_cons.mpr ⟨new, sane.nodup⟩, fun a member => ?_, nofun⟩
  · rw [deleteElementByptr, occupied.deref]
    exact if_pos occupied.linked
  · change Function.update s.table.memory addr none a = none
    by_cases same : a = addr
    · rw [same, Function.update_self]
    · rw [Function.update_of_ne same, occupied.memory, if_neg same]
  · rcases List.mem_cons.mp member with rfl | old
    · exact small
    · exact sane.freed_lt a old

end Occupied

theorem Sane.store (sane : Sane s.table) (addr : ℕ) (entry : SharedEntry σ) : Sane (s.table.store addr entry) :=
  ⟨sane.nodup, sane.freed_lt, sane.linked⟩

/-! ## The file system -/

theorem Vacant.returns {action : Action σ} (vacant : Vacant s) (sane : Sane s.table) (same : step s action = .ok s) :
    (step s action).Returns Tidy := .of_ok same ⟨sane, .inl vacant⟩

theorem Occupied.tidy (occupied : Occupied s addr entry) (sane : Sane s.table) : Tidy s :=
  ⟨sane, .inr ⟨addr, entry, occupied⟩⟩

theorem fuseOpen_returns (tidy : Tidy s) (write : Bool) : (step s (.fuseOpen write)).Returns Tidy := by
  obtain ⟨sane, vacant | ⟨addr, entry, occupied⟩⟩ := tidy
  · refine vacant.returns sane ?_
    rw [step, fuseIoOpen, vacant.find]
    rfl
  have ran : step s (.fuseOpen write) = (if entry.inuse ≠ 0 ∨ entry.toBeDeleted then pure (ebusy, s.table)
      else if entry.readonly ∧ write then pure (eacces, s.table)
      else pure (0, s.table.store addr { entry with inuse := entry.inuse + 1 })) >>= fun r =>
        pure { s with table := r.2, files := if r.1 = 0 then write :: s.files else s.files } := by
    rw [step, fuseIoOpen, occupied.find]
    rfl
  rw [ran]
  split
  · exact .pure (occupied.tidy sane)
  split
  · exact .pure (occupied.tidy sane)
  · next unused permitted =>
    obtain ⟨idle, unmarked⟩ := not_or.mp unused
    have none : s.files = [] := List.eq_nil_of_length_eq_zero (by rw [← occupied.inuse]; omega)
    refine .pure ⟨sane.store addr _, .inr ⟨addr, { entry with inuse := entry.inuse + 1 }, ?_⟩⟩
    refine
      { linked := occupied.linked, memory := occupied.memory_store _, releasing := occupied.releasing
        control := occupied.control, inuse := ?_, once := ?_, writers := fun writing => ?_
        marked := fun marked => absurd marked unmarked, deleter := fun marked => absurd marked unmarked }
    · change entry.inuse + 1 = (write :: s.files).length
      rw [occupied.inuse, List.length_cons]
    · change (write :: s.files).length ≤ 1
      rw [none]
      exact Nat.le_refl 1
    · change true ∈ write :: s.files at writing
      rw [none, List.mem_singleton] at writing
      rw [← writing] at permitted
      simpa using permitted

theorem fuseRelease_returns (tidy : Tidy s) {file : Bool} (listed : file ∈ s.files) :
    (step s (.fuseRelease file)).Returns Tidy := by
  obtain ⟨sane, vacant | ⟨addr, entry, occupied⟩⟩ := tidy
  · rw [vacant.files] at listed
    cases listed
  have only : s.files = [file] := by
    have once := occupied.once
    obtain ⟨before, after, whole⟩ := List.append_of_mem listed
    rw [whole, List.length_append, List.length_cons] at once
    rw [whole, List.eq_nil_of_length_eq_zero (by omega : before.length = 0),
      List.eq_nil_of_length_eq_zero (by omega : after.length = 0)]
    rfl
  have inuse : entry.inuse = 1 := by rw [occupied.inuse, only]; rfl
  have unmarked : entry.toBeDeleted = false := by
    by_contra marked
    have empty := occupied.marked (by simpa using marked)
    rw [only] at empty
    cases empty
  have idle : s.releasing = [] := occupied.releasing.resolve_right fun ⟨_, marked, _⟩ => by
    rw [unmarked] at marked
    cases marked
  have ran : step s (.fuseRelease file) = (if entry.closeOnRelease then
        pure (0, some addr, s.table.store addr
          { entry with inuse := entry.inuse - 1, mountpoint := none, toBeDeleted := true })
      else pure (0, none, s.table.store addr { entry with inuse := entry.inuse - 1, mountpoint := none })) >>=
        fun (r : ℤ × Option ℕ × SharedTable σ) =>
          pure { s with table := r.2.2, files := [], releasing := r.2.1.toList ++ [] } := by
    have closed : s.files.erase file = [] := by rw [only, List.erase_cons_head]
    rw [step, fuseIoRelease, occupied.find, closed, idle]
    change (check (entry.inuse ≠ 0) "entry->inuse" >>= _) >>= _ = _
    rw [check_of _ _ (by rw [inuse]; decide)]
    rfl
  rw [ran]
  by_cases delete : entry.closeOnRelease = true
  · -- the control thread is idle: it opened the entry with the flag unset, and it is not closing it
    have control : s.control = .idle := by
      rcases occupied.control with idle | ⟨-, unset⟩ | ⟨-, marked⟩
      · exact idle
      · rw [delete] at unset
        cases unset
      · rw [unmarked] at marked
        cases marked
    rw [if_pos delete]
    refine .pure ⟨sane.store addr _, .inr ⟨addr, _, occupied.linked, occupied.memory_store _, ?_, Nat.zero_le 1, nofun,
      fun _ => rfl, fun _ => .inl rfl, .inr ⟨rfl, rfl, control⟩, .inl control⟩⟩
    change entry.inuse - 1 = 0
    rw [inuse]
  · rw [if_neg delete]
    refine .pure ⟨sane.store addr _, .inr ⟨addr, _, occupied.linked, occupied.memory_store _, ?_, Nat.zero_le 1, nofun,
      fun _ => rfl, fun marked => absurd marked (by simp [unmarked]), .inl rfl, occupied.control⟩⟩
    change entry.inuse - 1 = 0
    rw [inuse]

theorem fuseRead_returns (tidy : Tidy s) (request : σ → σ) (size : ℕ) : (step s (.fuseRead request size)).Returns Tidy := by
  obtain ⟨sane, vacant | ⟨addr, entry, occupied⟩⟩ := tidy
  · refine vacant.returns sane ?_
    rw [step, fuseIoRead, vacant.find]
    rfl
  · rw [step, fuseIoRead, occupied.find]
    have read := occupied.store { entry with content := request entry.content } rfl occupied.writers rfl fun _ => rfl
    exact .of_ok rfl (read.tidy (sane.store _ _))

/-- A file that was opened for writing is not readonly. -/
theorem fuseWrite_returns (tidy : Tidy s) (writing : true ∈ s.files) (request : σ → σ) (size : ℕ) :
    (step s (.fuseWrite request size)).Returns Tidy := by
  obtain ⟨sane, vacant | ⟨addr, entry, occupied⟩⟩ := tidy
  · rw [vacant.files] at writing
    cases writing
  · rw [step, fuseIoWrite, occupied.find]
    change ((check (entry.readonly = false) "!entry->readonly" >>= _) >>= _).Returns Tidy
    rw [check_of _ _ (occupied.writers writing)]
    have written := occupied.store { entry with content := request entry.content } rfl occupied.writers rfl fun _ => rfl
    exact .of_ok rfl (written.tidy (sane.store _ _))

theorem fuseReleaseDelete_returns (tidy : Tidy s) {a : ℕ} (listed : a ∈ s.releasing) :
    (step s (.fuseReleaseDelete a)).Returns Tidy := by
  obtain ⟨sane, vacant | ⟨addr, entry, occupied⟩⟩ := tidy
  · rw [vacant.releasing] at listed
    cases listed
  rcases occupied.releasing with none | ⟨one, marked, idle⟩
  · rw [none] at listed
    cases listed
  · rw [one, List.mem_singleton] at listed
    subst listed
    obtain ⟨table, deleted, linked, memory, sane⟩ := occupied.delete sane
    rw [step, deleted, one, List.erase_cons_head]
    exact .pure ⟨sane, .inl ⟨linked, occupied.marked marked, memory, rfl, idle⟩⟩

/-! ## Commands -/

theorem controlOpen_returns (tidy : Tidy s) (idle : s.control = .idle) (content : σ) (thrown : Bool) :
    (step s (.controlOpen content thrown)).Returns Tidy := by
  obtain ⟨sane, vacant | ⟨addr, entry, occupied⟩⟩ := tidy
  · rw [step, controlOpenCreateCommon, allocateAndAddElement, vacant.linked]
    refine .pure ⟨⟨sane.nodup, fun a member => Nat.lt_succ_of_lt (sane.freed_lt a member), ?_⟩, .inr ⟨s.table.next,
      { content, toBeDeleted := thrown }, rfl, fun a => ?_, ?_, ?_, ?_, fun _ => vacant.files, fun _ => .inr nofun,
      .inl vacant.releasing, .inr (.inl ⟨rfl, rfl⟩)⟩⟩
    · rintro a ⟨⟩
      exact ⟨Nat.lt_succ_self _, fun member => Nat.lt_irrefl _ (sane.freed_lt _ member)⟩
    · change Function.update s.table.memory s.table.next _ a = _
      by_cases same : a = s.table.next
      · rw [same, Function.update_self, if_pos rfl]
      · rw [Function.update_of_ne same, vacant.memory, if_neg same]
    · change 0 = s.files.length
      rw [vacant.files]
      rfl
    · change s.files.length ≤ 1
      rw [vacant.files]
      exact Nat.zero_le 1
    · change true ∈ s.files → _
      rw [vacant.files]
      nofun
  · rw [step, controlOpenCreateCommon, allocateAndAddElement, occupied.linked]
    refine .of_ok (a := s) ?_ (occupied.tidy sane)
    rw [← idle]
    rfl

theorem controlOpened_returns (tidy : Tidy s) {a : ℕ} (opened : s.control = .opened a) :
    (step s (.controlOpened a)).Returns Tidy := by
  obtain ⟨sane, vacant | ⟨addr, entry, occupied⟩⟩ := tidy
  · cases vacant.control.symm.trans opened
  have releasing : s.releasing = [] := occupied.releasing.resolve_right fun ⟨_, _, idle⟩ => by
    cases idle.symm.trans opened
  have same : a = addr := by
    rcases occupied.control with idle | ⟨opened', -⟩ | ⟨closing, -⟩
    · cases idle.symm.trans opened
    · cases opened'.symm.trans opened
      rfl
    · cases closing.symm.trans opened
  subst same
  rw [step, controlOpened, occupied.deref]
  change ((if entry.toBeDeleted = true then s.table.deleteElementByptr a else pure s.table) >>= _).Returns Tidy
  split
  · next marked =>
    obtain ⟨table, deleted, linked, memory, sane⟩ := occupied.delete sane
    rw [deleted]
    exact .pure ⟨sane, .inl ⟨linked, occupied.marked marked, memory, releasing, rfl⟩⟩
  · next unmarked =>
    exact .pure ⟨sane, .inr ⟨a, entry, { occupied with
      deleter := fun marked => absurd marked unmarked
      releasing := .inl releasing
      control := .inl rfl }⟩⟩

theorem controlClose_returns (tidy : Tidy s) (idle : s.control = .idle) (unmarked : Unmarked s .controlClose) :
    (step s .controlClose).Returns Tidy := by
  obtain ⟨sane, vacant | ⟨addr, entry, occupied⟩⟩ := tidy
  · refine vacant.returns sane ?_
    rw [step, controlClose, vacant.find, ← idle]
    rfl
  rw [step, controlClose, occupied.find]
  change Except.Returns ((if entry.inuse ≠ 0 then pure (none, s.table)
    else pure (some addr, s.table.store addr { entry with toBeDeleted := true }) : Except Failure _) >>= _) Tidy
  split
  · refine .of_ok (a := s) ?_ (occupied.tidy sane)
    rw [← idle]
    rfl
  · next unused =>
    have inuse : entry.inuse = 0 := not_not.mp unused
    have none : s.files = [] := List.eq_nil_of_length_eq_zero (occupied.inuse.symm.trans inuse)
    have fresh := unmarked addr entry occupied.linked occupied.memory_self inuse
    have releasing : s.releasing = [] := occupied.releasing.resolve_right fun ⟨_, marked, _⟩ => by
      cases fresh.symm.trans marked
    exact .pure ⟨sane.store addr _, .inr ⟨addr, _, occupied.linked, occupied.memory_store _, occupied.inuse, occupied.once,
      occupied.writers, fun _ => none, fun _ => .inr nofun, .inl releasing, .inr (.inr ⟨rfl, rfl⟩)⟩⟩

theorem controlCloseDelete_returns (tidy : Tidy s) {a : ℕ} (closing : s.control = .closing a) :
    (step s (.controlCloseDelete a)).Returns Tidy := by
  obtain ⟨sane, vacant | ⟨addr, entry, occupied⟩⟩ := tidy
  · cases vacant.control.symm.trans closing
  have releasing : s.releasing = [] := occupied.releasing.resolve_right fun ⟨_, _, idle⟩ => by
    cases idle.symm.trans closing
  rcases occupied.control with idle | ⟨opened, -⟩ | ⟨closing', marked⟩
  · cases idle.symm.trans closing
  · cases opened.symm.trans closing
  · cases closing'.symm.trans closing
    obtain ⟨table, deleted, linked, memory, sane⟩ := occupied.delete sane
    rw [step, deleted]
    exact .pure ⟨sane, .inl ⟨linked, occupied.marked marked, memory, releasing, rfl⟩⟩

theorem controlSetReadonly_returns (tidy : Tidy s) (value : Option Bool) :
    (step s (.controlSetReadonly value)).Returns Tidy := by
  obtain ⟨sane, vacant | ⟨addr, entry, occupied⟩⟩ := tidy
  · refine vacant.returns sane ?_
    rw [step, controlSetReadonly, vacant.find]
    rfl
  rw [step, controlSetReadonly, occupied.find]
  by_cases used : entry.inuse ≠ 0
  · refine .of_ok (a := s) ?_ (occupied.tidy sane)
    change (if entry.inuse ≠ 0 then _ else _) >>= _ = _
    rw [if_pos used]
    rfl
  change Except.Returns ((if entry.inuse ≠ 0 then _ else _ : Except Failure _) >>= _) Tidy
  rw [if_neg used]
  cases value with
  | none => exact .of_ok (a := s) rfl (occupied.tidy sane)
  | some readonly =>
    have none : s.files = [] := List.eq_nil_of_length_eq_zero (occupied.inuse.symm.trans (not_not.mp used))
    have set := occupied.store { entry with readonly } rfl (by rw [none]; nofun) rfl fun _ => rfl
    exact .of_ok rfl (set.tidy (sane.store _ _))

theorem controlSetCloseOnRelease_returns (tidy : Tidy s) (idle : s.control = .idle) (value : Option Bool) :
    (step s (.controlSetCloseOnRelease value)).Returns Tidy := by
  obtain ⟨sane, vacant | ⟨addr, entry, occupied⟩⟩ := tidy
  · refine vacant.returns sane ?_
    rw [step, controlSetCloseOnRelease, vacant.find]
    rfl
  rw [step, controlSetCloseOnRelease, occupied.find]
  cases value with
  | none => exact .of_ok (a := s) rfl (occupied.tidy sane)
  | some closeOnRelease =>
    have set := occupied.store { entry with closeOnRelease } rfl occupied.writers rfl fun busy => absurd idle busy
    exact .of_ok rfl (set.tidy (sane.store _ _))

theorem controlSetAux_returns (tidy : Tidy s) (mountpoint : List UInt8) :
    (step s (.controlSetAux mountpoint)).Returns Tidy := by
  obtain ⟨sane, vacant | ⟨addr, entry, occupied⟩⟩ := tidy
  · refine vacant.returns sane ?_
    rw [step, controlSetAux, vacant.find]
    rfl
  · rw [step, controlSetAux, occupied.find]
    have set := occupied.store { entry with mountpoint := some mountpoint } rfl occupied.writers rfl fun _ => rfl
    exact .of_ok rfl (set.tidy (sane.store _ _))

theorem controlResize_returns (tidy : Tidy s) (resize : σ → σ) : (step s (.controlResize resize)).Returns Tidy := by
  obtain ⟨sane, vacant | ⟨addr, entry, occupied⟩⟩ := tidy
  · refine vacant.returns sane ?_
    rw [step, controlResize, vacant.find]
    rfl
  rw [step, controlResize, occupied.find]
  change Except.Returns ((if entry.inuse ≠ 0 then pure s.table
    else pure (s.table.store addr { entry with content := resize entry.content }) : Except Failure _) >>= _) Tidy
  split
  · exact .pure (occupied.tidy sane)
  · have resized := occupied.store { entry with content := resize entry.content } rfl occupied.writers rfl fun _ => rfl
    exact .pure (resized.tidy (sane.store _ _))

/-! ## All interleavings -/

theorem tidy_preserved (σ : Type) : (threads σ).Preserves Unmarked Tidy where
  start := ⟨⟨List.nodup_nil, nofun, nofun⟩, .inl ⟨rfl, rfl, fun _ => rfl, rfl, rfl⟩⟩
  step s action tidy enabled unmarked := by
    cases action with
    | fuseOpen write => exact fuseOpen_returns tidy write
    | fuseRead request size => exact fuseRead_returns tidy request size
    | fuseWrite request size => exact fuseWrite_returns tidy enabled request size
    | fuseRelease file => exact fuseRelease_returns tidy enabled
    | fuseReleaseDelete addr => exact fuseReleaseDelete_returns tidy enabled
    | controlOpen content thrown => exact controlOpen_returns tidy enabled content thrown
    | controlOpened addr => exact controlOpened_returns tidy enabled
    | controlClose => exact controlClose_returns tidy enabled unmarked
    | controlCloseDelete addr => exact controlCloseDelete_returns tidy enabled
    | controlSetReadonly value => exact controlSetReadonly_returns tidy value
    | controlSetCloseOnRelease value => exact controlSetCloseOnRelease_returns tidy enabled value
    | controlSetAux mountpoint => exact controlSetAux_returns tidy mountpoint
    | controlResize resize => exact controlResize_returns tidy resize

/-- As long as `control_close` finds no idle entry that is marked, a partition is opened at most once, no entry is
freed twice, no assertion fails and no entry is used after it was freed. -/
theorem entries_deleted_once (reaches : (threads σ).Reaches Unmarked s) :
    (∀ addr entry, s.table.memory addr = some entry → entry.inuse = 0 ∨ entry.inuse = 1) ∧ s.table.freed.Nodup ∧
      ∀ action, Enabled s action → Unmarked s action → ∃ s', step s action = .ok s' := by
  obtain ⟨sane, entries⟩ := (tidy_preserved σ).invariant reaches
  refine ⟨fun a entry' found => ?_, sane.nodup, fun action => (tidy_preserved σ).returns reaches⟩
  rcases entries with vacant | ⟨addr, entry, occupied⟩
  · rw [vacant.memory] at found
    cases found
  · rw [occupied.memory] at found
    split at found
    · cases found
      have once := occupied.once
      have inuse := occupied.inuse
      omega
    · cases found

/-- Otherwise two threads delete the entry, and the second one uses it after it was freed. -/
theorem marked_close_fails (tidy : Tidy s) (idle : s.control = .idle) (found : ¬ Unmarked s .controlClose) :
    ∃ addr s₁ s₂, step s .controlClose = .ok s₁ ∧ Enabled s₁ (.fuseReleaseDelete addr) ∧
      step s₁ (.fuseReleaseDelete addr) = .ok s₂ ∧ Enabled s₂ (.controlCloseDelete addr) ∧
      step s₂ (.controlCloseDelete addr) = .error (.undefined "use of a freed entry") := by
  obtain ⟨sane, vacant | ⟨addr, entry, occupied⟩⟩ := tidy
  · refine absurd (fun addr entry linked => ?_) found
    cases vacant.linked.symm.trans linked
  obtain ⟨inuse, marked⟩ : entry.inuse = 0 ∧ entry.toBeDeleted = true := by
    by_contra fine
    refine found fun addr' entry' linked stored inuse => ?_
    cases occupied.linked.symm.trans linked
    cases occupied.memory_self.symm.trans stored
    simpa [inuse] using fine
  have releasing : s.releasing = [addr] := (occupied.deleter marked).resolve_right (not_not.mpr idle)
  have closed : step s .controlClose = .ok { s with
      table := s.table.store addr { entry with toBeDeleted := true }, control := .closing addr } := by
    rw [step, controlClose, occupied.find]
    change (if entry.inuse ≠ 0 then _ else _) >>= _ = _
    rw [if_neg (not_not.mpr inuse)]
    rfl
  set s₁ : System σ := { s with
    table := s.table.store addr { entry with toBeDeleted := true }, control := .closing addr }
  have stored : s₁.table.deref addr = .ok { entry with toBeDeleted := true } := by
    rw [SharedTable.deref, occupied.memory_store, if_pos rfl]
  set s₂ : System σ := { s₁ with
    table := { s₁.table with
      memory := Function.update s₁.table.memory addr none, linked := none, freed := addr :: s.table.freed }
    releasing := s.releasing.erase addr }
  have freed : step s₁ (.fuseReleaseDelete addr) = .ok s₂ := by
    rw [step, deleteElementByptr, stored]
    change (if s.table.linked = some addr then _ else _) >>= _ = _
    rw [if_pos occupied.linked]
    rfl
  have gone : s₂.table.memory addr = none := Function.update_self ..
  refine ⟨addr, s₁, s₂, closed, ?_, freed, rfl, ?_⟩
  · change addr ∈ s.releasing
    rw [releasing]
    exact List.mem_singleton_self addr
  · rw [step, deleteElementByptr, SharedTable.deref, gone]
    rfl

theorem take {allowed : System σ → Action σ → Prop} (before : (threads σ).Reaches allowed s) (action : Action σ)
    (enabled : Enabled s action) (good : allowed s action) (ran : step s action = .ok s') :
    (threads σ).Reaches allowed s' := before.step enabled good ran

/-- A file was opened for writing. -/
theorem entries_deleted_once_opened : ∃ s : System Unit, s.table.linked = some 0 ∧ s.files = [true] ∧
    (∀ addr entry, s.table.memory addr = some entry → entry.inuse = 0 ∨ entry.inuse = 1) ∧ s.table.freed.Nodup ∧
      ∀ action, Enabled s action → Unmarked s action → ∃ s', step s action = .ok s' := by
  have started : (threads Unit).Reaches Unmarked {} := .start
  have opened := take started (.controlOpen () false) rfl trivial rfl
  have checked := take opened (.controlOpened 0) rfl trivial rfl
  have used := take checked (.fuseOpen true) trivial trivial rfl
  exact ⟨_, rfl, rfl, entries_deleted_once used⟩

/-- `fuse_io_release` has marked the entry when `control_close` finds it. -/
theorem released_entry_closed : ∃ s : System Unit, (threads Unit).Reaches (fun _ _ => True) s ∧
    Enabled s (.controlCloseDelete 0) ∧
    step s (.controlCloseDelete 0) = .error (.undefined "use of a freed entry") := by
  have started : (threads Unit).Reaches (fun _ _ => True) {} := .start
  have opened := take started (.controlOpen () false) rfl trivial rfl
  have checked := take opened (.controlOpened 0) rfl trivial rfl
  have flagged := take checked (.controlSetCloseOnRelease (some true)) rfl trivial rfl
  have used := take flagged (.fuseOpen true) trivial trivial rfl
  have released := take used (.fuseRelease true) (.head _) trivial rfl
  have closed := take released .controlClose rfl trivial rfl
  have deleted := take closed (.fuseReleaseDelete 0) (.head _) trivial rfl
  exact ⟨_, deleted, rfl, rfl⟩

end Scubed3.FuseIo
