import Scubed3.Model.Locking
import Scubed3.Server.Session

/-! # The handlers give back what they lock

One lemma for each handler: it does what the handler of the daemon does, and says which data mutexes the thread holds
afterwards. All of them give back the entry they locked, but `control_resize` does not when it cannot parse a number
and cannot say so.
-/

namespace Scubed3.Locking

open Control

variable {u : Setup} {env : Env} {s : Socket} {w : Locked u} {name : List UInt8} {q : Holding Element → Prop}

/-- When the first handler returns, the second one returns with the same answer and the same daemon; `q` holds of the
mutexes then. -/
def Runs (x : Draw Failure (ℤ × Socket × Locked u)) (y : Draw Failure (ℤ × Socket × Daemon u))
    (q : Holding Element → Prop) : Prop :=
  ∀ tape ret s w rest, x.run tape = .done (ret, s, w) rest → y.run tape = .done (ret, s, w.daemon) rest ∧ q w.mutexes

/-- The thread holds what it held before. -/
abbrev Settles (w : Locked u) (x : Draw Failure (ℤ × Socket × Locked u)) (y : Draw Failure (ℤ × Socket × Daemon u)) :
    Prop := Runs x y (· = w.mutexes)

namespace Runs

variable {α : Type} {y : Draw Failure (ℤ × Socket × Daemon u)}

theorem reply {answer : ℤ × Socket} {d : Daemon u} (daemon : w.daemon = d) (holds : q w.mutexes) :
    Runs (reply answer w) (Control.reply answer d) q := by
  rintro tape ret s w' rest ⟨⟩
  exact ⟨by rw [daemon]; rfl, holds⟩

/-- The end of a handler that has locked an element. -/
theorem unlock {elt : Element} {answer : ℤ × Socket} {d : Daemon u} {w' : Locked u} {mutexes : Holding Element}
    (locked : w.mutexes.lock elt = some mutexes) (daemon : w'.daemon = d) (own : w'.mutexes = mutexes) :
    Settles w (Locking.reply answer (hashtblUnlockElementByptr w' elt)) (Control.reply answer d) :=
  .reply daemon ((congrArg (Holding.unlock · elt) own).trans (Holding.unlock_of_lock locked))

theorem bind {z : Draw Failure α} {f : α → Draw Failure (ℤ × Socket × Locked u)}
    {g : α → Draw Failure (ℤ × Socket × Daemon u)} (next : ∀ a, Runs (f a) (g a) q) : Runs (z >>= f) (z >>= g) q := by
  intro tape ret s w rest ran
  obtain ⟨a, mid, first, second⟩ := Draw.bind_done_iff.mp ran
  obtain ⟨same, holds⟩ := next a mid ret s w rest second
  exact ⟨Draw.bind_done_iff.mpr ⟨a, mid, first, same⟩, holds⟩

/-- The first handler does something that the second one does not. -/
theorem lift {z : Except Failure α} {f : α → Draw Failure (ℤ × Socket × Locked u)}
    (next : ∀ a, z = .ok a → Runs (f a) y q) : Runs (liftM z >>= f) y q := by
  intro tape ret s w rest ran
  obtain ⟨a, mid, first, second⟩ := Draw.bind_done_iff.mp ran
  obtain ⟨returned, rfl⟩ := Draw.lift_done_iff.mp first
  exact next a returned _ ret s w rest second

end Runs

/-! ## Answers -/

theorem controlWriteString_ret (s : Socket) (string : List UInt8) :
    (controlWriteString s string).1 = 0 ∨ (controlWriteString s string).1 = -1 := by
  suffices loop : ∀ turns s string, (controlWriteLoop turns s string).1 = 0 ∨ (controlWriteLoop turns s string).1 = -1 from
    loop _ s string
  intro turns
  induction turns with
  | zero => exact fun _ _ => .inl rfl
  | succ turns ih =>
    intro s string
    rw [controlWriteLoop]
    dsimp only
    split
    · exact .inr rfl
    · split
      · exact ih _ _
      · exact .inl rfl

theorem orFail_ok (s : Socket) (next : Socket → ℤ × Socket) : orFail (0, s) next = next s := if_neg (not_not.mpr rfl)

theorem orFail_failed {result : ℤ × Socket} (failed : result.1 ≠ 0) (next : Socket → ℤ × Socket) :
    orFail result next = (-1, result.2) := if_pos failed

theorem orFail_assoc (result : ℤ × Socket) (next last : Socket → ℤ × Socket) :
    orFail (orFail result next) last = orFail result fun s => orFail (next s) last := by
  by_cases failed : result.1 ≠ 0
  · rw [orFail_failed failed, orFail_failed failed]
    rfl
  · have whole : orFail result next = next result.2 := if_neg failed
    rw [whole]
    exact (if_neg failed).symm

theorem controlWriteLines_append (s : Socket) (lines more : List (List UInt8)) :
    controlWriteLines s (lines ++ more) = orFail (controlWriteLines s lines) fun s => controlWriteLines s more := by
  induction lines generalizing s with
  | nil => exact (orFail_ok s fun s => controlWriteLines s more).symm
  | cons line lines ih =>
    rw [List.cons_append, controlWriteLines, controlWriteLines, orFail_assoc]
    exact congrArg _ (funext ih)

/-! ## Tables -/

theorem pthdMutexLock_eq_ok_iff {elt : Element} {w' : Locked u} : pthdMutexLock w elt = .ok w' ↔
    ∃ mutexes, w.mutexes.lock elt = some mutexes ∧ w' = { w with mutexes } := by
  rw [pthdMutexLock]
  cases w.mutexes.lock elt with
  | none => exact iff_of_false nofun nofun
  | some mutexes =>
    constructor
    · rintro ⟨⟩
      exact ⟨_, rfl, rfl⟩
    · rintro ⟨_, ⟨⟩, rfl⟩
      rfl

/-- A data mutex that is locked and unlocked. -/
theorem unlock_of_lock {elt : Element} {w' : Locked u} (locked : pthdMutexLock w elt = .ok w') :
    hashtblUnlockElementByptr w' elt = w := by
  obtain ⟨mutexes, held, rfl⟩ := pthdMutexLock_eq_ok_iff.mp locked
  rw [hashtblUnlockElementByptr]
  exact congrArg (Locked.mk w.daemon w.toBeDeleted) (Holding.unlock_of_lock held)

theorem find_eq_ok {look : Option (FuseIoEntry u)} {w' : Locked u}
    (ran : hashtblFindElementBykey w name = .ok (look, w')) : w.daemon.find name = none ∧ look = none ∧ w' = w ∨
      ∃ entry mutexes, w.daemon.find name = some entry ∧ w.mutexes.lock (.entry name) = some mutexes ∧
        look = some entry ∧ w' = { w with mutexes } := by
  rw [hashtblFindElementBykey] at ran
  cases found : w.daemon.find name with
  | none =>
    rw [found] at ran
    cases ran
    exact .inl ⟨rfl, rfl, rfl⟩
  | some entry =>
    rw [found] at ran
    obtain ⟨w₁, locked, same⟩ := Except.bind_eq_ok_iff.mp ran
    obtain ⟨mutexes, held, rfl⟩ := pthdMutexLock_eq_ok_iff.mp locked
    cases same
    exact .inr ⟨entry, mutexes, rfl, held, rfl, rfl⟩

/-- A handler that looks up a partition first. -/
theorem found_runs {x : Locked u → Draw Failure (ℤ × Socket × Locked u)}
    {x' : FuseIoEntry u → Locked u → Draw Failure (ℤ × Socket × Locked u)} {y : Draw Failure (ℤ × Socket × Daemon u)}
    {y' : FuseIoEntry u → Draw Failure (ℤ × Socket × Daemon u)} (missing : w.daemon.find name = none → Runs (x w) y q)
    (found : ∀ entry mutexes, w.daemon.find name = some entry → w.mutexes.lock (.entry name) = some mutexes →
      Runs (x' entry { w with mutexes }) (y' entry) q) :
    Runs (do match ← hashtblFindElementBykey w name with
      | (none, w) => x w
      | (some entry, w) => x' entry w)
    (match w.daemon.find name with
      | none => y
      | some entry => y' entry) q := by
  refine .lift fun ⟨look, w'⟩ ran => ?_
  obtain ⟨absent, rfl, rfl⟩ | ⟨entry, mutexes, present, locked, rfl, rfl⟩ := find_eq_ok ran
  · rw [absent]
    exact missing absent
  · rw [present]
    exact found entry mutexes present locked

theorem freer_eq_ok {opening : Opening u} {w' : Locked u} (ran : freer w opening = .ok w') :
    Control.freer w.daemon opening = .ok w'.daemon ∧ w'.mutexes = w.mutexes := by
  obtain ⟨d, freed, ran⟩ := Except.bind_eq_ok_iff.mp ran
  cases held : opening.id with
  | none =>
    rw [held] at ran
    cases ran
    exact ⟨freed, rfl⟩
  | some id =>
    rw [held] at ran
    obtain ⟨w₁, locked, same⟩ := Except.bind_eq_ok_iff.mp ran
    rw [unlock_of_lock locked] at same
    cases same
    exact ⟨freed, rfl⟩

theorem deleteElementByptr_eq_ok {opening : Opening u} {w' : Locked u}
    (ran : hashtblDeleteElementByptr w name opening = .ok w') :
    Control.freer { w.daemon with entries := w.daemon.entries.filter (·.key ≠ name) } opening = .ok w'.daemon ∧
      w'.mutexes = w.mutexes := by
  obtain ⟨w₁, locked, ran⟩ := Except.bind_eq_ok_iff.mp ran
  dsimp only at ran
  rw [unlock_of_lock locked] at ran
  exact freer_eq_ok ran

section Traverse

variable {α σ : Type} {element : α → Element} {ts : Bool} {elts : List α} {ret : ℤ} {w' w₁ : Locked u}

/-- A traversal of a table that is thread-safe: the element at hand is locked, at the end there is none. -/
theorem traverseLoop_settles {rep : σ → α → ℤ × σ} {arg arg' : σ} (first : lockNext true element elts w = .ok w₁)
    (ran : traverseLoop true element rep elts arg w₁ = .ok (ret, arg', w')) : w' = w := by
  induction elts generalizing arg w₁ with
  | nil =>
    cases first
    cases ran
    rfl
  | cons elt elts ih =>
    have back : hashtblUnlockElementByptr w₁ (element elt) = w := unlock_of_lock first
    rw [traverseLoop] at ran
    dsimp only at ran
    split at ran
    · cases ran
      exact back
    · obtain ⟨w₂, next, ran⟩ := Except.bind_eq_ok_iff.mp ran
      rw [if_pos rfl, back] at next
      exact ih next ran

theorem hashtblTsTraverse_settles {rep : σ → α → ℤ × σ} {arg arg' : σ}
    (ran : hashtblTsTraverse true element rep elts arg w = .ok (ret, arg', w')) : w' = w := by
  obtain ⟨w₁, first, ran⟩ := Except.bind_eq_ok_iff.mp ran
  exact traverseLoop_settles first ran

theorem traverseLoop_strays {rep : σ → α → ℤ × σ} {arg arg' : σ}
    (ran : traverseLoop false element rep elts arg w = .ok (ret, arg', w')) :
    ret = 0 ∧ w' = w ∨ ret = -1 ∧ ∃ elt ∈ elts, w' = hashtblUnlockElementByptr w (element elt) := by
  induction elts generalizing arg with
  | nil =>
    cases ran
    exact .inl ⟨rfl, rfl⟩
  | cons elt elts ih =>
    rw [traverseLoop] at ran
    dsimp only at ran
    split at ran
    · cases ran
      exact .inr ⟨rfl, elt, List.mem_cons_self, rfl⟩
    · obtain ⟨w₂, next, later⟩ := Except.bind_eq_ok_iff.mp ran
      obtain rfl : w₂ = w := by
        cases elts <;> cases next <;> rfl
      obtain whole | ⟨failed, other, member, same⟩ := ih later
      · exact .inl whole
      · exact .inr ⟨failed, other, List.mem_cons_of_mem _ member, same⟩

/-- A traversal of a table that is not thread-safe locks nothing, but it unlocks the element at which it fails. -/
theorem hashtblTsTraverse_strays {rep : σ → α → ℤ × σ} {arg arg' : σ}
    (ran : hashtblTsTraverse false element rep elts arg w = .ok (ret, arg', w')) :
    ret = 0 ∧ w' = w ∨ ret = -1 ∧ ∃ elt ∈ elts, w' = hashtblUnlockElementByptr w (element elt) := by
  obtain ⟨w₁, first, loop⟩ := Except.bind_eq_ok_iff.mp ran
  obtain rfl : w₁ = w := by
    cases elts <;> cases first <;> rfl
  exact traverseLoop_strays loop

section Lines

variable {line : α → List UInt8} {s' : Socket}

theorem traverseLoop_lines
    (ran : traverseLoop ts element (fun s elt => controlWriteLine s (line elt ++ [newline])) elts s w₁ =
      .ok (ret, s', w')) : (ret, s') = controlWriteLines s (elts.map line) := by
  induction elts generalizing s w₁ with
  | nil =>
    cases ran
    rfl
  | cons elt elts ih =>
    rw [traverseLoop] at ran
    dsimp only at ran
    rw [List.map_cons, controlWriteLines, orFail]
    obtain sent | failed := controlWriteString_ret s (line elt ++ [newline])
    · rw [if_neg (by rw [controlWriteLine, sent]; decide)] at ran
      rw [if_neg (by rw [controlWriteLine, sent]; decide)]
      obtain ⟨w₂, -, ran⟩ := Except.bind_eq_ok_iff.mp ran
      exact ih ran
    · rw [if_pos (by rw [controlWriteLine, failed])] at ran
      rw [if_pos (by rw [controlWriteLine, failed]; decide)]
      cases ran
      rfl

/-- A traversal that sends a line for each element. -/
theorem hashtblTsTraverse_lines
    (ran : hashtblTsTraverse ts element (fun s elt => controlWriteLine s (line elt ++ [newline])) elts s w =
      .ok (ret, s', w')) : (ret, s') = controlWriteLines s (elts.map line) := by
  obtain ⟨w₁, -, ran⟩ := Except.bind_eq_ok_iff.mp ran
  exact traverseLoop_lines ran

end Lines

end Traverse

/-! ## Commands -/

theorem controlCycle_settles {count : List UInt8} :
    Settles w (controlCycle env s w name count) (Control.controlCycle env s w.daemon name count) := by
  refine found_runs (fun _ => .reply rfl rfl) fun entry mutexes _ locked => ?_
  dsimp only
  split
  · exact .unlock locked rfl rfl
  · split
    · exact .unlock locked rfl rfl
    · exact .bind fun l => .unlock locked rfl rfl

theorem controlVerboseJuggler_settles :
    Settles w (controlVerboseJuggler s w name) (Control.controlVerboseJuggler s w.daemon name) :=
  found_runs (fun _ => .reply rfl rfl) fun _ _ _ locked => .unlock locked rfl rfl

theorem controlStatus_settles : Settles w (controlStatus s w) (Control.controlStatus s w.daemon) := by
  unfold controlStatus Control.controlStatus
  dsimp only
  rw [controlWriteParts]
  split
  · next failed =>
    rw [orFail_failed failed]
    exact .reply rfl rfl
  · next sent =>
    rw [orFail, if_neg sent, controlWriteLines_append]
    refine .lift fun r ran => ?_
    obtain ⟨ret, s', w'⟩ := r
    obtain rfl : w' = w := hashtblTsTraverse_settles ran
    have lines := hashtblTsTraverse_lines ran
    dsimp only
    rw [← lines, orFail_assoc]
    split
    · next failed =>
      rw [orFail_failed failed]
      exact .reply rfl rfl
    · next whole =>
      rw [not_not.mp whole, orFail_ok]
      simp only [controlWriteLines, orFail_assoc, orFail_ok]
      exact .reply rfl rfl

/-- The line of a command cannot be sent. -/
def HelpFails (s : Socket) : Prop :=
  (controlWriteStatus s false).1 = 0 ∧
    (controlWriteLines (controlWriteStatus s false).2 (commandTable.map fun c => c.key ++ c.usage)).1 ≠ 0

/-- A command whose line cannot be sent is unlocked, although commands are never locked. -/
theorem controlHelp_runs : Runs (controlHelp s w) (Control.controlHelp s w.daemon) fun mutexes =>
    (HelpFails s ∧ ∃ key, mutexes = w.mutexes.unlock (.command key)) ∨ (¬ HelpFails s ∧ mutexes = w.mutexes) := by
  unfold controlHelp Control.controlHelp
  dsimp only
  rw [controlWriteParts]
  split
  · next failed =>
    rw [orFail_failed failed]
    exact .reply rfl (.inr ⟨fun helpFails => failed helpFails.1, rfl⟩)
  · next sent =>
    rw [orFail, if_neg sent]
    refine .lift fun r ran => ?_
    obtain ⟨ret, s', w'⟩ := r
    have lines := hashtblTsTraverse_lines ran
    have helpFails : HelpFails s ↔ ret ≠ 0 := by
      rw [HelpFails, ← lines]
      exact and_iff_right (not_not.mp sent)
    dsimp only
    rw [← lines]
    obtain ⟨rfl, rfl⟩ | ⟨rfl, c, -, rfl⟩ := hashtblTsTraverse_strays ran
    · rw [if_neg (by decide), orFail_ok]
      exact .reply rfl (.inr ⟨fun fails => helpFails.mp fails rfl, rfl⟩)
    · rw [if_pos (by decide), orFail_failed (show (-1 : ℤ) ≠ 0 by decide)]
      exact .reply rfl (.inl ⟨helpFails.mpr (by decide), c.key, rfl⟩)

theorem controlCheckAvailable_settles :
    Settles w (controlCheckAvailable s w name) (Control.controlCheckAvailable s w.daemon name) := by
  unfold controlCheckAvailable Control.controlCheckAvailable
  split
  · exact .reply rfl rfl
  · exact found_runs (fun _ => .reply rfl rfl) fun _ _ _ locked => .unlock locked rfl rfl

theorem controlSetAux_settles {key value : List UInt8} :
    Settles w (controlSetAux s w name key value) (Control.controlSetAux s w.daemon name key value) := by
  refine found_runs (fun _ => .reply rfl rfl) fun entry mutexes _ locked => ?_
  split
  · exact .unlock locked rfl rfl
  · exact .unlock locked rfl rfl

theorem controlGetAux_settles {key : List UInt8} :
    Settles w (controlGetAux s w name key) (Control.controlGetAux s w.daemon name key) := by
  refine found_runs (fun _ => .reply rfl rfl) fun entry mutexes _ locked => ?_
  dsimp only
  cases if key = ascii "mountpoint" then entry.mountpoint else none with
  | some mountpoint => exact .unlock locked rfl rfl
  | none => exact .unlock locked rfl rfl

theorem controlSetReadonly_settles {value : List UInt8} :
    Settles w (controlSetReadonly s w name value) (Control.controlSetReadonly s w.daemon name value) := by
  refine found_runs (fun _ => .reply rfl rfl) fun entry mutexes _ locked => ?_
  split
  · exact .unlock locked rfl rfl
  · cases parseBool value with
    | some readonly => exact .unlock locked rfl rfl
    | none => exact .unlock locked rfl rfl

theorem controlSetCloseOnRelease_settles {value : List UInt8} :
    Settles w (controlSetCloseOnRelease s w name value) (Control.controlSetCloseOnRelease s w.daemon name value) := by
  refine found_runs (fun _ => .reply rfl rfl) fun entry mutexes _ locked => ?_
  cases parseBool value with
  | some closeOnRelease => exact .unlock locked rfl rfl
  | none => exact .unlock locked rfl rfl

theorem controlInfo_settles : Settles w (controlInfo s w name) (Control.controlInfo s w.daemon name) :=
  found_runs (fun _ => .reply rfl rfl) fun _ _ _ locked => .unlock locked rfl rfl

theorem controlClose_settles : Settles w (controlClose s w name) (Control.controlClose s w.daemon name) := by
  refine found_runs (fun _ => .reply rfl rfl) fun entry mutexes _ locked => ?_
  dsimp only
  split
  · exact .unlock locked rfl rfl
  · refine .lift fun w' ran => ?_
    obtain ⟨freed, same⟩ := deleteElementByptr_eq_ok ran
    have freed : Control.freer { w.daemon with entries := w.daemon.entries.filter (·.key ≠ name) }
        (openingOf w.daemon entry) = .ok w'.daemon := freed
    unfold openingOf at freed
    rw [freed]
    exact .reply rfl (same.trans (Holding.unlock_of_lock locked))

/-! ### Opening and creating -/

variable {spec key : List UInt8} {add : Bool}

theorem openCipher_eq (ids : List Hash) : openCipher u ids spec key = do
    let (c, id) ← openKey u spec key
    if id ∈ ids then .error (ascii "cipher(mode)/key combination already in use") else return (c, id) := by
  unfold openCipher openKey
  split
  · rfl
  · cases unbase16 key with
    | none => rfl
    | some key =>
      dsimp only
      cases u.cipherInit spec key with
      | error message => rfl
      | ok c => rfl

theorem hashtblAddElement_eq_ok {id : Hash} {added : Bool} {w' : Locked u}
    (ran : hashtblAddElement w id = .ok (added, w')) : id ∈ w.daemon.ids ∧ added = false ∧ w' = w ∨
      id ∉ w.daemon.ids ∧ added = true ∧
        hashtblUnlockElementByptr w' (.id id) = { w with daemon := { w.daemon with ids := id :: w.daemon.ids } } := by
  obtain ⟨w₁, locked, ran⟩ := Except.bind_eq_ok_iff.mp ran
  split at ran
  · next taken =>
    rw [unlock_of_lock locked] at ran
    cases ran
    exact .inl ⟨taken, rfl, rfl⟩
  · next free =>
    cases ran
    obtain ⟨mutexes, held, rfl⟩ := pthdMutexLock_eq_ok_iff.mp locked
    refine .inr ⟨free, rfl, ?_⟩
    rw [hashtblUnlockElementByptr]
    exact congrArg (Locked.mk _ w.toBeDeleted) (Holding.unlock_of_lock held)

/-- What the `ecch_try` block leaves. -/
structure Tried (env : Env) (w : Locked u) (name spec key : List UInt8) (add : Bool) (tape rest : List ℕ)
    (r : Except (List UInt8 × Opening u) (FuseIoEntry u)) (w' : Locked u) : Prop where
  run : (Control.openTry env w.daemon name spec key add).run tape = .done r rest
  mutexes : w'.mutexes = w.mutexes
  daemon : w'.daemon = { w.daemon with ids := (match r with
    | .ok entry => [entry.uniqueId]
    | .error (_, opening) => opening.id.toList) ++ w.daemon.ids }

theorem openTry_done {tape rest : List ℕ} {r : Except (List UInt8 × Opening u) (FuseIoEntry u)} {w' : Locked u}
    (ran : (openTry env w name spec key add).run tape = .done (r, w') rest) :
    Tried env w name spec key add tape rest r w' := by
  unfold openTry at ran
  cases keyed : openKey u spec key with
  | error message =>
    rw [keyed] at ran
    cases ran
    refine ⟨?_, rfl, rfl⟩
    rw [Control.openTry, openCipher_eq, keyed]
    rfl
  | ok found =>
    obtain ⟨c, id⟩ := found
    rw [keyed] at ran
    obtain ⟨⟨added, w₁⟩, start, first, later⟩ := Draw.bind_done_iff.mp ran
    obtain ⟨stored, rfl⟩ := Draw.lift_done_iff.mp first
    obtain ⟨taken, rfl, rfl⟩ | ⟨free, rfl, unlocked⟩ := hashtblAddElement_eq_ok stored
    · cases later
      refine ⟨?_, rfl, rfl⟩
      rw [Control.openTry, openCipher_eq, keyed, Except.ok_bind]
      dsimp only
      rw [if_pos taken]
      rfl
    · dsimp only at later
      rw [if_neg (by decide), unlocked] at later
      obtain ⟨scanned, mid, scan, done⟩ := Draw.bind_done_iff.mp later
      suffices left : (Control.openTry env w.daemon name spec key add).run start = .done r rest by
        cases scanned with
        | error thrown =>
          cases done
          exact ⟨left, rfl, rfl⟩
        | ok io =>
          cases done
          exact ⟨left, rfl, rfl⟩
      rw [Control.openTry, openCipher_eq, keyed, Except.ok_bind]
      dsimp only
      rw [if_neg free]
      refine Draw.bind_done_iff.mpr ⟨scanned, mid, scan, ?_⟩
      cases scanned with
      | error thrown =>
        cases done
        rfl
      | ok io =>
        cases done
        rfl

theorem controlOpenCreateCommon_settles : Settles w (controlOpenCreateCommon env s w name spec key add)
    (Control.controlOpenCreateCommon env s w.daemon name spec key add) := by
  unfold controlOpenCreateCommon Control.controlOpenCreateCommon
  split
  · exact .reply rfl rfl
  · refine .lift fun ⟨added, w₁⟩ ran => ?_
    obtain ⟨w₂, locked, ran⟩ := Except.bind_eq_ok_iff.mp ran
    by_cases taken : (w.daemon.find name).isSome = true
    · rw [if_pos taken, unlock_of_lock locked] at ran
      cases ran
      rw [if_pos taken]
      exact .reply rfl rfl
    · rw [if_neg taken] at ran
      cases ran
      rw [if_neg taken]
      obtain ⟨mutexes, held, rfl⟩ := pthdMutexLock_eq_ok_iff.mp locked
      have new : w.daemon.find name = none := Option.not_isSome_iff_eq_none.mp taken
      intro tape ret s' w' rest ran
      obtain ⟨⟨r, w₃⟩, mid, trying, ran⟩ := Draw.bind_done_iff.mp ran
      have tried := openTry_done trying
      have own : w₃.mutexes.unlock (.entry name) = w.mutexes := by
        rw [tried.mutexes]
        exact Holding.unlock_of_lock held
      cases r with
      | ok entry =>
        cases ran
        refine ⟨Draw.bind_done_iff.mpr ⟨_, _, tried.run, ?_⟩, own⟩
        dsimp only
        rw [tried.daemon]
        rfl
      | error thrown =>
        obtain ⟨message, opening⟩ := thrown
        obtain ⟨w₄, _, first, last⟩ := Draw.bind_done_iff.mp ran
        obtain ⟨deleted, rfl⟩ := Draw.lift_done_iff.mp first
        obtain ⟨freed, same⟩ := deleteElementByptr_eq_ok deleted
        cases last
        refine ⟨Draw.bind_done_iff.mpr ⟨_, _, tried.run, ?_⟩, same.trans own⟩
        have only : w.daemon.entries.filter (·.key ≠ name) = w.daemon.entries := by
          refine List.filter_eq_self.mpr fun entry member => decide_eq_true fun here => ?_
          exact absurd here (by simpa using List.find?_eq_none.mp new entry member)
        have freed : Control.freer { w₃.daemon with entries := w₃.daemon.entries.filter (·.key ≠ name) } opening =
            .ok w'.daemon := freed
        rw [tried.daemon] at freed
        dsimp only at freed
        rw [only] at freed
        exact Draw.bind_done_iff.mpr ⟨_, _, Draw.lift_done_iff.mpr ⟨freed, rfl⟩, rfl⟩

/-! ### Resizing -/

/-- A number cannot be parsed, and the message that says so cannot be sent. -/
def Unsaid (s : Socket) (number : List UInt8) : Prop :=
  (strtol number).2.1 ≠ [] ∧
    (controlWriteComplete s true (printf (ascii "unable to parse ->%s<-\n") [number])).1 ≠ 0

theorem parseInt_fails_iff {r : ℤ} {number : List UInt8} : (parseInt s r number).1.1 ≠ 0 ↔ Unsaid s number := by
  by_cases parsed : (strtol number).2.1 = []
  · rw [parseInt_parsed parsed]
    exact iff_of_false (not_not.mpr rfl) fun unsaid => unsaid.1 parsed
  · rw [parseInt_unparsed parsed]
    exact (and_iff_right parsed).symm

/-- A resize of a partition that exists and is not in use, with such a number. -/
def Abandons (s : Socket) (d : Daemon u) (name size reserved : List UInt8) : Prop :=
  ∃ entry, d.find name = some entry ∧ entry.io.inuse = false ∧ (Unsaid s size ∨ Unsaid (parseInt s 0 size).1.2 reserved)

theorem controlResize_runs {size reserved : List UInt8} :
    Runs (controlResize env s w name size reserved) (Control.controlResize env s w.daemon name size reserved)
      fun mutexes => Abandons s w.daemon name size reserved ∧ w.mutexes.lock (.entry name) = some mutexes ∨
        ¬ Abandons s w.daemon name size reserved ∧ mutexes = w.mutexes := by
  refine found_runs (fun missing => .reply rfl (.inr ⟨?_, rfl⟩)) fun entry mutexes found locked => ?_
  · rintro ⟨entry, found, -⟩
    cases missing.symm.trans found
  · have abandons : Abandons s w.daemon name size reserved ↔
        entry.io.inuse = false ∧ (Unsaid s size ∨ Unsaid (parseInt s 0 size).1.2 reserved) := by
      refine ⟨fun ⟨other, found', rest⟩ => ?_, fun rest => ⟨entry, found, rest⟩⟩
      cases found.symm.trans found'
      exact rest
    split
    · next inuse =>
      refine .reply rfl (.inr ⟨fun leaves => ?_, Holding.unlock_of_lock locked⟩)
      exact absurd ((abandons.mp leaves).1.symm.trans inuse) (by decide)
    · next idle =>
      have idle : entry.io.inuse = false := Bool.eq_false_iff.mpr idle
      dsimp only
      split
      · next fails =>
        exact .reply rfl (.inl ⟨abandons.mpr ⟨idle, .inl (parseInt_fails_iff.mp fails)⟩, locked⟩)
      · next sized =>
        split
        · next fails =>
          exact .reply rfl (.inl ⟨abandons.mpr ⟨idle, .inr (parseInt_fails_iff.mp fails)⟩, locked⟩)
        · next parsed =>
          have back : ¬ Abandons s w.daemon name size reserved ∧ mutexes.unlock (.entry name) = w.mutexes := by
            refine ⟨fun leaves => ?_, Holding.unlock_of_lock locked⟩
            exact (abandons.mp leaves).2.elim (fun unsaid => sized (parseInt_fails_iff.mpr unsaid))
              fun unsaid => parsed (parseInt_fails_iff.mpr unsaid)
          refine .bind fun ⟨answer, io⟩ => ?_
          cases answer with
          | ok => exact .reply rfl (.inr back)
          | refused format => exact .reply rfl (.inr back)

/-! ## Every call -/

variable {line : List UInt8}

/-- The line is such a resize. -/
def AbandonsLine (s : Socket) (d : Daemon u) (line : List UInt8) : Prop :=
  ∃ name size reserved, called line = some (.resize, [name, size, reserved]) ∧ Abandons s d name size reserved

/-- What the thread holds after a handler: an entry that it left locked, or what it held before. A command that was
never locked may have been unlocked. -/
def Left (abandons : Prop) (before after : Holding Element) : Prop :=
  abandons ∧ (∃ name, before.lock (.entry name) = some after) ∨
    ¬ abandons ∧ (after = before ∨ ∃ key, after = before.unlock (.command key))

namespace Runs

variable {x : Draw Failure (ℤ × Socket × Locked u)} {y : Draw Failure (ℤ × Socket × Daemon u)}
  {weaker : Holding Element → Prop}

theorem mono (runs : Runs x y q) (imp : ∀ mutexes, q mutexes → weaker mutexes) : Runs x y weaker :=
  fun tape ret s w rest ran => (runs tape ret s w rest ran).imp_right (imp _)

theorem left {abandons : Prop} (settles : Settles w x y) (no : ¬ abandons) : Runs x y (Left abandons w.mutexes) :=
  settles.mono fun _ same => .inr ⟨no, .inl same⟩

end Runs

theorem runCommand_runs {command : Command} {argv : List (List UInt8)} :
    Runs (runCommand env s w command argv) (Control.runCommand env s w.daemon command argv)
      (Left (∃ name size reserved, command = .resize ∧ argv = [name, size, reserved] ∧
        Abandons s w.daemon name size reserved) w.mutexes) := by
  have other {command : Command} (different : command ≠ .resize) : ¬ ∃ name size reserved, command = .resize ∧
      argv = [name, size, reserved] ∧ Abandons s w.daemon name size reserved :=
    fun ⟨_, _, _, same, _⟩ => different same
  unfold runCommand Control.runCommand
  split
  · exact .left (.reply rfl rfl) (other (by decide))
  · exact .left (.reply rfl rfl) (other (by decide))
  · exact .left controlStatus_settles (other (by decide))
  · exact .left controlSetReadonly_settles (other (by decide))
  · exact .left controlSetCloseOnRelease_settles (other (by decide))
  · exact .left controlCheckAvailable_settles (other (by decide))
  · exact .left controlCycle_settles (other (by decide))
  · exact .left controlVerboseJuggler_settles (other (by decide))
  · exact .left (.reply rfl rfl) (other (by decide))
  · exact .left controlOpenCreateCommon_settles (other (by decide))
  · exact .left controlInfo_settles (other (by decide))
  · exact .left controlGetAux_settles (other (by decide))
  · exact .left controlSetAux_settles (other (by decide))
  · exact .left controlOpenCreateCommon_settles (other (by decide))
  · refine controlHelp_runs.mono fun mutexes ends => .inr ⟨other (by decide), ?_⟩
    exact ends.elim (fun fails => .inr fails.2) fun same => .inl same.2
  · exact .left controlClose_settles (other (by decide))
  · next name size reserved =>
    refine controlResize_runs.mono fun mutexes ends => ?_
    obtain ⟨abandons, locked⟩ | ⟨settles, same⟩ := ends
    · exact .inl ⟨⟨name, size, reserved, rfl, rfl, abandons⟩, name, locked⟩
    · refine .inr ⟨?_, .inl same⟩
      rintro ⟨_, _, _, -, ⟨⟩, abandons⟩
      exact settles abandons
  · exact fun _ _ _ _ _ ran => nomatch ran

theorem controlCall_runs : Runs (controlCall env s w line) (Control.controlCall env s w.daemon line)
    (Left (AbandonsLine s w.daemon line) w.mutexes) := by
  have uncalled (none : called line = none) : ¬ AbandonsLine s w.daemon line := by
    rintro ⟨_, _, _, some, -⟩
    cases none.symm.trans some
  unfold controlCall Control.controlCall
  cases split : splitArgs maxArgc (line.takeWhile (· ≠ 0)) with
  | none => exact .left (.reply rfl rfl) (uncalled (by rw [called, split]))
  | some argv =>
    dsimp only
    split
    · next empty => exact .left (.reply rfl rfl) (uncalled (by rw [called, split]; exact if_pos empty))
    next named =>
    cases look : commandTable.find? (·.key = argv.headD []) with
    | none =>
      refine .left (.reply rfl rfl) (uncalled ?_)
      simp only [called, split, if_neg named, look]
    | some cmnd =>
      dsimp only
      split
      · next arity =>
        refine .left (.reply rfl rfl) (uncalled ?_)
        simp only [called, split, if_neg named, look, if_pos arity]
      · next arity =>
        have call : called line = some (cmnd.command, argv.tail) := by
          simp only [called, split, if_neg named, look, if_neg arity]
        have same : AbandonsLine s w.daemon line ↔ ∃ name size reserved, cmnd.command = .resize ∧
            argv.tail = [name, size, reserved] ∧ Abandons s w.daemon name size reserved := by
          rw [AbandonsLine, call]
          simp only [Option.some.injEq, Prod.mk.injEq, and_assoc]
        rw [same]
        exact runCommand_runs

/-! ### Calls of the file system -/

section FileSystem

variable {path : List UInt8} {w' : Locked u} {ret : ℤ}

/-- A call that looks up a partition first. -/
theorem found_eq_ok {α : Type} {x : Locked u → Except Failure α} {x' : FuseIoEntry u → Locked u → Except Failure α} {a : α}
    (ran : (do match ← hashtblFindElementBykey w name with
      | (none, w) => x w
      | (some entry, w) => x' entry w) = .ok a) :
    w.daemon.find name = none ∧ x w = .ok a ∨ ∃ entry mutexes, w.daemon.find name = some entry ∧
      w.mutexes.lock (.entry name) = some mutexes ∧ x' entry { w with mutexes } = .ok a := by
  obtain ⟨⟨look, w₁⟩, found, rest⟩ := Except.bind_eq_ok_iff.mp ran
  obtain ⟨absent, rfl, rfl⟩ | ⟨entry, mutexes, present, locked, rfl, rfl⟩ := find_eq_ok found
  · exact .inl ⟨absent, rest⟩
  · exact .inr ⟨entry, mutexes, present, locked, rest⟩

theorem fuseIoGetattr_settles {stat : Stat} (ran : fuseIoGetattr w path = .ok (ret, stat, w')) :
    FuseIo.getattr w.daemon path = .ok (ret, stat) ∧ w'.daemon = w.daemon ∧ w'.mutexes = w.mutexes := by
  unfold fuseIoGetattr at ran
  unfold FuseIo.getattr
  obtain ⟨_, checked, ran⟩ := Except.bind_eq_ok_iff.mp ran
  rw [checked, Except.ok_bind]
  split at ran
  · next root =>
    cases ran
    rw [if_pos root]
    exact ⟨rfl, rfl, rfl⟩
  · next other =>
    rw [if_neg other]
    obtain ⟨absent, ran⟩ | ⟨entry, mutexes, present, locked, ran⟩ := found_eq_ok ran
    · cases ran
      rw [absent]
      exact ⟨rfl, rfl, rfl⟩
    · cases ran
      rw [present]
      exact ⟨rfl, rfl, Holding.unlock_of_lock locked⟩

theorem fuseIoReaddir_settles {names : List (List UInt8)} (ran : fuseIoReaddir w path = .ok (ret, names, w')) :
    w' = w := by
  unfold fuseIoReaddir at ran
  split at ran
  · cases ran
    rfl
  · obtain ⟨⟨_, names, w₁⟩, traversed, done⟩ := Except.bind_eq_ok_iff.mp ran
    cases done
    exact hashtblTsTraverse_settles traversed

theorem fuseIoOpen_settles {write : Bool} (ran : fuseIoOpen w path write = .ok (ret, w')) : w'.mutexes = w.mutexes := by
  obtain ⟨-, ran⟩ | ⟨entry, mutexes, -, locked, ran⟩ := found_eq_ok ran
  · cases ran
    rfl
  · have back := Holding.unlock_of_lock locked
    dsimp only at ran
    split at ran
    · cases ran
      exact back
    · split at ran
      · cases ran
        exact back
      · cases ran
        exact back

theorem fuseIoRelease_settles (ran : fuseIoRelease w path = .ok (ret, w')) : w'.mutexes = w.mutexes := by
  obtain ⟨-, ran⟩ | ⟨entry, mutexes, -, locked, ran⟩ := found_eq_ok ran
  · cases ran
    rfl
  · have back := Holding.unlock_of_lock locked
    obtain ⟨_, -, ran⟩ := Except.bind_eq_ok_iff.mp ran
    dsimp only at ran
    split at ran
    · obtain ⟨w₁, deleted, done⟩ := Except.bind_eq_ok_iff.mp ran
      cases done
      exact (deleteElementByptr_eq_ok deleted).2.trans back
    · cases ran
      exact back

variable {buf buf' : Bytes} {size offset fuel : ℕ} {tape rest : List ℕ}

theorem fuseIoRead_settles (ran : (fuseIoRead w path buf size offset).run tape = .done (ret, buf', w') rest) :
    w'.mutexes = w.mutexes := by
  obtain ⟨⟨look, w₁⟩, _, first, later⟩ := Draw.bind_done_iff.mp ran
  obtain ⟨found, -⟩ := Draw.lift_done_iff.mp first
  obtain ⟨-, rfl, rfl⟩ | ⟨entry, mutexes, -, locked, rfl, rfl⟩ := find_eq_ok found
  · cases later
    rfl
  · obtain ⟨_, _, -, done⟩ := Draw.bind_done_iff.mp later
    simp only [Draw.run_pure, Outcome.done.injEq, Prod.mk.injEq] at done
    obtain ⟨⟨-, -, rfl⟩, -⟩ := done
    exact Holding.unlock_of_lock locked

theorem fuseIoWrite_settles (ran : (fuseIoWrite fuel w path buf size offset).run tape = .done (ret, w') rest) :
    w'.mutexes = w.mutexes := by
  obtain ⟨⟨look, w₁⟩, _, first, later⟩ := Draw.bind_done_iff.mp ran
  obtain ⟨found, -⟩ := Draw.lift_done_iff.mp first
  obtain ⟨-, rfl, rfl⟩ | ⟨entry, mutexes, -, locked, rfl, rfl⟩ := find_eq_ok found
  · cases later
    rfl
  · obtain ⟨_, _, -, stored⟩ := Draw.bind_done_iff.mp later
    obtain ⟨_, _, -, done⟩ := Draw.bind_done_iff.mp stored
    simp only [Draw.run_pure, Outcome.done.injEq, Prod.mk.injEq] at done
    obtain ⟨⟨-, rfl⟩, -⟩ := done
    exact Holding.unlock_of_lock locked

end FileSystem

/-- A call of `control_call` or of a function of the file system. -/
inductive Call where
  | control (env : Env) (s : Socket) (line : List UInt8)
  | getattr (path : List UInt8)
  | readdir (path : List UInt8)
  | openFile (path : List UInt8) (mode : Bool)
  | release (path : List UInt8)
  | read (path : List UInt8) (buf : Bytes) (size offset : ℕ)
  | write (fuel : ℕ) (path : List UInt8) (buf : Bytes) (size offset : ℕ)

/-- What it leaves. -/
def Call.run (w : Locked u) : Call → Draw Failure (Locked u)
  | .control env s line => do
    let (_, _, w) ← controlCall env s w line
    return w
  | .getattr path => do
    let (_, _, w) ← fuseIoGetattr w path
    return w
  | .readdir path => do
    let (_, _, w) ← fuseIoReaddir w path
    return w
  | .openFile path mode => do
    let (_, w) ← fuseIoOpen w path mode
    return w
  | .release path => do
    let (_, w) ← fuseIoRelease w path
    return w
  | .read path buf size offset => do
    let (_, _, w) ← fuseIoRead w path buf size offset
    return w
  | .write fuel path buf size offset => do
    let (_, w) ← fuseIoWrite fuel w path buf size offset
    return w

/-- The call is a resize with a number that is neither parsed nor refused. -/
def Call.Abandons (d : Daemon u) : Call → Prop
  | .control _ s line => AbandonsLine s d line
  | _ => False

/-- The thread holds no entry that it did not hold before, and it unlocked none that it did not hold. -/
structure GivesBack (before after : Holding Element) : Prop where
  held : ∀ name, .entry name ∈ after.held → .entry name ∈ before.held
  strays : ∀ name, after.strays.count (.entry name) = before.strays.count (.entry name)

theorem GivesBack.refl (mutexes : Holding Element) : GivesBack mutexes mutexes := ⟨fun _ => id, fun _ => rfl⟩

theorem GivesBack.of_command (mutexes : Holding Element) (key : List UInt8) :
    GivesBack mutexes (mutexes.unlock (.command key)) := by
  rw [Holding.unlock]
  split
  · exact ⟨fun name member => List.mem_of_mem_erase member, fun _ => rfl⟩
  · exact ⟨fun name => id, fun name => List.count_cons_of_ne (by simp)⟩

theorem Call.left {call : Call} {w' : Locked u} {tape rest : List ℕ} (ran : (call.run w).run tape = .done w' rest) :
    Left (call.Abandons w.daemon) w.mutexes w'.mutexes := by
  cases call with
  | control env s line =>
    obtain ⟨⟨ret, s', w₁⟩, _, called, done⟩ := Draw.bind_done_iff.mp ran
    cases done
    exact (controlCall_runs _ _ _ _ _ called).2
  | getattr path =>
    obtain ⟨⟨ret, stat, w₁⟩, _, called, done⟩ := Draw.bind_done_iff.mp ran
    cases done
    exact .inr ⟨id, .inl (fuseIoGetattr_settles (Draw.lift_done_iff.mp called).1).2.2⟩
  | readdir path =>
    obtain ⟨⟨ret, names, w₁⟩, _, called, done⟩ := Draw.bind_done_iff.mp ran
    cases done
    exact .inr ⟨id, .inl (congrArg Locked.mutexes (fuseIoReaddir_settles (Draw.lift_done_iff.mp called).1))⟩
  | openFile path mode =>
    obtain ⟨⟨ret, w₁⟩, _, called, done⟩ := Draw.bind_done_iff.mp ran
    cases done
    exact .inr ⟨id, .inl (fuseIoOpen_settles (Draw.lift_done_iff.mp called).1)⟩
  | release path =>
    obtain ⟨⟨ret, w₁⟩, _, called, done⟩ := Draw.bind_done_iff.mp ran
    cases done
    exact .inr ⟨id, .inl (fuseIoRelease_settles (Draw.lift_done_iff.mp called).1)⟩
  | read path buf size offset =>
    obtain ⟨⟨ret, buf', w₁⟩, _, called, done⟩ := Draw.bind_done_iff.mp ran
    cases done
    exact .inr ⟨id, .inl (fuseIoRead_settles called)⟩
  | write fuel path buf size offset =>
    obtain ⟨⟨ret, w₁⟩, _, called, done⟩ := Draw.bind_done_iff.mp ran
    cases done
    exact .inr ⟨id, .inl (fuseIoWrite_settles called)⟩

/-- For every daemon, every command and every outcome of each `send`, and for every call of the file system, the thread
gives back the entry that it locked, unless it is a resize of a partition that exists and is not in use with a number
that cannot be parsed, and the message that says so cannot be sent. -/
theorem givesBack_iff {call : Call} {w' : Locked u} {tape rest : List ℕ} (ran : (call.run w).run tape = .done w' rest) :
    GivesBack w.mutexes w'.mutexes ↔ ¬ call.Abandons w.daemon := by
  obtain ⟨abandons, name, locked⟩ | ⟨settles, same | ⟨key, same⟩⟩ := Call.left ran
  · refine iff_of_false (fun gives => ?_) (not_not.mpr abandons)
    obtain ⟨free, same⟩ := Holding.lock_eq_some_iff.mp locked
    exact free (gives.held name (by rw [same]; exact List.mem_cons_self))
  · rw [same]
    exact iff_of_true (.refl _) settles
  · rw [same]
    exact iff_of_true (.of_command _ key) settles

theorem givesBack_iff_readdir : GivesBack ({ daemon := Daemon.unsized } : Locked _).mutexes {} ↔
    ¬ (Call.readdir (ascii "/")).Abandons Daemon.unsized :=
  @givesBack_iff _ { daemon := Daemon.unsized } (.readdir (ascii "/")) { daemon := Daemon.unsized } [] [] rfl

/-- Nothing can be sent to a client that wants a size that is not a number: the partition stays locked. -/
theorem not_givesBack_resize : ∃ w' : Locked _,
    ((Call.control { fuel := 0, addr := 0, times := 0 } { accepts := fun _ => 0 } (ascii "resize-internal a x 0")).run
      { daemon := Daemon.unsized }).run [] = .done w' [] ∧ ¬ GivesBack {} w'.mutexes := by
  refine ⟨{ daemon := Daemon.unsized, mutexes := { held := [.entry (ascii "a")] } }, rfl, fun gives => ?_⟩
  exact absurd (gives.held (ascii "a") (List.mem_singleton_self _)) List.not_mem_nil

end Scubed3.Locking
