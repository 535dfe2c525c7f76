import Scubed3.Server.Session

/-! # A refused command changes nothing

Handlers validate before they act, so a refusal leaves the daemon as it was. The exception is a number that
cannot be parsed: the refusal is sent, but the handler goes on, with a count that was never set or with
zero for the number of blocks to keep back.
-/

namespace Scubed3.Control

open List Blockio Scubed3.Partition

variable {u : Setup} {s s' : Socket} {d d' : Daemon u} {env : Env} {entry : FuseIoEntry u} {name line : List UInt8}

/-- What a refused command leaves alone of a partition. -/
structure Kept where
  key : List UInt8
  readonly : Bool
  closeOnRelease : Bool
  mountpoint : Option (List UInt8)
  size : ℕ
  noMacroblocks : ℕ
  reservedMacroblocks : ℕ
  noBlockIndices : ℕ
  blockIndices : ℕ → ℕ
  bi : Option ℕ
  tailMacroblock : Option ℕ
  j : Juggler

def kept (entry : FuseIoEntry u) : Kept where
  key := entry.key
  readonly := entry.readonly
  closeOnRelease := entry.closeOnRelease
  mountpoint := entry.mountpoint
  size := entry.io.size
  noMacroblocks := entry.io.l.dev.noMacroblocks
  reservedMacroblocks := entry.io.l.dev.reservedMacroblocks
  noBlockIndices := entry.io.l.noBlockIndices
  blockIndices := entry.io.l.blockIndices
  bi := entry.io.l.dev.bi
  tailMacroblock := entry.io.l.dev.tailMacroblock
  j := entry.io.l.dev.j

/-- The partitions, the unallocated list, the macroblock records and the contents of the disk are as before. -/
structure Unchanged (d d' : Daemon u) : Prop where
  partitions : d'.entries.map kept = d.entries.map kept
  device : d'.b = d.b

theorem Unchanged.refl (d : Daemon u) : Unchanged d d := ⟨rfl, rfl⟩

/-- Storing a partition changes as much as is changed of it. -/
theorem unchanged_putIo_iff (wf : WellFormed d) (found : d.find name = some entry) (io : Entry) :
    Unchanged d (d.putIo entry io) ↔ kept { entry with io } = kept entry ∧ io.l.dev.b = d.b := by
  have stored : (d.putIo entry io).entries.map kept =
      d.entries.map fun other => kept (if other.key = entry.key then { entry with io } else other) := map_map
  constructor
  · rintro ⟨partitions, device⟩
    rw [stored] at partitions
    have same := map_inj_left.mp partitions entry (find_eq_some found).1
    rw [if_pos rfl] at same
    exact ⟨same, device⟩
  · rintro ⟨same, device⟩
    refine ⟨?_, device⟩
    rw [stored]
    refine map_congr_left fun other listed => ?_
    split
    · next key => rw [same, inj_on_of_nodup_map wf.distinct listed (find_eq_some found).1 key]
    · rfl

/-! ## What changes -/

/-- A cycle takes another macroblock from the juggler. -/
theorem cycle_seqno (p : Params) (fuel : ℕ) (l : Partition) :
    Draw.Yields (cycle p fuel l) fun l' => l'.dev.j.seqno = l.dev.j.seqno + 1 := by
  unfold cycle
  refine .bind (m := Moved p l) ?_ fun l₁ moved => ?_
  · split
    · exact .pure (.refl l)
    · exact .bind (copyOldBlockToCurrent_moved l).lift fun l₁ moved =>
        .pure (moved.trans (.flags l₁ l₁.dev.updated true))
  · have before : l₁.dev.j = l.dev.j := by rw [moved.rest]; rfl
    refine .bind (m := fun dev => dev.j = l.dev.j) ?_ fun dev written => ?_
    · refine .lift (fun dev ran => ?_) fun _ _ => trivial
      obtain ⟨id, -, -, -, -, rfl⟩ := (writeCurrentMacroblock_eq_ok_iff p).mp ran
      exact before
    · refine .bind (m := fun dev => dev.j.seqno = l.dev.j.seqno + 1) ?_ fun dev' selected => .pure selected
      refine .of_forall_done fun tape dev' rest ran => ?_
      obtain ⟨-, id, j, infos, handout, -, -, rfl⟩ := selectNext_done ran
      rw [← written]
      exact handout.seqno

theorem cycleTurns_seqno (p : Params) (fuel times : ℕ) (l : Partition) :
    Draw.Yields (cycleTurns p fuel times l) fun l' => l'.dev.j.seqno = l.dev.j.seqno + times := by
  induction times generalizing l with
  | zero => exact .pure rfl
  | succ times ih =>
    refine .bind (cycle_seqno p fuel l) fun l₁ first => (ih l₁).imp fun l' others => ?_
    rw [others, first]
    omega

/-- A resize that is not refused. -/
def Accepts (p : Params) (io : Entry) (size reserved : ℤ) : Prop :=
  io.inuse = false ∧ reserved ≤ size ∧ io.l.dev.noMacroblocks < size.toNat ∧ size.toNat ≤ p.b.totalMacroblocks ∧
    size.toNat ≤ io.l.dev.noMacroblocks + io.l.dev.b.unallocated.length

theorem resize_answer (p : Params) (fuel : ℕ) (io : Entry) (size reserved : ℤ) :
    Draw.Yields (resize p fuel io size reserved) fun r => r.1 = .ok ↔ Accepts p io size reserved := by
  have refused (format : String) (no : ¬ Accepts p io size reserved) : Draw.Yields
      (pure (.refused format, io) : Draw Failure (Reply × Entry)) fun r => r.1 = .ok ↔ Accepts p io size reserved :=
    .pure (iff_of_false (by simp) no)
  unfold Accepts at refused ⊢
  unfold resize
  dsimp only
  split
  · next busy => exact refused _ fun accepts => by simp [accepts.1] at busy
  next idle =>
  split
  · next nonsense => exact refused _ fun accepts => by omega
  next sense =>
  split
  · exact refused _ (by omega)
  split
  · exact refused _ (by omega)
  split
  · exact refused _ (by omega)
  refine .bind (m := fun grown => grown.isSome ↔
    size.toNat ≤ io.l.dev.noMacroblocks + io.l.dev.b.unallocated.length) ?_ fun grown enough => ?_
  · unfold allocateMacroblocks
    split
    · next few => exact .pure (iff_of_false (by simp) (by omega))
    · next enough =>
      exact .bind (m := fun _ => True) (.of_forall_done fun _ _ _ _ => trivial) fun dev _ =>
        .pure (iff_of_true rfl (by omega))
  · cases grown with
    | none => exact refused _ (by simp at enough; omega)
    | some dev =>
      have enough := enough.mp rfl
      refine .of_forall_done fun tape r rest ran => ?_
      simp only [Draw.bind_done_iff, Draw.run_pure, Outcome.done.injEq] at ran
      obtain ⟨_, _, _, _, _, _, returned, _⟩ := ran
      rw [← returned]
      refine iff_of_true rfl ⟨by simpa using idle, by omega, by omega, by omega, enough⟩

theorem allocateTurns_noMacroblocks (size : ℕ) (dev : BlockioDev) :
    Draw.Yields (allocateTurns size dev) fun dev' => dev'.noMacroblocks = dev.noMacroblocks + size := by
  induction size generalizing dev with
  | zero => exact .pure rfl
  | succ size ih =>
    refine .bind (m := fun dev' => dev'.noMacroblocks = dev.noMacroblocks + 1) ?_ fun next first => ?_
    · refine .of_forall_done fun tape dev' rest ran => ?_
      obtain ⟨_, _, _, _, _, _, _, _, _, rfl⟩ := allocateMacroblock_done ran
      rfl
    · exact (ih next).imp fun dev' others => by omega

theorem resize_noMacroblocks {p : Params} {fuel : ℕ} {io io' : Entry} {size reserved : ℤ} {tape rest : List ℕ}
    (ran : (resize p fuel io size reserved).run tape = .done (.ok, io') rest) :
    io.l.dev.noMacroblocks < io'.l.dev.noMacroblocks := by
  rcases resize_done ran with ⟨refused, -⟩ | ⟨-, -, -, larger, -, grown, l, dev, mid, mid', allocated, started,
    selected, same, -⟩
  · exact absurd rfl refused
  · have count := (allocateTurns_noMacroblocks _ _).of_done allocated
    obtain ⟨-, rfl⟩ := reinit_eq_ok_iff.mp started
    rw [same]
    change io.l.dev.noMacroblocks < dev.noMacroblocks
    split at selected
    · obtain ⟨-, _, _, _, -, -, -, rfl⟩ := selectNext_done selected
      change _ < grown.noMacroblocks
      omega
    · cases selected
      change _ < grown.noMacroblocks
      omega

/-! ## All commands -/

/-- The calls that refuse a number and act all the same. -/
inductive ActsRefused (env : Env) (s : Socket) (d : Daemon u) : Command → (argv : List (List UInt8)) → Prop
  /-- The count is not a number, and the one that was never set is positive. -/
  | cycle {name count : List UInt8} {entry : FuseIoEntry u} (found : d.find name = some entry)
      (unparsed : (strtol count).2.1 ≠ []) (sent : (parseInt s env.times count).1.1 = 0) (positive : 0 < env.times) :
      ActsRefused env s d .cycle [name, count]
  /-- The number of reserved blocks is not a number, and the size is accepted without any. -/
  | resize {name size reserved : List UInt8} {entry : FuseIoEntry u} (found : d.find name = some entry)
      (parsed : (strtol size).2.1 = []) (unparsed : (strtol reserved).2.1 ≠ [])
      (sent : (parseInt s 0 reserved).1.1 = 0)
      (accepts : Accepts (u.params entry.c) (entry.io.attach d.b) (toInt (strtol size).1) 0) :
      ActsRefused env s d .resize [name, size, reserved]

/-- If the first response is a refusal, the daemon is unchanged unless `acts`. -/
def Refuses (acts : Prop) (d : Daemon u) (answers : List Answer) (d' : Daemon u) : Prop :=
  ∃ a more, answers = a :: more ∧ (a.err = true → (Unchanged d d' ↔ ¬ acts))

theorem Once.refuses {acts : Prop} {answers : List Answer} (once : Plainly d answers d') (idle : ¬ acts) :
    Refuses acts d answers d' := by
  obtain ⟨-, a, rfl, -, same⟩ := once
  refine ⟨a, [], rfl, fun refused => iff_of_true ?_ idle⟩
  rw [same refused]
  exact .refl d

theorem Told.refuses {acts spoiled : Prop} {answers : List Answer} (told : Told spoiled d answers d') (idle : ¬ acts) :
    Refuses acts d answers d' := by
  obtain ⟨-, a, rfl, -, rfl⟩ := told
  exact ⟨a, [], rfl, fun _ => iff_of_true (.refl _) idle⟩

theorem uncounted_refuses {count : List UInt8} {answers : List Answer} (wf : WellFormed d)
    (found : d.find name = some entry) (unparsed : (strtol count).2.1 ≠ [])
    (uncounted : Uncounted env s d entry count answers d') :
    Refuses (ActsRefused env s d .cycle [name, count]) d answers d' := by
  cases uncounted with
  | @stopped a b err before =>
    refine ⟨a, [b], rfl, fun _ => iff_of_true (.refl d) ?_⟩
    rintro ⟨found, unparsed, sent, positive⟩
    rcases before with failed | negative
    · exact failed sent
    · omega
  | @turned a b _ err positive sent turned =>
    refine ⟨a, [b], rfl, fun _ => ?_⟩
    obtain ⟨tape, rest, l, ran, rfl⟩ := turned
    rw [unchanged_putIo_iff wf found]
    have seqno := (cycleTurns_seqno ..).of_done ran
    change l.dev.j.seqno = entry.io.l.dev.j.seqno + env.times.toNat at seqno
    by_cases zero : env.times = 0
    · refine iff_of_true ?_ ?_
      · rw [zero] at ran
        cases ran
        exact ⟨rfl, rfl⟩
      · rintro ⟨-, -, -, positive⟩
        omega
    · refine iff_of_false (fun ⟨same, _⟩ => ?_) (not_not.mpr (.cycle found unparsed sent (by omega)))
      have juggler : l.dev.j = entry.io.l.dev.j := congrArg Kept.j same
      rw [juggler] at seqno
      omega

theorem unsized_refuses {size reserved : List UInt8} {answers : List Answer} (wf : WellFormed d)
    (found : d.find name = some entry) (unparsed : (strtol size).2.1 ≠ [] ∨ (strtol reserved).2.1 ≠ [])
    (unsized : Unsized env s d entry size reserved answers d') :
    Refuses (ActsRefused env s d .resize [name, size, reserved]) d answers d' := by
  cases unsized with
  | @kept a b more err before =>
    refine ⟨a, b :: more, rfl, fun _ => iff_of_true (.refl d) ?_⟩
    rintro (_ | ⟨found', parsed, unparsed', sent, accepts⟩)
    cases found.symm.trans found'
    rcases before with unsized | failed | ⟨format, io, tape, rest, ran⟩
    · exact unsized parsed
    · exact failed sent
    · have refused := ((resize_answer ..).of_done ran).mpr accepts
      cases refused
  | @resized a b io err parsed sent resized =>
    refine ⟨a, [b], rfl, fun _ => ?_⟩
    obtain ⟨tape, rest, ran⟩ := resized
    rw [unchanged_putIo_iff wf found]
    have accepts := ((resize_answer ..).of_done ran).mp rfl
    have grown := resize_noMacroblocks ran
    change entry.io.l.dev.noMacroblocks < io.l.dev.noMacroblocks at grown
    refine iff_of_false (fun ⟨same, _⟩ => ?_)
      (not_not.mpr (.resize found parsed (unparsed.resolve_left (not_not.mpr parsed)) sent accepts))
    have count : io.l.dev.noMacroblocks = entry.io.l.dev.noMacroblocks := congrArg Kept.noMacroblocks same
    omega

theorem runCommand_refuses {command : Command} {argv : List (List UInt8)} (wf : WellFormed d)
    (clean : ∀ arg ∈ argv, newline ∉ arg) (notOpen : command ≠ .openInternal) (notCreate : command ≠ .createInternal) :
    Replies s (runCommand env s d command argv) (Refuses (ActsRefused env s d command argv) d) := by
  unfold runCommand
  split
  · exact (controlStaticInfo_replies wf).mono fun _ _ told => told.refuses nofun
  · exact (controlExit_replies wf).mono fun _ _ once => once.refuses nofun
  · exact (controlStatus_replies wf).mono fun _ _ once => once.refuses nofun
  · next name value =>
    exact (controlSetReadonly_replies wf (clean name (by simp))).mono fun _ _ once => once.refuses nofun
  · next name value =>
    exact (controlSetCloseOnRelease_replies wf (clean name (by simp))).mono fun _ _ once => once.refuses nofun
  · next name =>
    exact (controlCheckAvailable_replies wf (clean name (by simp))).mono fun _ _ once => once.refuses nofun
  · next name count =>
    refine (controlCycle_replies wf (clean name (by simp))).mono fun answers d' => ?_
    rintro ⟨-, ⟨fine, once⟩ | ⟨entry, found, unparsed, uncounted⟩⟩
    · refine once.refuses ?_
      rintro ⟨found, unparsed, -, -⟩
      exact fine.elim (fun absent => by cases absent.symm.trans found) unparsed
    · exact uncounted_refuses wf found unparsed uncounted
  · next name =>
    exact (controlVerboseJuggler_replies wf (clean name (by simp))).mono fun _ _ once => once.refuses nofun
  · exact (controlCheckDataIntegrity_replies wf).mono fun _ _ once => once.refuses nofun
  · exact absurd rfl notOpen
  · next name =>
    exact (controlInfo_replies wf (clean name (by simp))).mono fun _ _ once => once.refuses nofun
  · next name key =>
    exact (controlGetAux_replies wf (clean name (by simp)) (clean key (by simp))).mono fun _ _ told =>
      told.refuses nofun
  · next name key value =>
    exact (controlSetAux_replies wf (clean name (by simp)) (clean key (by simp)) (clean value (by simp))).mono
      fun _ _ once => once.refuses nofun
  · exact absurd rfl notCreate
  · exact (controlHelp_replies wf).mono fun _ _ once => once.refuses nofun
  · next name =>
    exact (controlClose_replies wf (clean name (by simp))).mono fun _ _ once => once.refuses nofun
  · next name size reserved =>
    refine (controlResize_replies wf (clean name (by simp))).mono fun answers d' => ?_
    rintro ⟨-, ⟨fine, once⟩ | ⟨entry, found, idle, unparsed, unsized⟩⟩
    · refine once.refuses ?_
      rintro (_ | ⟨found, parsed, unparsed, sent, accepts⟩)
      rcases fine _ found with inuse | ⟨-, parsed'⟩
      · exact absurd (accepts.1.symm.trans inuse) (by decide)
      · exact unparsed parsed'
    · exact unsized_refuses wf found unparsed unsized
  · exact .raise trivial

/-- The first bytes of the first response tell whether it is a refusal. -/
theorem Answered.refused {a : Answer} {more : List Answer} {bytes : List UInt8} (answered : Answered s s' (a :: more))
    (sent : s'.sent = s.sent ++ bytes) (status : ascii "ERR\n" <+: bytes) : a.err = true := by
  obtain ⟨part, same, prefixed⟩ := answered.emits.part
  cases append_cancel_left (sent.symm.trans same)
  have whole := status.trans prefixed
  rw [flatMap_cons, Answer.bytes_eq, cons_append, encodeLines_cons, append_assoc] at whole
  cases err : a.err with
  | true => rfl
  | false =>
    rw [err] at whole
    exact absurd (cons_prefix_cons.mp whole).1 (by decide)

/-- A call whose first response is a refusal. -/
def Refused (s s' : Socket) : Prop := ∃ bytes, s'.sent = s.sent ++ bytes ∧ ascii "ERR\n" <+: bytes

/-- The line refuses a number and acts all the same. -/
def ActsThough (env : Env) (s : Socket) (d : Daemon u) (line : List UInt8) : Prop :=
  ∃ command argv, called line = some (command, argv) ∧ ActsRefused env s d command argv

/-- A refused command leaves the daemon unchanged unless it goes on with a number that it refused. -/
theorem refused_unchanged_iff {ret : ℤ} {tape rest : List ℕ} (wf : WellFormed d) (clean : newline ∉ line)
    (other : ∀ argv, called line ≠ some (.openInternal, argv) ∧ called line ≠ some (.createInternal, argv))
    (ran : (controlCall env s d line).run tape = .done (ret, s', d') rest) (refused : Refused s s') :
    Unchanged d d' ↔ ¬ ActsThough env s d line := by
  have replies : Replies s (controlCall env s d line) (Refuses (ActsThough env s d line) d) := by
    refine controlCall_replies clean (fun answers none plainly => (plainly wf).refuses ?_) fun command argv called' argsClean => ?_
    · rintro ⟨command, argv, some, -⟩
      cases none.symm.trans some
    · have same : ActsThough env s d line ↔ ActsRefused env s d command argv := by
        refine ⟨fun ⟨command', argv', called'', acts⟩ => ?_, fun acts => ⟨command, argv, called', acts⟩⟩
        cases called'.symm.trans called''
        exact acts
      rw [same]
      exact runCommand_refuses wf argsClean (fun is => (other argv).1 (is ▸ called')) fun is => (other argv).2 (is ▸ called')
  obtain ⟨_, answered, a, more, rfl, unchanged⟩ := replies.of_done ran
  obtain ⟨bytes, sent, status⟩ := refused
  exact unchanged (answered.refused sent status)

/-- There is nothing to do. -/
theorem refused_unchanged_iff_nothing : Unchanged Daemon.unsized Daemon.unsized ↔
    ¬ ActsThough { fuel := 0, addr := 0, times := 0 } { accepts := fun _ => 3 } Daemon.unsized
      (ascii "resize-internal a 0 0") := by
  have ran : (controlCall { fuel := 0, addr := 0, times := 0 } { accepts := fun _ => 3 } Daemon.unsized
      (ascii "resize-internal a 0 0")).run [] = .done (0, {
        accepts := fun _ => 3
        sends := 8
        sent := response true [ascii "nothing to do"] }, Daemon.unsized) [] := rfl
  have called : called (ascii "resize-internal a 0 0") = some (.resize, [ascii "a", ascii "0", ascii "0"]) := by decide
  exact refused_unchanged_iff wellFormed_unsized (by decide) (fun argv => by rw [called]; exact ⟨nofun, nofun⟩) ran
    ⟨_, rfl, by decide⟩

/-- The number of reserved blocks is not a number: the partition grows after the refusal. -/
theorem resize_refused_and_done : ∃ s' d',
    (controlCall { fuel := 4, addr := 0, times := 0 } { accepts := fun _ => 100 } Daemon.unsized
      (ascii "resize-internal a 1 x")).run [0, 0, 0] = .done (0, s', d') [] ∧
    Refused { accepts := fun _ => 100 } s' ∧ ¬ Unchanged Daemon.unsized d' := by
  refine ⟨{
    accepts := fun _ => 100
    sends := 4
    sent := response true [ascii "unable to parse ->x<-", []] ++ response false [] }, _, rfl,
    ⟨_, rfl, by decide +kernel⟩, fun same => ?_⟩
  have counts := congrArg (List.map Kept.noMacroblocks) same.partitions
  revert counts
  decide +kernel

end Scubed3.Control
