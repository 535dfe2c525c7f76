import Scubed3.Server.Handlers
import Mathlib.Data.List.Forall2

/-! # One command, one response

The client takes the k-th response for the one to its k-th command. That is right as long as every command is
answered by exactly one response. An unparsable number is answered twice; a mount point or a version with
a line that is a single dot ends its response early. Apart from these, it holds for every command.
-/

namespace Scubed3.Control

open List

variable {u : Setup} {s s₁ s' : Socket} {d d' : Daemon u} {env : Env} {entry : FuseIoEntry u} {name : List UInt8}

/-! ## All commands -/

/-- The commands that are not answered by exactly one response. -/
inductive Desynchronises (d : Daemon u) : Command → (argv : List (List UInt8)) → Prop
  /-- The version or the path of the file system contains a line with a single dot. -/
  | staticInfo {argv : List (List UInt8)} (spoiled : dot ∈ textLines (staticInfo u)) :
      Desynchronises d .staticInfo argv
  /-- The mount point is a single dot. -/
  | getAux {name key : List UInt8} (spoiled : DotMounted d name key) : Desynchronises d .getAux [name, key]
  /-- The count is not a number. -/
  | cycle {name count : List UInt8} {entry : FuseIoEntry u} (found : d.find name = some entry)
      (unparsed : (strtol count).2.1 ≠ []) : Desynchronises d .cycle [name, count]
  /-- One of the sizes is not a number. -/
  | resize {name size reserved : List UInt8} {entry : FuseIoEntry u} (found : d.find name = some entry)
      (idle : entry.io.inuse = false) (unparsed : (strtol size).2.1 ≠ [] ∨ (strtol reserved).2.1 ≠ []) :
      Desynchronises d .resize [name, size, reserved]

/-- There is one response, and no line of it is a dot. -/
def Single (answers : List Answer) : Prop := ∃ a, answers = [a] ∧ dot ∉ a.lines

theorem Once.single {refused : Daemon u → Prop} {answers : List Answer} {bad : Prop} (once : Once refused answers d')
    (good : ¬ bad) : WellFormed d' ∧ (Single answers ↔ ¬ bad) := by
  obtain ⟨wf, a, same, plain, -⟩ := once
  exact ⟨wf, iff_of_true ⟨a, same, plain⟩ good⟩

theorem Told.single {spoiled bad : Prop} {answers : List Answer} (told : Told spoiled d answers d')
    (same : bad ↔ spoiled) : WellFormed d' ∧ (Single answers ↔ ¬ bad) := by
  obtain ⟨wf, a, rfl, spoils, -⟩ := told
  refine ⟨wf, ?_⟩
  rw [same, ← spoils]
  exact ⟨fun ⟨b, one, plain⟩ => by cases one; exact plain, fun plain => ⟨a, rfl, plain⟩⟩

theorem not_single {a b : Answer} {more : List Answer} : ¬ Single (a :: b :: more) := nofun

theorem runCommand_single {command : Command} {argv : List (List UInt8)} (oneLine : OneLine u.gcrypt)
    (wf : WellFormed d) (clean : ∀ arg ∈ argv, newline ∉ arg) :
    Replies s (runCommand env s d command argv) fun answers d' =>
      WellFormed d' ∧ (Single answers ↔ ¬ Desynchronises d command argv) := by
  unfold runCommand
  split
  · exact (controlStaticInfo_replies wf).mono fun _ _ told =>
      told.single ⟨fun | .staticInfo spoiled => spoiled, .staticInfo⟩
  · exact (controlExit_replies wf).mono fun _ _ once => once.single nofun
  · exact (controlStatus_replies wf).mono fun _ _ once => once.single nofun
  · next name value =>
    exact (controlSetReadonly_replies wf (clean name (by simp))).mono fun _ _ once => once.single nofun
  · next name value =>
    exact (controlSetCloseOnRelease_replies wf (clean name (by simp))).mono fun _ _ once => once.single nofun
  · next name =>
    exact (controlCheckAvailable_replies wf (clean name (by simp))).mono fun _ _ once => once.single nofun
  · next name count =>
    refine (controlCycle_replies wf (clean name (by simp))).mono fun answers d' => ?_
    rintro ⟨wf', ⟨fine, once⟩ | ⟨entry, found, unparsed, uncounted⟩⟩
    · refine once.single ?_
      rintro (_ | _ | ⟨found, unparsed⟩)
      exact fine.elim (fun absent => by cases absent.symm.trans found) unparsed
    · refine ⟨wf', iff_of_false ?_ (not_not.mpr (.cycle found unparsed))⟩
      cases uncounted with
      | stopped => exact not_single
      | turned => exact not_single
  · next name =>
    exact (controlVerboseJuggler_replies wf (clean name (by simp))).mono fun _ _ once => once.single nofun
  · exact (controlCheckDataIntegrity_replies wf).mono fun _ _ once => once.single nofun
  · next name spec key =>
    exact (controlOpenCreateCommon_replies oneLine wf (clean name (by simp)) (clean spec (by simp))).mono
      fun _ _ once => once.single nofun
  · next name =>
    exact (controlInfo_replies wf (clean name (by simp))).mono fun _ _ once => once.single nofun
  · next name key =>
    exact (controlGetAux_replies wf (clean name (by simp)) (clean key (by simp))).mono fun _ _ told =>
      told.single ⟨fun | .getAux spoiled => spoiled, .getAux⟩
  · next name key value =>
    exact (controlSetAux_replies wf (clean name (by simp)) (clean key (by simp)) (clean value (by simp))).mono
      fun _ _ once => once.single nofun
  · next name spec key =>
    exact (controlOpenCreateCommon_replies oneLine wf (clean name (by simp)) (clean spec (by simp))).mono
      fun _ _ once => once.single nofun
  · exact (controlHelp_replies wf).mono fun _ _ once => once.single nofun
  · next name =>
    exact (controlClose_replies wf (clean name (by simp))).mono fun _ _ once => once.single nofun
  · next name size reserved =>
    refine (controlResize_replies wf (clean name (by simp))).mono fun answers d' => ?_
    rintro ⟨wf', ⟨fine, once⟩ | ⟨entry, found, idle, unparsed, unsized⟩⟩
    · refine once.single ?_
      rintro (_ | _ | _ | ⟨found, idle, unparsed⟩)
      rcases fine _ found with inuse | ⟨sized, parsed⟩
      · simp [idle] at inuse
      · exact unparsed.elim (· sized) (· parsed)
    · refine ⟨wf', iff_of_false ?_ (not_not.mpr (.resize found idle unparsed))⟩
      cases unsized with
      | kept => exact not_single
      | resized => exact not_single
  · exact .raise trivial

/-- The command that a line calls, with its arguments. -/
def called (line : List UInt8) : Option (Command × List (List UInt8)) :=
  match splitArgs maxArgc (line.takeWhile (· ≠ 0)) with
  | none => none
  | some argv =>
    if argv.length = 1 ∧ argv.headD [] = [] then none
    else match commandTable.find? (·.key = argv.headD []) with
      | none => none
      | some cmnd => if argv.length - 1 ≠ cmnd.argc then none else some (cmnd.command, argv.tail)

theorem subset_of_splitArgs {room : ℕ} {line : List UInt8} {argv : List (List UInt8)}
    (split : splitArgs room line = some argv) : ∀ arg ∈ argv, arg ⊆ line := by
  induction room generalizing line argv with
  | zero => cases split
  | succ room ih =>
    have trimmed : line.dropWhile (· = 32) ⊆ line := (dropWhile_sublist _).subset
    have first : (line.dropWhile (· = 32)).takeWhile (· ≠ 32) ⊆ line :=
      List.Subset.trans (takeWhile_sublist _).subset trimmed
    have others : ((line.dropWhile (· = 32)).dropWhile (· ≠ 32)).dropWhile (· = 32) ⊆ line :=
      List.Subset.trans ((dropWhile_sublist _).trans (dropWhile_sublist _)).subset trimmed
    unfold splitArgs at split
    dsimp only at split
    split at split
    · cases split
      intro arg member
      rwa [mem_singleton.mp member]
    · obtain ⟨argv', later, rfl⟩ := Option.map_eq_some_iff.mp split
      intro arg member
      rcases mem_cons.mp member with rfl | member
      · exact first
      · exact List.Subset.trans (ih later arg member) others

variable {line : List UInt8}

/-- What is not a call of a command is answered at once. -/
theorem controlCall_replies {post : List Answer → Daemon u → Prop} (clean : newline ∉ line)
    (uncalled : ∀ answers, called line = none → (WellFormed d → Plainly d answers d) → post answers d)
    (call : ∀ command argv, called line = some (command, argv) → (∀ arg ∈ argv, newline ∉ arg) →
      Replies s (runCommand env s d command argv) post) :
    Replies s (controlCall env s d line) post := by
  unfold controlCall
  cases split : splitArgs maxArgc (line.takeWhile (· ≠ 0)) with
  | none =>
    exact .complete (uncalled _ (by rw [called, split]) fun wf => .text wf (by decide) true)
  | some argv =>
    have argsClean : ∀ arg ∈ argv, newline ∉ arg := fun arg member inArg =>
      clean ((takeWhile_sublist _).subset (subset_of_splitArgs split arg member inArg))
    have nameClean : newline ∉ argv.headD [] := by
      cases argv with
      | nil => exact not_mem_nil
      | cons name argv => exact argsClean name mem_cons_self
    dsimp only
    split
    · next empty => exact .silent (uncalled _ (by rw [called, split]; exact if_pos empty) .silent)
    next named =>
    cases look : commandTable.find? (·.key = argv.headD []) with
    | none =>
      refine .complete (uncalled _ ?_ fun wf => .text wf (plain_format1 (by decide) (by decide) nameClean) true)
      simp only [called, split, if_neg named, look]
    | some cmnd =>
      dsimp only
      split
      · next arity =>
        refine .complete (uncalled _ ?_ fun wf => .text wf (plain_printf (by decide) (by decide) fun arg member => ?_) true)
        · simp only [called, split, if_neg named, look, if_pos arity]
        · simp only [mem_cons, not_mem_nil, or_false] at member
          have usage : ∀ cmnd ∈ commandTable, newline ∉ cmnd.usage := by decide +kernel
          rcases member with rfl | rfl
          · exact nameClean
          · exact usage cmnd (mem_of_find?_eq_some look)
      · next arity =>
        refine call _ _ ?_ fun arg member => argsClean arg (mem_of_mem_tail member)
        simp only [called, split, if_neg named, look, if_neg arity]

theorem controlCall_single (oneLine : OneLine u.gcrypt) (wf : WellFormed d) (clean : newline ∉ line) :
    Replies s (controlCall env s d line) fun answers d' => WellFormed d' ∧
      (Single answers ↔ ¬ ∃ command argv, called line = some (command, argv) ∧ Desynchronises d command argv) := by
  refine controlCall_replies clean (fun answers none plainly => (plainly wf).single ?_) fun command argv some argsClean => ?_
  · rintro ⟨command, argv, some, -⟩
    cases none.symm.trans some
  · refine (runCommand_single oneLine wf argsClean).mono fun answers d' => ?_
    rintro ⟨wf', single⟩
    refine ⟨wf', single.trans (not_congr ⟨fun bad => ⟨command, argv, some, bad⟩, ?_⟩)⟩
    rintro ⟨command', argv', same, bad⟩
    cases some.symm.trans same
    exact bad

/-- No response is the beginning of another one. -/
theorem isResponse_prefix {bytes bytes' rest rest' : List UInt8} (first : IsResponse bytes)
    (first' : IsResponse bytes') (same : bytes ++ rest = bytes' ++ rest') : bytes = bytes' ∧ rest = rest' := by
  suffices equal : bytes = bytes' by
    subst equal
    exact ⟨rfl, append_cancel_left same⟩
  -- the lines up to the first dot
  have upToDot {bytes : List UInt8} (first : IsResponse bytes) (rest : List UInt8) : bytes = encodeLines newline
      (((splitLines newline (bytes ++ rest)).1.takeWhile (· ≠ dot)) ++ [dot]) := by
    obtain ⟨err, lines, plain, rfl⟩ := first
    have noNewline : ∀ line ∈ statusLine err :: lines ++ [dot], newline ∉ line := by
      intro line member
      simp only [cons_append, mem_cons, mem_append, not_mem_nil, or_false] at member
      rcases member with rfl | member | rfl
      · exact (statusLine_plain err).1
      · exact (plain line member).1
      · decide
    have noDot : ∀ line ∈ statusLine err :: lines, decide (line ≠ dot) = true := by
      intro line member
      rcases mem_cons.mp member with rfl | member
      · exact decide_eq_true (statusLine_plain err).2
      · exact decide_eq_true (plain line member).2
    rw [response, splitLines_encodeLines noNewline, append_assoc, takeWhile_append_of_pos noDot, singleton_append,
      takeWhile_cons_of_neg (by simp), append_nil]
  rw [upToDot first rest, same, ← upToDot first' rest']

/-- A stream of responses can be cut in one way only. -/
theorem responses_unique {responses responses' : List (List UInt8)} (each : ∀ r ∈ responses, IsResponse r)
    (each' : ∀ r ∈ responses', IsResponse r) (same : responses.flatten = responses'.flatten) :
    responses = responses' := by
  have nonempty {r : List UInt8} (isResponse : IsResponse r) : r ≠ [] := by
    obtain ⟨err, lines, -, rfl⟩ := isResponse
    rw [response, cons_append, encodeLines_cons]
    simp
  induction responses generalizing responses' with
  | nil =>
    cases responses' with
    | nil => rfl
    | cons r' rest' => exact absurd (append_eq_nil_iff.mp same.symm).1 (nonempty (each' r' mem_cons_self))
  | cons r rest ih =>
    cases responses' with
    | nil => exact absurd (append_eq_nil_iff.mp same).1 (nonempty (each r mem_cons_self))
    | cons r' rest' =>
      obtain ⟨rfl, later⟩ := isResponse_prefix (each r mem_cons_self) (each' r' mem_cons_self) same
      rw [ih (fun r member => each r (mem_cons_of_mem _ member)) (fun r member => each' r (mem_cons_of_mem _ member))
        later]

/-! ## Sessions -/

/-- The line cannot be answered by exactly one response. -/
def Desynchronised (d : Daemon u) (line : List UInt8) : Prop :=
  ∃ command argv, called line = some (command, argv) ∧ Desynchronises d command argv

/-- One call of `control_call`. -/
structure Exchange (u : Setup) where
  before : Socket
  daemon : Daemon u
  line : List UInt8
  after : Socket

/-- What a client and the daemon have exchanged. -/
inductive Session : Socket → Daemon u → List (Exchange u) → Socket → Daemon u → Prop
  | refl {s : Socket} {d : Daemon u} : Session s d [] s d
  | call {s s₁ s' : Socket} {d d₁ d' : Daemon u} {line : List UInt8} {env : Env} {tape rest : List ℕ} {ret : ℤ}
      {exchanges : List (Exchange u)} (clean : newline ∉ line)
      (ran : (controlCall env s d line).run tape = .done (ret, s₁, d₁) rest) (later : Session s₁ d₁ exchanges s' d') :
      Session s d (⟨s, d, line, s₁⟩ :: exchanges) s' d'

theorem Session.broken {exchanges : List (Exchange u)} (session : Session s d exchanges s' d')
    (oneLine : OneLine u.gcrypt) (wf : WellFormed d) : s.broken = true → s'.broken = true := by
  induction session with
  | refl => exact id
  | call clean ran later ih =>
    obtain ⟨answers, answered, wf', -⟩ := (controlCall_single oneLine wf clean).of_done ran
    exact ih wf' ∘ answered.emits.broken

/-- What one call sends, if all of it is sent. -/
theorem Session.call_iff {line : List UInt8} {ret : ℤ} {tape rest : List ℕ} (oneLine : OneLine u.gcrypt)
    (wf : WellFormed d) (clean : newline ∉ line)
    (ran : (controlCall env s d line).run tape = .done (ret, s', d') rest) (whole : s'.broken = false) :
    WellFormed d' ∧ ((∃ bytes, s'.sent = s.sent ++ bytes ∧ IsResponse bytes) ↔ ¬ Desynchronised d line) := by
  obtain ⟨answers, answered, wf', single⟩ := (controlCall_single oneLine wf clean).of_done ran
  refine ⟨wf', Iff.trans ?_ ((isResponse_iff answered.clean).trans single)⟩
  rw [answered.emits.sent whole]
  exact ⟨fun ⟨bytes, same, isResponse⟩ => append_cancel_left same ▸ isResponse, fun isResponse => ⟨_, rfl, isResponse⟩⟩

/-- The bytes that a call has sent are a response. -/
def Exchange.Sent (e : Exchange u) (bytes : List UInt8) : Prop :=
  e.after.sent = e.before.sent ++ bytes ∧ IsResponse bytes

theorem isResponse_of_sent {exchanges : List (Exchange u)} {responses : List (List UInt8)}
    (sent : Forall₂ Exchange.Sent exchanges responses) : ∀ r ∈ responses, IsResponse r := by
  induction sent with
  | nil => nofun
  | cons first _ ih => exact forall_mem_cons.mpr ⟨first.2, ih⟩

/-- Every call sends exactly one response unless it cannot, and the client can tell the responses apart. -/
theorem one_command_one_response {exchanges : List (Exchange u)} (oneLine : OneLine u.gcrypt) (wf : WellFormed d)
    (session : Session s d exchanges s' d') (whole : s'.broken = false) :
    (∀ e ∈ exchanges, (∃ bytes, e.Sent bytes) ↔ ¬ Desynchronised e.daemon e.line) ∧
    ((∀ e ∈ exchanges, ¬ Desynchronised e.daemon e.line) → ∃ responses,
      Forall₂ Exchange.Sent exchanges responses ∧
      s'.sent = s.sent ++ responses.flatten ∧
      ∀ others, (∀ r ∈ others, IsResponse r) → others.flatten = responses.flatten → others = responses) := by
  induction session with
  | refl =>
    refine ⟨nofun, fun _ => ⟨[], .nil, (append_nil _).symm, fun others each same => ?_⟩⟩
    exact responses_unique each nofun same
  | @call s s₁ s' d d₁ d' line env tape rest ret exchanges clean ran later ih =>
    have wholeFirst : s₁.broken = false := by
      cases state : s₁.broken with
      | false => rfl
      | true =>
        obtain ⟨answers, answered, wf', -⟩ := (controlCall_single oneLine wf clean).of_done ran
        rw [later.broken oneLine wf' state] at whole
        cases whole
    obtain ⟨wf', first⟩ := Session.call_iff oneLine wf clean ran wholeFirst
    obtain ⟨each, framed⟩ := ih wf' whole
    refine ⟨fun e member => ?_, fun fine => ?_⟩
    · rcases mem_cons.mp member with rfl | member
      · exact first
      · exact each e member
    · obtain ⟨bytes, sent, isResponse⟩ := first.mpr (fine _ mem_cons_self)
      obtain ⟨responses, matched, sentLater, -⟩ := framed fun e member => fine e (mem_cons_of_mem _ member)
      have all : Forall₂ Exchange.Sent (⟨s, d, line, s₁⟩ :: exchanges) (bytes :: responses) :=
        .cons ⟨sent, isResponse⟩ matched
      refine ⟨bytes :: responses, all, ?_, fun others each => responses_unique each (isResponse_of_sent all)⟩
      rw [sentLater, sent, flatten_cons, append_assoc]

theorem oneLine_smallest (total : ℕ) (few : total ≤ 1984) : OneLine (Setup.smallest total few).gcrypt := by
  rintro _ _ _ ⟨⟩
  exact not_mem_nil

theorem wellFormed_unsized : WellFormed Daemon.unsized where
  names entry member := by
    rw [mem_singleton.mp member]
    decide
  mountpoints entry member := by
    rw [mem_singleton.mp member]
    nofun
  distinct := nodup_singleton _

/-- A resize that is refused once. -/
theorem one_command_one_response_resize : ∃ s', (∃ d', Session { accepts := fun _ => 3 } Daemon.unsized
      [⟨{ accepts := fun _ => 3 }, Daemon.unsized, ascii "resize-internal a 0 0", s'⟩] s' d') ∧
    ((∃ bytes, s'.sent = [] ++ bytes ∧ IsResponse bytes) ↔
      ¬ Desynchronised Daemon.unsized (ascii "resize-internal a 0 0")) := by
  have ran : (controlCall { fuel := 0, addr := 0, times := 0 } { accepts := fun _ => 3 } Daemon.unsized
      (ascii "resize-internal a 0 0")).run [] = .done (0, {
        accepts := fun _ => 3
        sends := 8
        sent := response true [ascii "nothing to do"] }, Daemon.unsized) [] := rfl
  have session := Session.call (by decide) ran .refl
  exact ⟨_, ⟨_, session⟩, (one_command_one_response (oneLine_smallest 1 (by decide)) wellFormed_unsized session rfl).1
    _ mem_cons_self⟩

/-- The size is not a number: the refusal is followed by another one. -/
theorem resize_answered_twice : ∃ s', (controlCall { fuel := 0, addr := 0, times := 0 } { accepts := fun _ => 3 }
      Daemon.unsized (ascii "resize-internal a x 0")).run [] = .done (0, s', Daemon.unsized) [] ∧
    s'.broken = false ∧
    s'.sent = response true [ascii "unable to parse ->x<-", []] ++ response true [ascii "nothing to do"] ∧
    ¬ ∃ bytes, s'.sent = [] ++ bytes ∧ IsResponse bytes := by
  refine ⟨{
    accepts := fun _ => 3
    sends := 19
    sent := response true [ascii "unable to parse ->x<-", []] ++ response true [ascii "nothing to do"] },
    rfl, rfl, rfl, ?_⟩
  rintro ⟨bytes, same, isResponse⟩
  have clean : ∀ a ∈ [Answer.mk true [ascii "unable to parse ->x<-", []], ⟨true, [ascii "nothing to do"]⟩], a.Clean := by
    unfold Answer.Clean
    decide +kernel
  have both := isResponse_iff clean
  rw [nil_append] at same
  rw [← same] at isResponse
  obtain ⟨a, single, -⟩ := both.mp isResponse
  cases single

end Scubed3.Control
