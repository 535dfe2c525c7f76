import Scubed3.Device.Resize
import Scubed3.Server.Answers

/-! # What each handler sends

One lemma for each handler: its responses, and the daemon that it leaves. Most handlers send one response and
change nothing when they refuse. An unparsable number makes `parse_int` send a refusal, and the handler
goes on; a text that the handler does not know may end its response early.
-/

namespace Scubed3.Control

open List

variable {u : Setup} {s s₁ s' : Socket} {d d' : Daemon u} {env : Env}

/-! ## The table of partitions -/

/-- Names and mount points came with commands, and no name is taken twice. -/
structure WellFormed (d : Daemon u) : Prop where
  names : ∀ entry ∈ d.entries, newline ∉ entry.key
  mountpoints : ∀ entry ∈ d.entries, ∀ mountpoint ∈ entry.mountpoint, newline ∉ mountpoint
  distinct : (d.entries.map (·.key)).Nodup

variable {name : List UInt8} {entry old : FuseIoEntry u}

theorem find_eq_some (found : d.find name = some entry) : entry ∈ d.entries ∧ entry.key = name :=
  ⟨mem_of_find?_eq_some found, by simpa using find?_some found⟩

theorem put_keys (d : Daemon u) (entry : FuseIoEntry u) :
    (d.put entry).entries.map (·.key) = d.entries.map (·.key) := by
  rw [Daemon.put, map_map]
  refine map_congr_left fun other _ => ?_
  rw [Function.comp_apply]
  split
  · next same => exact same.symm
  · rfl

theorem mem_put {other : FuseIoEntry u} (member : other ∈ (d.put entry).entries) :
    other = entry ∨ other ∈ d.entries := by
  obtain ⟨stored, listed, rfl⟩ := mem_map.mp member
  split
  · exact .inl rfl
  · exact .inr listed

theorem WellFormed.put (wf : WellFormed d) (found : d.find name = some old) (key : entry.key = old.key)
    (mountpoint : ∀ mountpoint ∈ entry.mountpoint, newline ∉ mountpoint) : WellFormed (d.put entry) where
  names other member := by
    rcases mem_put member with rfl | listed
    · rw [key]
      exact wf.names old (find_eq_some found).1
    · exact wf.names other listed
  mountpoints other member := by
    rcases mem_put member with rfl | listed
    · exact mountpoint
    · exact wf.mountpoints other listed
  distinct := by
    rw [put_keys]
    exact wf.distinct

theorem WellFormed.putIo (wf : WellFormed d) (found : d.find name = some entry) (io : Entry) :
    WellFormed (d.putIo entry io) := by
  have moved : WellFormed { d with b := io.l.dev.b } := ⟨wf.names, wf.mountpoints, wf.distinct⟩
  exact moved.put found rfl (wf.mountpoints entry (find_eq_some found).1)

/-! ## The handlers -/

/-- One response, and what is left of the daemon if it is a refusal. -/
def Once (refused : Daemon u → Prop) (answers : List Answer) (d' : Daemon u) : Prop :=
  WellFormed d' ∧ ∃ a, answers = [a] ∧ dot ∉ a.lines ∧ (a.err = true → refused d')

/-- One response; a refusal changes nothing. -/
abbrev Plainly (d : Daemon u) : List Answer → Daemon u → Prop := Once (· = d)

theorem Plainly.text {text : List UInt8} (wf : WellFormed d) (plain : Plain text) (err : Bool) :
    Plainly d [.ofText err text] d :=
  ⟨wf, _, rfl, plain.ofText err, fun _ => rfl⟩

theorem Plainly.silent (wf : WellFormed d') : Plainly d [⟨false, []⟩] d' :=
  ⟨wf, _, rfl, not_mem_nil, nofun⟩

theorem Plainly.parts {lines : List (List UInt8)} (wf : WellFormed d) (plain : dot ∉ lines) :
    Plainly d [⟨false, lines⟩] d :=
  ⟨wf, _, rfl, plain, nofun⟩

theorem plain_format1 {format : List UInt8} {arg : List UInt8} (clean : newline ∉ format)
    (words : ∃ c ∈ literal format, c ≠ 46) (inArg : newline ∉ arg) : Plain (printf format [arg]) :=
  plain_printf clean words fun _ member => mem_singleton.mp member ▸ inArg

theorem notFound_replies (wf : WellFormed d) (clean : newline ∉ name) :
    Replies s (reply (notFound s name) d) (Plainly d) :=
  .complete (.text wf (plain_format1 (by decide) (by decide) clean) true)

theorem busy_replies (wf : WellFormed d) (clean : newline ∉ name) : Replies s (reply (busy s name) d) (Plainly d) :=
  .complete (.text wf (plain_format1 (by decide) (by decide) clean) true)

/-- A handler that looks up a partition first. -/
theorem found_replies {x : FuseIoEntry u → Draw Failure (ℤ × Socket × Daemon u)} (wf : WellFormed d)
    (clean : newline ∉ name) (found : ∀ entry, d.find name = some entry → Replies s (x entry) (Plainly d)) :
    Replies s (match d.find name with
      | none => reply (notFound s name) d
      | some entry => x entry) (Plainly d) := by
  cases look : d.find name with
  | none => exact notFound_replies wf clean
  | some entry => exact found entry look

theorem controlVerboseJuggler_replies (wf : WellFormed d) (clean : newline ∉ name) :
    Replies s (controlVerboseJuggler s d name) (Plainly d) :=
  found_replies wf clean fun _ _ => .complete (.text wf (by decide) false)

theorem controlCheckDataIntegrity_replies (wf : WellFormed d) :
    Replies s (controlCheckDataIntegrity s d) (Plainly d) :=
  .complete (.text wf (by decide) true)

theorem controlExit_replies (wf : WellFormed d) : Replies s (controlExit s d) (Plainly d) :=
  .pure ⟨_, answered_of_sends (a := ⟨false, []⟩) nofun (controlWriteString_sends s _), .silent wf⟩

theorem controlCheckAvailable_replies (wf : WellFormed d) (clean : newline ∉ name) :
    Replies s (controlCheckAvailable s d name) (Plainly d) := by
  unfold controlCheckAvailable
  split
  · exact .complete (.text wf (by decide) true)
  · split
    · exact .silent (.silent wf)
    · exact .complete (.text wf (plain_format1 (by decide) (by decide) clean) true)

theorem controlSetAux_replies {key value : List UInt8} (wf : WellFormed d) (clean : newline ∉ name)
    (keyClean : newline ∉ key) (valueClean : newline ∉ value) :
    Replies s (controlSetAux s d name key value) (Plainly d) := by
  refine found_replies wf clean fun entry found => ?_
  split
  · refine .silent (.silent (wf.put found rfl ?_))
    rintro _ ⟨⟩
    exact valueClean
  · exact .complete (.text wf (plain_format1 (by decide) (by decide) keyClean) true)

theorem controlSetReadonly_replies {value : List UInt8} (wf : WellFormed d) (clean : newline ∉ name) :
    Replies s (controlSetReadonly s d name value) (Plainly d) := by
  refine found_replies wf clean fun entry found => ?_
  split
  · exact busy_replies wf clean
  · split
    · next readonly _ =>
      exact .silent (.silent (wf.put found rfl
        (wf.mountpoints entry (find_eq_some found).1)))
    · exact .complete (.text wf (by decide) true)

theorem controlSetCloseOnRelease_replies {value : List UInt8} (wf : WellFormed d) (clean : newline ∉ name) :
    Replies s (controlSetCloseOnRelease s d name value) (Plainly d) := by
  refine found_replies wf clean fun entry found => ?_
  split
  · next closeOnRelease _ =>
    exact .silent (.silent (wf.put found rfl
      (wf.mountpoints entry (find_eq_some found).1)))
  · exact .complete (.text wf (by decide) true)

/-- A line with a label in front of a number. -/
theorem plain_labelled {label : List UInt8} (plain : newline ∉ label) (words : ∃ c ∈ label, c ≠ 46) (n : ℤ) :
    Plain (label ++ printInt n) := by
  obtain ⟨c, member, other⟩ := words
  refine ⟨?_, ne_dot_of_mem (mem_append_left _ member) other⟩
  rw [mem_append, not_or]
  exact ⟨plain, newline_not_mem_printInt n⟩

theorem controlInfo_replies (wf : WellFormed d) (clean : newline ∉ name) :
    Replies s (controlInfo s d name) (Plainly d) := by
  refine found_replies wf clean fun entry found => ?_
  dsimp only
  set lines := [ascii "no_macroblocks=" ++ printInt32 entry.io.l.dev.noMacroblocks,
      ascii "reserved_macroblocks=" ++ printInt32 entry.io.l.dev.reservedMacroblocks,
      ascii "writes=" ++ printInt32 entry.io.l.dev.writes] ++
    entry.io.l.dev.bi.toList.map (fun bi => ascii "no_indices=" ++ printInt32 (d.b.infos bi).noIndices) ++
    [ascii "updated=" ++ printInt (if entry.io.l.dev.updated then 1 else 0)] with linesEq
  have plain : ∀ line ∈ lines, Plain line := by
    intro line member
    simp only [linesEq, mem_append, mem_cons, not_mem_nil, or_false, mem_map] at member
    rcases member with ((rfl | rfl | rfl) | ⟨bi, -, rfl⟩) | rfl
    all_goals exact plain_labelled (by decide) (by decide) _
  exact .parts (fun line member => (plain line member).1) (.parts wf fun member => (plain dot member).2 rfl)

theorem newline_not_mem_printPadded (n : ℕ) : newline ∉ printPadded n := by
  rw [printPadded, mem_append, mem_replicate, not_or]
  exact ⟨fun ⟨_, same⟩ => absurd same (by decide), fun member => absurd (isDigit_of_mem_printNat member) (by decide)⟩

theorem newline_not_mem_printMib (n : ℕ) : newline ∉ printMib n := by
  have digits (n : ℕ) : newline ∉ printNat n := fun member => absurd (isDigit_of_mem_printNat member) (by decide)
  rw [printMib, mem_append, mem_cons, not_or, not_or]
  exact ⟨digits _, by decide, digits _⟩

theorem plain_statusOf (wf : WellFormed d) (member : entry ∈ d.entries) : Plain (statusOf entry) := by
  have flag (b : Bool) (text : String) (clean : newline ∉ ascii text) :
      newline ∉ ascii (if b then text else "") := by
    cases b with
    | false => exact not_mem_nil
    | true => exact clean
  refine plain_printf (by decide) (by decide) fun arg inArgs => ?_
  simp only [mem_cons, not_mem_nil, or_false] at inArgs
  rcases inArgs with rfl | rfl | rfl | rfl | rfl | rfl | rfl | rfl | rfl
  · exact newline_not_mem_printPadded _
  · exact wf.names entry member
  · exact newline_not_mem_printMib _
  · exact flag _ " [U]" (by decide)
  · exact flag _ " [C]" (by decide)
  · exact flag _ " [R]" (by decide)
  · exact flag _ " [MNT " (by decide)
  · cases stored : entry.mountpoint with
    | none => exact not_mem_nil
    | some mountpoint => exact wf.mountpoints entry member mountpoint stored
  · exact flag _ "]" (by decide)

theorem controlStatus_replies (wf : WellFormed d) : Replies s (controlStatus s d) (Plainly d) := by
  have padded (n : ℕ) {text : List UInt8} (clean : newline ∉ text) (words : ∃ c ∈ text, c ≠ 46) :
      Plain (printPadded n ++ text) := by
    obtain ⟨c, member, other⟩ := words
    refine ⟨?_, ne_dot_of_mem (mem_append_right _ member) other⟩
    rw [mem_append, not_or]
    exact ⟨newline_not_mem_printPadded n, clean⟩
  have plain : ∀ line ∈ d.entries.map statusOf ++ [printPadded (macroblocksLeft d) ++ ascii " blocks unclaimed",
      printPadded u.b.totalMacroblocks ++ ascii " blocks total"], Plain line := by
    intro line member
    simp only [mem_append, mem_cons, not_mem_nil, or_false, mem_map] at member
    rcases member with ⟨entry, listed, rfl⟩ | rfl | rfl
    · exact plain_statusOf wf listed
    · exact padded _ (by decide) (by decide)
    · exact padded _ (by decide) (by decide)
  exact .parts (fun line member => (plain line member).1) (.parts wf fun member => (plain dot member).2 rfl)

theorem controlHelp_replies (wf : WellFormed d) : Replies s (controlHelp s d) (Plainly d) := by
  have plain : ∀ line ∈ commandTable.map fun c => c.key ++ c.usage, Plain line := by decide +kernel
  exact .parts (fun line member => (plain line member).1) (.parts wf fun member => (plain dot member).2 rfl)

/-! ### Opening and closing -/

theorem WellFormed.congr (wf : WellFormed d) (same : d'.entries = d.entries) : WellFormed d' :=
  ⟨same ▸ wf.names, same ▸ wf.mountpoints, same ▸ wf.distinct⟩

theorem freer_entries (d : Daemon u) (opening : Opening u) :
    Draw.Yields (liftM (freer d opening) : Draw Failure (Daemon u)) fun d' => d'.entries = d.entries := by
  unfold freer
  split
  · exact .raise trivial
  · refine .lift (fun d' ran => ?_) fun _ _ => trivial
    obtain ⟨b, -, returned⟩ := Except.bind_eq_ok_iff.mp ran
    cases returned
    rfl

theorem WellFormed.filter (wf : WellFormed d) (keep : FuseIoEntry u → Bool) :
    WellFormed { d with entries := d.entries.filter keep } where
  names entry member := wf.names entry (mem_filter.mp member).1
  mountpoints entry member := wf.mountpoints entry (mem_filter.mp member).1
  distinct := (filter_sublist.map _).nodup wf.distinct

theorem controlClose_replies (wf : WellFormed d) (clean : newline ∉ name) :
    Replies s (controlClose s d name) (Plainly d) := by
  refine found_replies wf clean fun entry found => ?_
  split
  · exact busy_replies wf clean
  · refine .bind (freer_entries _ _) fun d' same => ?_
    exact .silent (.silent ((wf.filter _).congr same))

/-- Whatever goes wrong is explained in one line. -/
def Explains {α : Type} (x : Except (List UInt8) α) : Prop := ∀ message, x = .error message → Plain message

namespace Explains

variable {α β : Type}

theorem ok (a : α) : Explains (.ok a) := nofun

theorem ecchThrow {text : List UInt8} {c : UInt8} (clean : newline ∉ text) (first : text.head? = some c)
    (other : c ≠ 46) : Explains (ecchThrow text : Except (List UInt8) α) := by
  intro message failed
  obtain rfl : text.take 255 = message := Except.error.inj failed
  obtain ⟨rest, rfl⟩ := head?_eq_some_iff.mp first
  exact ⟨fun member => clean (mem_of_mem_take member), ne_dot_of_mem (mem_cons_self (a := c)) other⟩

theorem bind {x : Except (List UInt8) α} {f : α → Except (List UInt8) β} (first : Explains x)
    (next : ∀ a, Explains (f a)) : Explains (x >>= f) := by
  intro message failed
  cases x with
  | error text =>
    cases failed
    exact first _ rfl
  | ok a => exact next a message failed

end Explains

/-- The descriptions of errors that the library gives are single lines. -/
def OneLine (g : Gcrypt) : Prop := ∀ algo key text, g.setkey algo key = .error text → newline ∉ text

theorem openSetAndDestroyKey_explains {g : Gcrypt} (oneLine : OneLine g) {prim key : List UInt8}
    (clean : newline ∉ prim) : Explains (Cipher.openSetAndDestroyKey g prim key) := by
  unfold Cipher.openSetAndDestroyKey
  dsimp only
  split
  · refine .ecchThrow (c := 98) (not_mem_printf (by decide) fun arg member => ?_) rfl (by decide)
    rwa [mem_singleton.mp member]
  split
  · exact .ecchThrow (by decide) rfl (by decide)
  split
  · exact .ecchThrow (by decide) rfl (by decide)
  split
  · next text failed =>
    refine .ecchThrow (c := 103) (fun member => ?_) rfl (by decide)
    exact (mem_append.mp member).elim (by decide) (oneLine _ _ _ failed)
  · exact .ok _

theorem strchr_clean {string before after : List UInt8} {c : UInt8} (clean : newline ∉ string)
    (found : strchr string c = some (before, after)) : newline ∉ before := by
  unfold strchr at found
  split at found
  · cases found
  · cases found
    exact fun member => clean ((takeWhile_sublist _).subset member)

theorem strchr_clean_after {string before after : List UInt8} {c : UInt8} (clean : newline ∉ string)
    (found : strchr string c = some (before, after)) : newline ∉ after := by
  unfold strchr at found
  split at found
  · cases found
  · next rest =>
    cases found
    exact fun member => clean ((dropWhile_sublist _).subset (rest ▸ mem_cons_of_mem _ member))

theorem cipherInit_explains {g : Gcrypt} (oneLine : OneLine g) {noBlocks : ℕ} {spec key : List UInt8}
    (clean : newline ∉ spec) : Explains (Cipher.init g noBlocks spec key) := by
  unfold Cipher.init
  split
  · exact .ecchThrow (by decide) rfl (by decide)
  · next inside after parens =>
    have insideClean := strchr_clean clean parens
    split
    · exact .ecchThrow (by decide) rfl (by decide)
    split
    · exact .ecchThrow (by decide) rfl (by decide)
    · next mode prim named =>
      have primClean := strchr_clean_after insideClean named
      split
      · refine .ecchThrow (c := 99) (not_mem_printf (by decide) fun arg member => ?_) rfl (by decide)
        rw [mem_singleton.mp member]
        exact strchr_clean insideClean named
      · next specInit known =>
        unfold Cipher.specs at known
        simp only [lookup] at known
        split at known
        · cases known
          exact .ok _
        split at known
        · cases known
          exact (openSetAndDestroyKey_explains oneLine primClean).bind fun _ => .ok _
        split at known
        · cases known
          exact (openSetAndDestroyKey_explains oneLine primClean).bind fun _ =>
            (openSetAndDestroyKey_explains oneLine primClean).bind fun _ => .ok _
        · cases known

theorem openCipher_explains (oneLine : OneLine u.gcrypt) {ids : List Hash} {spec key : List UInt8}
    (clean : newline ∉ spec) : Explains (openCipher u ids spec key) := by
  unfold openCipher
  split
  · exact .ecchThrow (by decide) rfl (by decide)
  split
  · exact .ecchThrow (by decide) rfl (by decide)
  · next key _ =>
    refine .bind (fun message failed => ?_) fun c => ?_
    · unfold Setup.cipherInit at failed
      cases init : Cipher.init u.gcrypt (1 <<< (u.b.mesoblkLog - 4)) spec key with
      | error text =>
        rw [init] at failed
        cases failed
        exact cipherInit_explains oneLine clean _ init
      | ok c =>
        rw [init] at failed
        cases failed
    · dsimp only
      split
      · exact .ecchThrow (by decide) rfl (by decide)
      · exact .ok _

theorem openScan_explains (p : Params) (fuel : ℕ) (b : Blockio) (addr : ℕ) (add : Bool) :
    Draw.Yields (openScan p fuel b addr add) fun r => ∀ failed, r = .error failed → Plain failed.1 := by
  have existing : Plain (ascii "unable to create device: it already exists, use `open' instead") := by decide
  have missing : Plain (ascii "no blocks found: passphrase wrong?") := by decide
  unfold openScan
  refine .bind (m := fun _ => True) (.lift (fun _ _ => trivial) fun _ _ => trivial) fun dev _ => ?_
  split
  · exact .pure fun failed same => Except.error.inj same ▸ existing
  split
  · exact .pure fun failed same => Except.error.inj same ▸ missing
  · refine .of_forall_done fun tape r rest ran failed same => ?_
    simp only [Draw.bind_done_iff, Draw.run_pure, Outcome.done.injEq] at ran
    obtain ⟨_, _, _, _, _, _, _, _, _, returned, _⟩ := ran
    cases returned.trans same

/-- A partition that is opened gets the name that was checked. -/
theorem openTry_yields (oneLine : OneLine u.gcrypt) {spec key : List UInt8} {add : Bool} (clean : newline ∉ spec) :
    Draw.Yields (openTry env d name spec key add) fun
      | .ok entry => entry.key = name ∧ entry.mountpoint = none
      | .error failed => Plain failed.1 := by
  unfold openTry
  split
  · next message failed => exact .pure (openCipher_explains oneLine clean message failed)
  · next c id _ =>
    refine .bind (openScan_explains ..) fun r plain => ?_
    cases r with
    | error failed => exact .pure (plain failed rfl)
    | ok io => exact .pure ⟨rfl, rfl⟩

theorem mem_addElement {α : Type} {key : α → List UInt8} {elt other : α} {table : List α} :
    other ∈ addElement key elt table ↔ other = elt ∨ other ∈ table := by
  rw [addElement, mem_append, mem_cons]
  conv_rhs => rw [← takeWhile_append_dropWhile
    (p := fun other => getBucket (key other) < getBucket (key elt)) (l := table), mem_append]
  tauto

theorem addElement_perm {α : Type} (key : α → List UInt8) (elt : α) (table : List α) :
    (addElement key elt table).Perm (elt :: table) := by
  refine perm_middle.trans (.of_eq ?_)
  rw [takeWhile_append_dropWhile]

theorem WellFormed.add (wf : WellFormed d) (new : d.find entry.key = none) (clean : newline ∉ entry.key)
    (mountpoint : entry.mountpoint = none) (b : Blockio) (ids : List Hash) :
    WellFormed { b, ids, entries := addElement (·.key) entry d.entries } where
  names other member := by
    rcases mem_addElement.mp member with rfl | listed
    · exact clean
    · exact wf.names other listed
  mountpoints other member := by
    rcases mem_addElement.mp member with rfl | listed
    · rw [mountpoint]
      exact nofun
    · exact wf.mountpoints other listed
  distinct := by
    refine ((addElement_perm (·.key) entry d.entries).map (·.key)).nodup_iff.mpr ?_
    rw [map_cons, nodup_cons]
    refine ⟨fun member => ?_, wf.distinct⟩
    obtain ⟨other, listed, same⟩ := mem_map.mp member
    exact absurd same (by simpa using find?_eq_none.mp new other listed)

theorem newline_not_mem_of_checkName (legal : checkName name = false) : newline ∉ name := by
  intro member
  have illegal : checkName name = true := any_eq_true.mpr ⟨newline, member, by decide⟩
  rw [illegal] at legal
  cases legal

theorem controlOpenCreateCommon_replies (oneLine : OneLine u.gcrypt) {spec key : List UInt8} {add : Bool}
    (wf : WellFormed d) (clean : newline ∉ name) (specClean : newline ∉ spec) :
    Replies s (controlOpenCreateCommon env s d name spec key add) (Once fun _ => True) := by
  have weaken : ∀ answers d', Plainly d answers d' → Once (fun _ => True) answers d' :=
    fun _ _ ⟨wf, a, same, plain, _⟩ => ⟨wf, a, same, plain, fun _ => trivial⟩
  unfold controlOpenCreateCommon
  split
  · exact (Replies.complete (.text wf (by decide) true)).mono weaken
  split
  · refine (Replies.complete (.text wf (plain_printf (by decide) (by decide) fun arg member => ?_) true)).mono weaken
    simp only [mem_cons, not_mem_nil, or_false] at member
    rcases member with rfl | rfl
    · cases add <;> decide
    · exact clean
  · next legal new =>
    refine .bind (openTry_yields oneLine specClean) fun r tried => ?_
    cases r with
    | ok entry =>
      obtain ⟨rfl, mountpoint⟩ := tried
      have new : d.find entry.key = none := by simpa using new
      exact .silent ⟨wf.add new clean mountpoint _ _, _, rfl, not_mem_nil, nofun⟩
    | error failed =>
      refine .bind (freer_entries _ _) fun d' same => ?_
      exact .complete ⟨wf.congr same, _, rfl, tried.ofText true, fun _ => trivial⟩


/-! ### Handlers that may spoil their response -/

/-- One response, which ends early if it is spoiled. -/
def Told (spoiled : Prop) (d : Daemon u) (answers : List Answer) (d' : Daemon u) : Prop :=
  WellFormed d' ∧ ∃ a, answers = [a] ∧ (dot ∈ a.lines ↔ spoiled) ∧ d' = d

theorem controlStaticInfo_replies (wf : WellFormed d) :
    Replies s (controlStaticInfo s d) (Told (dot ∈ textLines (staticInfo u)) d) :=
  .complete ⟨wf, _, rfl, Iff.rfl, rfl⟩

/-- A partition whose mount point is a single dot, and the key that asks for it. -/
def DotMounted (d : Daemon u) (name key : List UInt8) : Prop :=
  key = ascii "mountpoint" ∧ ∃ entry, d.find name = some entry ∧ entry.mountpoint = some dot

theorem Plainly.told {answers : List Answer} {spoiled : Prop} (plainly : Plainly d answers d) (sound : ¬ spoiled) :
    Told spoiled d answers d := by
  obtain ⟨wf, a, same, plain, -⟩ := plainly
  exact ⟨wf, a, same, iff_of_false plain sound, rfl⟩

theorem controlGetAux_replies {key : List UInt8} (wf : WellFormed d) (clean : newline ∉ name)
    (keyClean : newline ∉ key) : Replies s (controlGetAux s d name key) (Told (DotMounted d name key) d) := by
  unfold controlGetAux
  cases look : d.find name with
  | none =>
    refine .complete ((Plainly.text wf (plain_format1 (by decide) (by decide) clean) true).told ?_)
    rintro ⟨-, entry, found, -⟩
    rw [look] at found
    cases found
  | some entry =>
    dsimp only
    have stored : (if key = ascii "mountpoint" then entry.mountpoint else none) = some dot ↔
        DotMounted d name key := by
      rw [DotMounted, look]
      simp
    cases shown : if key = ascii "mountpoint" then entry.mountpoint else none with
    | none =>
      refine .complete ((Plainly.text wf (plain_format1 (by decide) (by decide) keyClean) true).told ?_)
      rw [← stored, shown]
      nofun
    | some mountpoint =>
      have mountpointClean : newline ∉ mountpoint := by
        refine wf.mountpoints entry (find_eq_some look).1 mountpoint ?_
        split at shown
        · exact shown
        · cases shown
      have text : printf (ascii "%s") [mountpoint] = mountpoint := append_nil mountpoint
      refine .complete ⟨wf, _, rfl, ?_, rfl⟩
      rw [Answer.ofText, text, textLines_of_not_mem mountpointClean, mem_singleton, ← stored, shown, Option.some_inj,
        eq_comm]

/-! ### Handlers that parse numbers -/

theorem parseInt_parsed {r : ℤ} {in_ : List UInt8} (parsed : (strtol in_).2.1 = []) :
    parseInt s r in_ = ((0, s), toInt (strtol in_).1) := by
  have small := Int.bmod_lt (x := (strtol in_).1) (m := 2 ^ 32) (by decide)
  have large := Int.le_bmod (x := (strtol in_).1) (m := 2 ^ 32) (by decide)
  unfold parseInt
  dsimp only
  rw [if_neg, if_neg (not_not.mpr parsed)]
  rintro ⟨-, same | same⟩ <;> unfold toInt at same <;> simp only [longMin, longMax] at same <;> omega

theorem parseInt_unparsed {r : ℤ} {in_ : List UInt8} (unparsed : (strtol in_).2.1 ≠ []) : parseInt s r in_ =
    (controlWriteComplete s true (printf (ascii "unable to parse ->%s<-\n") [in_]), r) := by
  have small := Int.bmod_lt (x := (strtol in_).1) (m := 2 ^ 32) (by decide)
  have large := Int.le_bmod (x := (strtol in_).1) (m := 2 ^ 32) (by decide)
  unfold parseInt
  dsimp only
  rw [if_neg, if_pos unparsed]
  rintro ⟨-, same | same⟩ <;> unfold toInt at same <;> simp only [longMin, longMax] at same <;> omega

/-- A handler that has sent a refusal goes on if all of it was sent. -/
theorem Replies.goOn {text : List UInt8} {post : List Answer → Daemon u → Prop}
    {x : Socket → Draw Failure (ℤ × Socket × Daemon u)}
    (stopped : (controlWriteComplete s true text).1 ≠ 0 → post [.ofText true text, ⟨false, []⟩] d)
    (goesOn : (controlWriteComplete s true text).1 = 0 → ∀ s₁,
      Replies s₁ (x s₁) fun more d' => post (.ofText true text :: more) d') :
    Replies s (if (controlWriteComplete s true text).1 ≠ 0 then reply (-1, (controlWriteComplete s true text).2) d
      else x (controlWriteComplete s true text).2) post := by
  have first := controlWriteComplete_answered s true text
  have sends := controlWriteComplete_sends s true text
  split
  · next failed =>
    have broken : (controlWriteComplete s true text).2.broken = true := by
      cases state : (controlWriteComplete s true text).2.broken with
      | true => rfl
      | false => exact absurd (sends.returns state) failed
    have silent : ∀ a ∈ [Answer.mk false []], a.Clean := fun a member => mem_singleton.mp member ▸ nofun
    exact .pure ⟨_, first.cut broken silent, stopped failed⟩
  · next whole =>
    have whole := not_not.mp whole
    refine .after first ?_ (goesOn whole _)
    rw [flatMap_singleton, sends.sent whole, response_eq (encodeLines_textLines text)]
    rfl

/-- `times` turns of the loop of `control_cycle`, for the partition of `entry`. -/
def Turned (env : Env) (d : Daemon u) (entry : FuseIoEntry u) (times : ℕ) (d' : Daemon u) : Prop :=
  ∃ tape rest l, (cycleTurns (u.params entry.c) env.fuel times (entry.io.attach d.b).l).run tape = .done l rest ∧
    d' = d.putIo entry { entry.io with l }

/-- What is sent and done after the count was refused. -/
inductive Uncounted (env : Env) (s : Socket) (d : Daemon u) (entry : FuseIoEntry u) (count : List UInt8) :
    List Answer → Daemon u → Prop
  | stopped {a b : Answer} (err : a.err = true)
      (before : (parseInt s env.times count).1.1 ≠ 0 ∨ env.times < 0) : Uncounted env s d entry count [a, b] d
  | turned {a b : Answer} {d' : Daemon u} (err : a.err = true) (positive : 0 ≤ env.times)
      (sent : (parseInt s env.times count).1.1 = 0) (turned : Turned env d entry env.times.toNat d') :
      Uncounted env s d entry count [a, b] d'

theorem cycle_turns {times : ℕ} {post : List Answer → Daemon u → Prop}
    (turned : ∀ d', Turned env d entry times d' → post [.ofText false (ascii "see debug output")] d') :
    Replies s (do
      let l ← cycleTurns (u.params entry.c) env.fuel times (entry.io.attach d.b).l
      reply (controlWriteComplete s false (ascii "see debug output")) (d.putIo entry { entry.io with l })) post := by
  refine .bind (m := fun l => Turned env d entry times (d.putIo entry { entry.io with l })) ?_ fun l ran =>
    .complete (turned _ ran)
  exact .of_forall_done fun tape l rest ran => ⟨tape, rest, l, ran, rfl⟩

theorem controlCycle_replies {count : List UInt8} (wf : WellFormed d) (clean : newline ∉ name) :
    Replies s (controlCycle env s d name count) fun answers d' => WellFormed d' ∧
      ((d.find name = none ∨ (strtol count).2.1 = []) ∧ Plainly d answers d' ∨
        ∃ entry, d.find name = some entry ∧ (strtol count).2.1 ≠ [] ∧ Uncounted env s d entry count answers d') := by
  unfold controlCycle
  cases look : d.find name with
  | none => exact (notFound_replies wf clean).mono fun _ _ plainly => ⟨plainly.1, .inl ⟨.inl rfl, plainly⟩⟩
  | some entry =>
    have wf' {times : ℕ} {d' : Daemon u} (turned : Turned env d entry times d') : WellFormed d' := by
      obtain ⟨_, _, l, -, rfl⟩ := turned
      exact wf.putIo look _
    by_cases parsed : (strtol count).2.1 = []
    · dsimp only
      rw [parseInt_parsed parsed]
      dsimp only
      rw [if_neg (by simp)]
      split
      · exact .complete ⟨wf, .inl ⟨.inr parsed, .text wf (by decide) true⟩⟩
      · refine cycle_turns fun d' turned => ⟨wf' turned, .inl ⟨.inr parsed, wf' turned, _, rfl, ?_, nofun⟩⟩
        exact Plain.ofText (by decide) false
    · dsimp only
      have same := parseInt_unparsed (s := s) (r := env.times) parsed
      rw [same]
      dsimp only
      refine Replies.goOn (x := fun s => if env.times < 0 then
          reply (controlWriteComplete s true (ascii "integer must be positive")) d
        else do
          let l ← cycleTurns (u.params entry.c) env.fuel env.times.toNat (entry.io.attach d.b).l
          reply (controlWriteComplete s false (ascii "see debug output")) (d.putIo entry { entry.io with l }))
        (fun failed => ?_) fun sent s₁ => ?_
      · exact ⟨wf, .inr ⟨entry, rfl, parsed, .stopped rfl (.inl (by rwa [same]))⟩⟩
      · split
        · next negative => exact .complete ⟨wf, .inr ⟨entry, rfl, parsed, .stopped rfl (.inr negative)⟩⟩
        · next positive =>
          refine cycle_turns fun d' turned => ⟨wf' turned, .inr ⟨entry, rfl, parsed, ?_⟩⟩
          exact .turned rfl (not_lt.mp positive) (by rwa [same]) turned

/-- The texts with which a resize is refused. -/
def refusals : List String :=
  ["partition \"%s\" is busy", "values for new_size=%d and reserved=%d make no sense",
    "shrinking device is not yet supported", "not enough blocks available, base device has only %d blocks",
    "nothing to do", "not enough unclaimed blocks available for resize"]

theorem resize_refusals (p : Params) (fuel : ℕ) (io : Entry) (size reserved : ℤ) :
    Draw.Yields (resize p fuel io size reserved) fun r => ∀ format, r.1 = .refused format → format ∈ refusals := by
  have refused (format : String) (member : format ∈ refusals) : Draw.Yields
      (pure (.refused format, io) : Draw Failure (Reply × Entry)) fun r => ∀ format, r.1 = .refused format →
        format ∈ refusals :=
    .pure fun other same => by
      cases same
      exact member
  unfold resize
  dsimp only
  split
  · exact refused _ (by decide)
  split
  · exact refused _ (by decide)
  split
  · exact refused _ (by decide)
  split
  · exact refused _ (by decide)
  split
  · exact refused _ (by decide)
  refine .bind (m := fun _ => True) (.of_forall_done fun _ _ _ _ => trivial) fun grown _ => ?_
  cases grown with
  | none => exact refused _ (by decide)
  | some dev =>
    refine .of_forall_done fun tape r rest ran format same => ?_
    simp only [Draw.bind_done_iff, Draw.run_pure, Outcome.done.injEq] at ran
    obtain ⟨_, _, _, _, _, _, returned, _⟩ := ran
    rw [← returned] at same
    cases same

theorem plain_refusal {size reserved : ℤ} {total : ℕ} {format : String} (clean : newline ∉ name)
    (member : format ∈ refusals) : Plain (printf (ascii format) (resizeArgs name size reserved total format)) := by
  have checked : ∀ format ∈ refusals, newline ∉ ascii format ∧ ∃ c ∈ literal (ascii format), c ≠ 46 := by
    decide +kernel
  refine plain_printf (checked format member).1 (checked format member).2 fun arg inArgs => ?_
  unfold resizeArgs at inArgs
  split at inArgs
  · rwa [mem_singleton.mp inArgs]
  split at inArgs
  · simp only [mem_cons, not_mem_nil, or_false] at inArgs
    rcases inArgs with rfl | rfl
    · exact newline_not_mem_printInt _
    · exact newline_not_mem_printInt _
  split at inArgs
  · rw [mem_singleton.mp inArgs]
    exact newline_not_mem_printInt _
  · cases inArgs

/-- A resize of the partition of `entry` that is answered. -/
def Resized (env : Env) (d : Daemon u) (entry : FuseIoEntry u) (size reserved : ℤ) (answer : Reply) (io : Entry) :
    Prop :=
  ∃ tape rest, (resize (u.params entry.c) env.fuel (entry.io.attach d.b) size reserved).run tape =
    .done (answer, io) rest

theorem resize_answers {size reserved : ℤ} {post : List Answer → Daemon u → Prop} (clean : newline ∉ name)
    (refused : ∀ text format io, Plain text → Resized env d entry size reserved (.refused format) io →
      post [.ofText true text] d)
    (resized : ∀ io, Resized env d entry size reserved .ok io → post [⟨false, []⟩] (d.putIo entry io)) :
    Replies s (do
      match ← resize (u.params entry.c) env.fuel (entry.io.attach d.b) size reserved with
      | (.ok, io) => reply (controlWriteSilentSuccess s) (d.putIo entry io)
      | (.refused format, _) =>
        let args := resizeArgs name size reserved u.b.totalMacroblocks format
        reply (controlWriteComplete s true (printf (ascii format) args)) d) post := by
  refine .bind (m := fun r => (∀ format, r.1 = .refused format → format ∈ refusals) ∧
    Resized env d entry size reserved r.1 r.2) ?_ ?_
  · refine ((resize_refusals ..).and (.of_forall_done fun tape r rest ran => ?_)).mono (fun _ => id) fun _ _ => trivial
    exact ⟨tape, rest, ran⟩
  · rintro ⟨_ | format, io⟩ ⟨formats, ran⟩
    · exact .silent (resized io ran)
    · exact .complete (refused _ format io (plain_refusal clean (formats format rfl)) ran)

/-- No partition has fewer macroblocks than zero. -/
theorem not_resized_zero {reserved : ℤ} {io : Entry} : ¬ Resized env d entry 0 reserved .ok io := by
  rintro ⟨tape, rest, ran⟩
  rcases resize_done ran with ⟨refused, -⟩ | ⟨-, -, -, larger, -⟩
  · exact refused rfl
  · exact absurd larger (Nat.not_lt_zero _)

/-- What is sent and done after a size was refused. -/
inductive Unsized (env : Env) (s : Socket) (d : Daemon u) (entry : FuseIoEntry u) (size reserved : List UInt8) :
    List Answer → Daemon u → Prop
  | kept {a b : Answer} {more : List Answer} (err : a.err = true)
      (before : (strtol size).2.1 ≠ [] ∨ (parseInt s 0 reserved).1.1 ≠ 0 ∨
        ∃ format io, Resized env d entry (toInt (strtol size).1) 0 (.refused format) io) :
      Unsized env s d entry size reserved (a :: b :: more) d
  | resized {a b : Answer} {io : Entry} (err : a.err = true) (parsed : (strtol size).2.1 = [])
      (sent : (parseInt s 0 reserved).1.1 = 0) (resized : Resized env d entry (toInt (strtol size).1) 0 .ok io) :
      Unsized env s d entry size reserved [a, b] (d.putIo entry io)

theorem controlResize_replies {size reserved : List UInt8} (wf : WellFormed d) (clean : newline ∉ name) :
    Replies s (controlResize env s d name size reserved) fun answers d' => WellFormed d' ∧
      ((∀ entry, d.find name = some entry → entry.io.inuse = true ∨ (strtol size).2.1 = [] ∧ (strtol reserved).2.1 = []) ∧
          Plainly d answers d' ∨
        ∃ entry, d.find name = some entry ∧ entry.io.inuse = false ∧
          ((strtol size).2.1 ≠ [] ∨ (strtol reserved).2.1 ≠ []) ∧ Unsized env s d entry size reserved answers d') := by
  unfold controlResize
  cases look : d.find name with
  | none => exact (notFound_replies wf clean).mono fun _ _ plainly => ⟨plainly.1, .inl ⟨nofun, plainly⟩⟩
  | some entry =>
    dsimp only
    split
    · next inuse =>
      refine (busy_replies wf clean).mono fun _ _ plainly => ⟨plainly.1, .inl ⟨fun other same => ?_, plainly⟩⟩
      cases same
      exact .inl inuse
    next idle =>
    have idle : entry.io.inuse = false := by simpa using idle
    by_cases sized : (strtol size).2.1 = []
    · rw [parseInt_parsed sized]
      dsimp only
      rw [if_neg (by simp)]
      by_cases parsed : (strtol reserved).2.1 = []
      · rw [parseInt_parsed parsed]
        dsimp only
        rw [if_neg (by simp)]
        have both : ∀ other, some entry = some other →
            other.io.inuse = true ∨ (strtol size).2.1 = [] ∧ (strtol reserved).2.1 = [] := fun _ _ => .inr ⟨sized, parsed⟩
        refine resize_answers clean (fun text format io plain _ => ⟨wf, .inl ⟨both, .text wf plain true⟩⟩)
          fun io _ => ⟨wf.putIo look io, .inl ⟨both, .silent (wf.putIo look io)⟩⟩
      · have same := parseInt_unparsed (s := s) (r := 0) parsed
        rw [same]
        dsimp only
        refine Replies.goOn (x := fun s => do
            match ← resize (u.params entry.c) env.fuel (entry.io.attach d.b) (toInt (strtol size).1) 0 with
            | (.ok, io) => reply (controlWriteSilentSuccess s) (d.putIo entry io)
            | (.refused format, _) =>
              let args := resizeArgs name (toInt (strtol size).1) 0 u.b.totalMacroblocks format
              reply (controlWriteComplete s true (printf (ascii format) args)) d) (fun failed => ?_) fun sent s₁ => ?_
        · exact ⟨wf, .inr ⟨entry, rfl, idle, .inr parsed, .kept rfl (.inr (.inl (by rwa [same])))⟩⟩
        · refine resize_answers clean (fun text format io plain ran => ?_) fun io ran => ?_
          · exact ⟨wf, .inr ⟨entry, rfl, idle, .inr parsed, .kept rfl (.inr (.inr ⟨format, io, ran⟩))⟩⟩
          · exact ⟨wf.putIo look io, .inr ⟨entry, rfl, idle, .inr parsed, .resized rfl sized (by rwa [same]) ran⟩⟩
    · have same := parseInt_unparsed (s := s) (r := 0) sized
      rw [same]
      dsimp only
      refine Replies.goOn (x := fun s =>
          if (parseInt s 0 reserved).1.1 ≠ 0 then reply (-1, (parseInt s 0 reserved).1.2) d
          else do
            match ← resize (u.params entry.c) env.fuel (entry.io.attach d.b) 0 (parseInt s 0 reserved).2 with
            | (.ok, io) => reply (controlWriteSilentSuccess (parseInt s 0 reserved).1.2) (d.putIo entry io)
            | (.refused format, _) =>
              let args := resizeArgs name 0 (parseInt s 0 reserved).2 u.b.totalMacroblocks format
              reply (controlWriteComplete (parseInt s 0 reserved).1.2 true (printf (ascii format) args)) d)
        (fun failed => ?_) fun sent s₁ => ?_
      · exact ⟨wf, .inr ⟨entry, rfl, idle, .inl sized, .kept rfl (.inl sized)⟩⟩
      · by_cases parsed : (strtol reserved).2.1 = []
        · rw [parseInt_parsed parsed, if_neg (by simp)]
          refine resize_answers clean (fun text format io plain _ => ?_) fun io ran => absurd ran not_resized_zero
          exact ⟨wf, .inr ⟨entry, rfl, idle, .inl sized, .kept rfl (.inl sized)⟩⟩
        · rw [parseInt_unparsed parsed]
          refine Replies.goOn (x := fun s => do
              match ← resize (u.params entry.c) env.fuel (entry.io.attach d.b) 0 0 with
              | (.ok, io) => reply (controlWriteSilentSuccess s) (d.putIo entry io)
              | (.refused format, _) =>
                let args := resizeArgs name 0 0 u.b.totalMacroblocks format
                reply (controlWriteComplete s true (printf (ascii format) args)) d) (fun failed => ?_) fun sent s₂ => ?_
          · exact ⟨wf, .inr ⟨entry, rfl, idle, .inl sized, .kept rfl (.inl sized)⟩⟩
          · refine resize_answers clean (fun text format io plain _ => ?_) fun io ran => absurd ran not_resized_zero
            exact ⟨wf, .inr ⟨entry, rfl, idle, .inl sized, .kept rfl (.inl sized)⟩⟩

end Scubed3.Control
