import Scubed3.Juggler.Schedule
import Scubed3.Juggler.Uniform
import Scubed3.Partition.Oblivious
import Scubed3.Device.Growth
import Scubed3.Device.History

/-! # Nothing can be done to the order of the macroblocks

The juggler hands out independent uniform macroblocks when it is left alone. A partition asks it for the next one when
the current one is full, on a cycle, or when it collects garbage, and it already knows what comes next when it decides.
So it could stop early, but it cannot make any sequence of macroblocks more likely.

The proof gives every state the chance that the sequence in question is still handed out. No step of a partition raises
it on average.
-/

open scoped ENNReal

namespace Scubed3.Juggler

/-! ## The juggler only looks at the numbers -/

variable {infos infos' : BlockioInfos}

/-- What a call answers, with other records of the same numbers. -/
abbrev SameAnswer (r r' : Option ℕ × Juggler × BlockioInfos) : Prop :=
  r'.1 = r.1 ∧ r'.2.1 = r.2.1 ∧ Alike r.2.2 r'.2.2

theorem reschedule_related (alike : Alike infos infos') (fuel : ℕ) (j : Juggler) (next : ℕ) :
    (reschedule fuel j infos next false).Related SameAnswer (reschedule fuel j infos' next false) := by
  unfold reschedule
  rw [if_neg Bool.false_ne_true, if_neg Bool.false_ne_true, place_congr alike]
  exact .bind_same _ fun r => .pure ⟨rfl, rfl, alike.set next (j.seqno + 1) r.1⟩

theorem getDevblock_related (alike : Alike infos infos') (fuel : ℕ) (j : Juggler) :
    (getDevblock fuel j infos false).Related SameAnswer (getDevblock fuel j infos' false) := by
  unfold getDevblock
  simp only [Bool.false_and, Bool.false_eq_true, if_false, alike.getObsoleted]
  cases j.getObsoleted infos with
  | some b => exact reschedule_related alike ..
  | none => exact .bind_same _ fun _ => .bind_same _ fun _ => .bind_same _ fun _ => reschedule_related alike ..

theorem chance_congr (alike : Alike infos infos') (fuel : ℕ) (xs : List ℕ) (j : Juggler) :
    chance fuel xs j infos' = chance fuel xs j infos := by
  induction xs generalizing j infos infos' with
  | nil => rw [chance_nil, chance_nil]
  | cons x xs ih =>
    rw [chance_cons, chance_cons]
    refine ((getDevblock_related alike fuel j).expect_eq fun r r' answers => ?_).symm
    rw [answers.1, answers.2.1, ih answers.2.2]

theorem chance_le_one (fuel : ℕ) (xs : List ℕ) (j : Juggler) (infos : BlockioInfos) : chance fuel xs j infos ≤ 1 :=
  (Draw.expect_mono _ fun answers => by split <;> simp).trans (Draw.expect_one_le _)

/-! ## A sequence that was handed out in part -/

/-- The chance that `xs` is handed out when `handed` was handed out already. -/
noncomputable def remaining (fuel : ℕ) : (handed xs : List ℕ) → Juggler → BlockioInfos → ℝ≥0∞
  | [], xs, j, infos => chance fuel xs j infos
  | _ :: _, [], _, _ => 1
  | h :: handed, x :: xs, j, infos => if h = x then remaining fuel handed xs j infos else 0

theorem remaining_congr (alike : Alike infos infos') (fuel : ℕ) (handed xs : List ℕ) (j : Juggler) :
    remaining fuel handed xs j infos' = remaining fuel handed xs j infos := by
  induction handed generalizing xs with
  | nil => exact chance_congr alike ..
  | cons h handed ih =>
    cases xs with
    | nil => rfl
    | cons x xs => simp only [remaining, ih]

theorem remaining_le_one (fuel : ℕ) (handed xs : List ℕ) (j : Juggler) (infos : BlockioInfos) :
    remaining fuel handed xs j infos ≤ 1 := by
  induction handed generalizing xs with
  | nil => exact chance_le_one ..
  | cons h handed ih =>
    cases xs with
    | nil => exact le_rfl
    | cons x xs =>
      unfold remaining
      split
      · exact ih xs
      · exact zero_le_one

/-- Another call does not make it more likely. -/
theorem expect_remaining (fuel : ℕ) (handed xs : List ℕ) (j : Juggler) (infos : BlockioInfos) :
    ((getDevblock fuel j infos false).expect fun r => match r.1 with
      | some id => remaining fuel (handed ++ [id]) xs r.2.1 r.2.2
      | none => 0) ≤ remaining fuel handed xs j infos := by
  have bounded (handed xs : List ℕ) : ((getDevblock fuel j infos false).expect fun r => match r.1 with
      | some id => remaining fuel (handed ++ [id]) xs r.2.1 r.2.2
      | none => 0) ≤ 1 := by
    refine (Draw.expect_mono _ fun r => ?_).trans (Draw.expect_one_le _)
    split
    · exact remaining_le_one ..
    · exact zero_le_one
  induction handed generalizing xs with
  | nil =>
    cases xs with
    | nil => exact (bounded [] []).trans (chance_nil fuel j infos).ge
    | cons x xs =>
      rw [remaining, chance_cons]
      refine Draw.expect_mono _ fun r => ?_
      obtain ⟨_ | id, j', infos'⟩ := r
      · exact zero_le
      · simp only [List.nil_append, remaining, Option.some.injEq, le_refl]
  | cons h handed ih =>
    cases xs with
    | nil => exact bounded (h :: handed) []
    | cons x xs =>
      by_cases same : h = x
      · simpa only [List.cons_append, remaining, if_pos same] using ih xs
      · have never (id : ℕ) (j : Juggler) (infos : BlockioInfos) :
            remaining fuel (h :: handed ++ [id]) (x :: xs) j infos = 0 := if_neg same
        refine le_of_eq_of_le (Eq.trans ?_ (Draw.expect_zero (getDevblock fuel j infos false))) zero_le
        congr 1
        funext r
        obtain ⟨_ | id, j', infos'⟩ := r
        · rfl
        · exact never id j' infos'

/-- In the end it was handed out or not. -/
theorem indicator_le_remaining (fuel : ℕ) {handed xs : List ℕ} (begun : xs <+: handed) (j : Juggler) (infos : BlockioInfos) :
    1 ≤ remaining fuel handed xs j infos := by
  induction handed generalizing xs with
  | nil =>
    rw [List.prefix_nil.mp begun]
    exact (chance_nil fuel j infos).ge
  | cons h handed ih =>
    cases xs with
    | nil => exact le_rfl
    | cons x xs =>
      obtain ⟨same, others⟩ := List.cons_prefix_cons.mp begun
      rw [remaining, if_pos same.symm]
      exact ih others

/-! ## The start -/

theorem weight_le_pow (due : ℕ → ℕ) (available : Finset ℕ) (seqno : ℕ) (ys : List ℕ) :
    weight due [] available seqno ys ≤ (available.card : ℝ≥0∞)⁻¹ ^ ys.length := by
  induction ys generalizing seqno with
  | nil => simp [weight]
  | cons y ys ih =>
    rw [weight, if_neg (by simp), List.length_cons, pow_succ']
    split
    · gcongr
      exact ih _
    · exact zero_le

/-- Before the first call no sequence is more likely than the others. -/
theorem chance_fresh {j : Juggler} {blocks : Finset ℕ} (inv : Invariant j infos blocks) (nonempty : blocks.Nonempty)
    (unpromised : j.scheduled = []) (fuel : ℕ) (xs : List ℕ) :
    chance fuel xs j infos ≤ (blocks.card : ℝ≥0∞)⁻¹ ^ xs.length := by
  have held : j.unscheduled.toFinset = blocks := by
    ext b
    have listed := inv.mem_iff b
    rwa [unpromised, List.nil_append, ← List.mem_toFinset] at listed
  calc chance fuel xs j infos ≤ ⨆ fuel, chance fuel xs j infos := le_iSup (fun fuel => chance fuel xs j infos) fuel
    _ = weight (due infos) [] blocks j.seqno xs := by rw [iSup_chance nonempty inv, unpromised, held]
    _ ≤ (blocks.card : ℝ≥0∞)⁻¹ ^ xs.length := weight_le_pow ..

/-- Nothing is handed out when there is nothing. -/
theorem chance_empty {j : Juggler} (inv : Invariant j infos ∅) (fuel x : ℕ) (xs : List ℕ) :
    chance fuel (x :: xs) j infos = 0 := by
  have nothing : j.scheduled ++ j.unscheduled = [] := List.eq_nil_iff_forall_not_mem.mpr fun b => by simp [inv.mem_iff]
  obtain ⟨unpromised, unscheduled⟩ := List.append_eq_nil_iff.mp nothing
  have obsoleted : j.getObsoleted infos = none := getObsoleted_eq_none_iff.mpr (by simp [unpromised])
  rw [chance_cons]
  unfold getDevblock check
  simp [obsoleted, unscheduled, Draw.expect]

end Scubed3.Juggler

namespace Scubed3.Partition

open Blockio

variable {p : Params}

/-! ## Steps of a partition -/

/-- The macroblocks that were handed out since the log had `n` entries; the current one is not written yet. -/
def handedOut (n : ℕ) (dev : BlockioDev) : List ℕ := (dev.b.written.reverse.map (·.id)).drop n ++ dev.bi.toList

/-- The chance that the macroblocks that are handed out begin with `xs`. -/
noncomputable def potential (fuel n : ℕ) (xs : List ℕ) (dev : BlockioDev) : ℝ≥0∞ :=
  if n ≤ dev.b.written.length then Juggler.remaining fuel (handedOut n dev) xs dev.j dev.b.infos else ⊤

variable {fuel n : ℕ} {xs : List ℕ} {dev dev' : BlockioDev}

theorem potential_sameDevice (same : SameDevice dev dev') : potential fuel n xs dev' = potential fuel n xs dev := by
  have numbers : Juggler.Alike dev.b.infos dev'.b.infos := fun c => ⟨(same.infos c).1, (same.infos c).2.1⟩
  unfold potential
  rw [Juggler.remaining_congr numbers, same.rest]
  rfl

/-- The current macroblock is written. -/
theorem potential_output (ran : writeCurrentMacroblock p dev = .ok dev') :
    potential fuel n xs dev' ≤ potential fuel n xs dev := by
  obtain ⟨id, current, -, -, -, rfl⟩ := (writeCurrentMacroblock_eq_ok_iff p).mp ran
  have numbers : Juggler.Alike dev.b.infos (afterWrite p dev id).b.infos := fun c =>
    ⟨(afterWrite_infos dev id c).1, (afterWrite_infos dev id c).2.1⟩
  unfold potential
  by_cases known : n ≤ dev.b.written.length
  · have handed : handedOut n (afterWrite p dev id) = handedOut n dev := by
      unfold handedOut
      rw [current]
      change ((_ :: dev.b.written).reverse.map _).drop n ++ [] = _
      rw [List.reverse_cons, List.map_append, List.append_nil, List.drop_append_of_le_length (by simpa using known)]
      rfl
    have later : n ≤ (afterWrite p dev id).b.written.length := Nat.le_succ_of_le known
    rw [if_pos known, if_pos later, handed, Juggler.remaining_congr numbers]
    exact le_rfl
  · rw [if_neg known]
    exact le_top

/-- Another macroblock is handed out. -/
theorem expect_select (fuel n : ℕ) (xs : List ℕ) (dev : BlockioDev) :
    (selectNextMacroblock fuel dev).expect (potential fuel n xs) ≤ potential fuel n xs dev := by
  by_cases idle : dev.bi = none
  · by_cases known : n ≤ dev.b.written.length
    · have called := Juggler.expect_remaining fuel (handedOut n dev) xs dev.j dev.b.infos
      unfold selectNextMacroblock
      rw [check_of _ _ idle, Draw.lift_ok, Draw.ret_bind]
      rw [show potential fuel n xs dev = Juggler.remaining fuel (handedOut n dev) xs dev.j dev.b.infos from if_pos known]
      refine Draw.expect_bind_le called fun r => ?_
      obtain ⟨_ | id, j, infos⟩ := r
      · exact zero_le
      · dsimp only
        split
        · refine (if_pos known).trans_le (le_of_eq ?_)
          congr 1
          unfold handedOut
          rw [idle]
          simp
        · exact zero_le
    · rw [show potential fuel n xs dev = ⊤ from if_neg known]
      exact le_top
  · unfold selectNextMacroblock check
    rw [if_neg idle]
    exact zero_le

/-- On average the chance does not rise. -/
def Unbiased (fuel n : ℕ) (xs : List ℕ) (l : Partition) (x : Draw Failure Partition) : Prop :=
  (x.expect fun l' => potential fuel n xs l'.dev) ≤ potential fuel n xs l.dev

namespace Unbiased

variable {l : Partition} {x : Draw Failure Partition}

theorem bind {f : Partition → Draw Failure Partition} (first : Unbiased fuel n xs l x) (others : ∀ l', Unbiased fuel n xs l' (f l')) :
    Unbiased fuel n xs l (x >>= f) := Draw.expect_bind_le first others

theorem pure (l : Partition) : Unbiased fuel n xs l (Pure.pure l) := le_rfl

theorem raise (e : Failure) : Unbiased fuel n xs l (.raise e) := zero_le

theorem assert {c : Except Failure Unit} (others : Unbiased fuel n xs l x) : Unbiased fuel n xs l (liftM c >>= fun _ => x) :=
  Draw.expect_bind_le (Draw.expect_lift_le fun _ _ => le_rfl) fun _ => others

theorem moved {x : Except Failure Partition} (moves : x.Yields (Moved p l)) : Unbiased fuel n xs l (liftM x) :=
  Draw.expect_lift_le fun l' ran => (potential_sameDevice (moves.value l' ran).toSameDevice).le

end Unbiased

theorem selectNewMacroblocks_unbiased (turns : ℕ) (l : Partition) :
    Unbiased fuel n xs l (selectNewMacroblocks p fuel turns l) := by
  induction turns generalizing l with
  | zero => exact zero_le
  | succ turns ih =>
    unfold selectNewMacroblocks
    have selected : (writeCurrentAndSelectNextMacroblock p fuel l.dev).expect (potential fuel n xs) ≤
        potential fuel n xs l.dev :=
      Draw.expect_bind_le (Draw.expect_lift_le fun _ ran => potential_output ran) (expect_select fuel n xs)
    refine Draw.expect_bind_le selected fun dev => ?_
    refine Unbiased.bind (l := { l with dev }) (.moved (copyOldBlockToCurrent_moved (p := p) _)) fun l' => ?_
    split
    · exact .raise _
    · split
      · exact ih l'
      · exact .pure l'

theorem doWrite_unbiased (l : Partition) (mesoff muoff size : ℕ) (data : Bytes) :
    Unbiased fuel n xs l (doWrite p fuel l mesoff muoff size data) := by
  unfold doWrite
  refine .assert ?_
  refine .bind (.moved ((initializeOutput_moved _).imp fun _ => (Moved.flags (p := p) l true l.outputInitialized).trans))
    fun l₁ => ?_
  cases current : l₁.dev.bi with
  | none => exact .raise _
  | some bi =>
    dsimp only
    split
    · exact .moved (storeMesoblk_moved current ..)
    · refine .bind ?_ fun l₂ => ?_
      · split
        · exact .assert (selectNewMacroblocks_unbiased fuel l₁)
        · exact .pure l₁
      · cases current : l₂.dev.bi with
        | none => exact .raise _
        | some bi => exact .moved (storeMesoblk_moved current ..)

theorem cycle_unbiased (l : Partition) : Unbiased fuel n xs l (cycle p fuel l) := by
  unfold cycle
  refine .bind ?_ fun l' => ?_
  · split
    · exact .pure l
    · refine .bind (.moved (copyOldBlockToCurrent_moved (p := p) l)) fun l' => ?_
      exact (potential_sameDevice (Moved.flags (p := p) l' l'.dev.updated true).toSameDevice).le
  · refine Draw.expect_bind_le (Draw.expect_lift_le fun _ ran => potential_output ran) fun dev => ?_
    exact Draw.expect_bind_le (expect_select fuel n xs dev) fun _ => le_rfl

section DoReq

variable {action : Partition → (mesoff muoff size ooff : ℕ) → Draw Failure Partition}
  (each : ∀ l mesoff muoff size ooff, Unbiased fuel n xs l (action l mesoff muoff size ooff))
include each

theorem doReqLoop_unbiased (turns : ℕ) (l : Partition) (meso size ooff : ℕ) :
    Unbiased fuel n xs l (doReqLoop p action turns l meso size ooff) := by
  induction turns generalizing l meso size ooff with
  | zero =>
    unfold doReqLoop
    split
    · exact each ..
    · exact .pure l
  | succ turns ih => exact .bind (each ..) fun l' => ih l' ..

theorem doReq_unbiased (noBlockIndices : ℕ) (l : Partition) (rOffset size : ℕ) :
    Unbiased fuel n xs l (doReq p action noBlockIndices l rOffset size) := by
  unfold doReq
  dsimp only
  split
  · exact .pure l
  · split
    · exact .bind (each ..) fun l' => doReqLoop_unbiased each _ l' ..
    · exact doReqLoop_unbiased each _ l ..

end DoReq

end Scubed3.Partition

namespace Scubed3.Control

open Blockio Scubed3.Partition

variable {p : Params} {fuel n : ℕ} {xs : List ℕ}

/-! ## Sessions -/

theorem cycleTurns_unbiased (times : ℕ) (l : Partition) : Unbiased fuel n xs l (cycleTurns p fuel times l) := by
  induction times generalizing l with
  | zero => exact .pure l
  | succ times ih => exact .bind (cycle_unbiased l) ih

/-- The macroblocks that are handed out, while it is not resized. -/
def Operation.KeepsSize : Operation → Prop
  | .resize .. => False
  | _ => True

theorem expect_perform (entry : Entry) {op : Operation} (keeps : op.KeepsSize) :
    ((perform p fuel entry op).expect fun entry' => potential fuel n xs entry'.l.dev) ≤
      potential fuel n xs entry.l.dev := by
  cases op with
  | read rOffset size =>
    exact Draw.expect_bind_le (Draw.expect_const_le _ _) fun _ => le_rfl
  | write rOffset size buf =>
    exact Draw.expect_bind_le (doReq_unbiased (fun l mesoff muoff size _ => doWrite_unbiased l mesoff muoff size _) ..)
      fun _ => le_rfl
  | cycle times => exact Draw.expect_bind_le (cycleTurns_unbiased times entry.l) fun _ => le_rfl
  | resize => exact keeps.elim

/-- Somebody who sees everything, even which macroblocks come next, decides what is asked. -/
def interact (p : Params) (fuel : ℕ) (ask : Entry → Option Operation) : (turns : ℕ) → Entry → Draw Failure Entry
  | 0, entry => return entry
  | turns + 1, entry =>
    match ask entry with
    | none => return entry
    | some op => do
      let entry ← perform p fuel entry op
      interact p fuel ask turns entry

theorem expect_interact {ask : Entry → Option Operation} (keeps : ∀ entry, ∀ op ∈ ask entry, op.KeepsSize) (turns : ℕ)
    (entry : Entry) :
    ((interact p fuel ask turns entry).expect fun entry' => potential fuel n xs entry'.l.dev) ≤
      potential fuel n xs entry.l.dev := by
  induction turns generalizing entry with
  | zero => exact le_rfl
  | succ turns ih =>
    unfold interact
    cases asked : ask entry with
    | none => exact le_rfl
    | some op => exact Draw.expect_bind_le (expect_perform entry (keeps entry op asked)) ih

/-- The macroblocks that were written to the device since the log had `n` entries. -/
def writtenSince (n : ℕ) (entry : Entry) : List ℕ := (entry.l.dev.b.written.reverse.map (·.id)).drop n

theorem indicator_le_potential (entry : Entry) :
    (if xs <+: writtenSince n entry then 1 else 0) ≤ potential fuel n xs entry.l.dev := by
  unfold potential
  split
  · next begun =>
    split
    · exact Juggler.indicator_le_remaining fuel (begun.trans (List.prefix_append ..)) ..
    · exact le_top
  · exact zero_le

/-! ## The start -/

/-- Nothing was handed out since the log had `n` entries. -/
theorem potential_start {dev : BlockioDev} (idle : dev.bi = none) (length : dev.b.written.length = n) :
    potential fuel n xs dev = Juggler.chance fuel xs dev.j dev.b.infos := by
  have handed : handedOut n dev = [] := by simp [handedOut, idle, ← length]
  unfold potential
  rw [if_pos length.ge, handed]
  rfl

/-- A partition without macroblocks is resized. -/
theorem expect_resize {entry : Entry} (known : Known p entry.l.dev) (empty : entry.l.dev.noMacroblocks = 0)
    (size reserved : ℤ) :
    ((perform p fuel entry (.resize size reserved)).expect fun entry' =>
      potential fuel entry.l.dev.b.written.length xs entry'.l.dev) ≤ (size.toNat : ℝ≥0∞)⁻¹ ^ xs.length := by
  have nothing : owned p entry.l.dev = ∅ := Finset.card_eq_zero.mp (known.noMacroblocks ▸ empty)
  have absent (c : ℕ) : c ∉ owned p entry.l.dev := nothing ▸ Finset.notMem_empty c
  have idle : entry.l.dev.bi = none := Option.eq_none_iff_forall_ne_some.mpr fun c current =>
    absent c (known.settled.mem_of_scheduled (known.current c current).1)
  have refused : potential fuel entry.l.dev.b.written.length xs entry.l.dev ≤ (size.toNat : ℝ≥0∞)⁻¹ ^ xs.length := by
    rw [potential_start idle rfl]
    cases xs with
    | nil => simp [Juggler.chance_nil]
    | cons x xs => exact (Juggler.chance_empty (nothing ▸ known.settled.toInvariant) fuel x xs).trans_le zero_le
  refine Draw.expect_bind_le
    (m := fun r => potential fuel entry.l.dev.b.written.length xs r.2.l.dev) ?_ fun r => le_rfl
  by_cases busy : entry.inuse = true
  · unfold resize
    rw [if_pos busy]
    exact refused
  have notBusy : entry.inuse = false := by simpa using busy
  by_cases grows : Grows p entry size reserved
  · rw [resize_grows fuel notBusy grows, Draw.expect_bind]
    refine (known.allocateTurns_safe grows.unclaimed).expect_le fun grown ⟨knownGrown, growth, count⟩ => ?_
    have larger := grows.larger
    have all : grown.noMacroblocks = size.toNat := by omega
    have start : potential fuel entry.l.dev.b.written.length xs grown ≤ (size.toNat : ℝ≥0∞)⁻¹ ^ xs.length := by
      have nonempty : (owned p grown).Nonempty := Finset.card_pos.mp (by rw [← knownGrown.noMacroblocks]; omega)
      have unpromised : entry.l.dev.j.scheduled = [] := List.eq_nil_iff_forall_not_mem.mpr fun c listed =>
        absent c (known.settled.mem_of_scheduled listed)
      rw [potential_start (by rw [growth.rest]; exact idle) (by rw [growth.rest]; rfl), ← all, knownGrown.noMacroblocks]
      exact Juggler.chance_fresh knownGrown.settled.toInvariant nonempty (growth.scheduled.trans unpromised) ..
    refine Draw.expect_bind_le
      (m := fun l => potential fuel entry.l.dev.b.written.length xs l.dev)
      (Draw.expect_lift_le fun l reinitialised => ?_) fun l => ?_
    · obtain ⟨-, rfl⟩ := reinit_eq_ok_iff.mp reinitialised
      exact start
    · refine Draw.expect_bind_le (m := potential fuel entry.l.dev.b.written.length xs) ?_ fun dev => le_rfl
      split
      · exact expect_select ..
      · exact le_rfl
  · obtain ⟨message, same⟩ := resize_refused fuel notBusy grows
    rw [same]
    exact refused

/-- Nobody can make it more likely that the macroblocks of a new partition are written in a given order, not even
somebody who knows what comes next. -/
theorem schedule_unbiased {entry : Entry} (history : History p (.opened entry)) (empty : entry.l.dev.noMacroblocks = 0)
    (fuel : ℕ) (size reserved : ℤ) {ask : Entry → Option Operation} (keeps : ∀ entry, ∀ op ∈ ask entry, op.KeepsSize)
    (turns : ℕ) (xs : List ℕ) :
    (do let resized ← perform p fuel entry (.resize size reserved)
        let later ← interact p fuel ask turns resized
        return decide (xs <+: writtenSince entry.l.dev.b.written.length later) : Draw Failure Bool).toPMF (some true) ≤
      (size.toNat : ℝ≥0∞)⁻¹ ^ xs.length := by
  rw [Draw.toPMF_some_eq_expect]
  refine Draw.expect_bind_le (expect_resize history.good.toKnown empty size reserved) fun resized => ?_
  refine Draw.expect_bind_le (expect_interact keeps turns resized) fun later => ?_
  simpa using indicator_le_potential later

/-- Create a partition on a device of two macroblocks on which nothing was written. -/
def createOnTwo : Draw Failure ℕ := do
  match ← create (.smallest 2 Geometry.two_fits) 4 (initInfos (.smallest 2 Geometry.two_fits) (fun _ => 0) []) 0 with
  | .refused _ _ => .starve
  | .opened entry _ => return entry.l.dev.noMacroblocks

theorem createdOnTwo : ∃ entry, History (.smallest 2 Geometry.two_fits) (.opened entry) ∧
    entry.l.dev.noMacroblocks = 0 := by
  have ran : createOnTwo.run [] = .done 0 [] := by decide +kernel
  obtain ⟨outcome, _, opened, counted⟩ := Draw.bind_done_iff.mp ran
  cases outcome with
  | refused => cases counted
  | opened entry missing =>
    have coherent : Coherent (.smallest 2 Geometry.two_fits) (initInfos (.smallest 2 Geometry.two_fits) (fun _ => 0) []) :=
      ⟨List.nodup_range, fun c => by simp [initInfos]⟩
    have start : History (.smallest 2 Geometry.two_fits) (.closed _) := .start coherent rfl fun c bound => by
      obtain rfl | rfl : c = 0 ∨ c = 1 := Nat.le_one_iff_eq_zero_or_eq_one.mp (Nat.lt_succ_iff.mp bound)
      all_goals
        unfold Foreign
        decide +kernel
    exact ⟨entry, .opened start (by simp [initInfos]) opened, (Outcome.done.inj counted).1⟩

/-- Three macroblocks of two, when macroblock 0 is written to at once. -/
theorem schedule_unbiased_full : ∃ entry : Entry,
    (do let resized ← perform (.smallest 2 Geometry.two_fits) 4 entry (.resize 2 0)
        let later ← interact (.smallest 2 Geometry.two_fits) 4
          (fun entry => if entry.l.dev.bi = some 0 then some (.write 0 1 fun _ => 1) else some (.cycle 1)) 3 resized
        return decide ([0, 1, 0] <+: writtenSince entry.l.dev.b.written.length later) : Draw Failure Bool).toPMF
      (some true) ≤ ((2 : ℤ).toNat : ℝ≥0∞)⁻¹ ^ 3 := by
  obtain ⟨entry, history, empty⟩ := createdOnTwo
  refine ⟨entry, schedule_unbiased history empty 4 2 0 (fun entry op asked => ?_) 3 [0, 1, 0]⟩
  rw [Option.mem_def] at asked
  split at asked <;> cases asked <;> trivial

end Scubed3.Control
