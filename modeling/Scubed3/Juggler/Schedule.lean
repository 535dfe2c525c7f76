import Scubed3.Juggler.Reachable

/-! # One call after the other

A schedule is an infinite sequence of calls that keep their block, with the outcomes that each of them draws. What a call
does depends on nothing but the sequence numbers in the records, and a call that returns does so with more fuel as well.
-/

namespace Scubed3.Juggler

/-- The records have the same sequence numbers. -/
def Alike (infos infos' : BlockioInfos) : Prop :=
  ∀ c, (infos' c).seqno = (infos c).seqno ∧ (infos' c).nextSeqno = (infos c).nextSeqno

theorem Alike.refl (infos : BlockioInfos) : Alike infos infos := fun _ => ⟨rfl, rfl⟩

theorem Alike.trans {infos infos' infos'' : BlockioInfos} (first : Alike infos infos') (second : Alike infos' infos'') :
    Alike infos infos'' :=
  fun c => ⟨(second c).1.trans (first c).1, (second c).2.trans (first c).2⟩

theorem Alike.set {infos infos' : BlockioInfos} (alike : Alike infos infos') (b seqno nextSeqno : ℕ) :
    Alike (infos.set b { infos b with seqno, nextSeqno }) (infos'.set b { infos' b with seqno, nextSeqno }) := by
  intro c
  by_cases same : c = b
  · rw [same, BlockioInfos.set_same, BlockioInfos.set_same]
    exact ⟨rfl, rfl⟩
  · rw [BlockioInfos.set_of_ne _ _ same, BlockioInfos.set_of_ne _ _ same]
    exact alike c

theorem Alike.getObsoleted {infos infos' : BlockioInfos} (alike : Alike infos infos') (j : Juggler) :
    j.getObsoleted infos' = j.getObsoleted infos := by
  unfold Juggler.getObsoleted
  cases j.scheduled with
  | nil => rfl
  | cons c rest =>
    dsimp only
    rw [(alike c).2]

theorem place_congr {infos infos' : BlockioInfos} (alike : Alike infos infos') (next fuel seqno available : ℕ)
    (iterate : List ℕ) : place infos' next fuel seqno available iterate = place infos next fuel seqno available iterate := by
  induction fuel generalizing seqno available iterate with
  | zero => rfl
  | succ fuel ih =>
    have due : iterate.head?.map (fun c => (infos' c).nextSeqno) = iterate.head?.map (fun c => (infos c).nextSeqno) :=
      congrArg (fun f => Option.map f iterate.head?) (funext fun c => (alike c).2)
    unfold place
    rw [due]
    simp only [ih]

/-- A call on records with the same sequence numbers gives the same answer. -/
theorem getDevblock_congr {infos infos' r : BlockioInfos} {fuel b : ℕ} {j j' : Juggler} {tape rest : List ℕ}
    (alike : Alike infos infos') (ran : (getDevblock fuel j infos false).run tape = .done (some b, j', r) rest) :
    ∃ r', (getDevblock fuel j infos' false).run tape = .done (some b, j', r') rest ∧ Alike r r' := by
  have rescheduled {j₁ : Juggler} {next : ℕ} {tape : List ℕ}
      (ran : (reschedule fuel j₁ infos next false).run tape = .done (some b, j', r) rest) :
      ∃ r', (reschedule fuel j₁ infos' next false).run tape = .done (some b, j', r') rest ∧ Alike r r' := by
    unfold reschedule at ran ⊢
    obtain ⟨placed, mid, found, same⟩ := Draw.bind_done_iff.mp ran
    cases same
    exact ⟨_, Draw.bind_done_iff.mpr ⟨placed, _, (place_congr alike ..).symm ▸ found, rfl⟩, alike.set _ _ _⟩
  unfold getDevblock at ran ⊢
  rw [alike.getObsoleted]
  cases obsoleted : j.getObsoleted infos with
  | some next =>
    rw [obsoleted] at ran
    exact rescheduled ran
  | none =>
    rw [obsoleted] at ran
    obtain ⟨_, mid, checked, ran⟩ := Draw.bind_done_iff.mp ran
    obtain ⟨index, mid', drawn, ran⟩ := Draw.bind_done_iff.mp ran
    obtain ⟨⟨next, unscheduled⟩, mid'', unlinked, ran⟩ := Draw.bind_done_iff.mp ran
    obtain ⟨r', ran', alike'⟩ := rescheduled ran
    refine ⟨r', ?_, alike'⟩
    exact Draw.bind_done_iff.mpr ⟨_, mid, checked, Draw.bind_done_iff.mpr ⟨index, mid', drawn,
      Draw.bind_done_iff.mpr ⟨_, mid'', unlinked, ran'⟩⟩⟩

theorem place_mono {infos : BlockioInfos} {next fuel fuel' seqno available : ℕ} {iterate tape rest : List ℕ}
    {placed : ℕ × List ℕ} (more : fuel ≤ fuel')
    (ran : (place infos next fuel seqno available iterate).run tape = .done placed rest) :
    (place infos next fuel' seqno available iterate).run tape = .done placed rest := by
  induction fuel generalizing fuel' seqno available iterate tape rest placed with
  | zero => cases ran
  | succ fuel ih =>
    obtain ⟨fuel', rfl⟩ : ∃ n, fuel' = n + 1 := ⟨fuel' - 1, by omega⟩
    have more : fuel ≤ fuel' := by omega
    unfold place at ran ⊢
    split
    · next occupied =>
      rw [if_pos occupied] at ran
      obtain ⟨found, mid, ran, same⟩ := Draw.bind_done_iff.mp ran
      exact Draw.bind_done_iff.mpr ⟨found, mid, ih more ran, same⟩
    · next free =>
      rw [if_neg free] at ran
      obtain ⟨outcome, mid, drawn, ran⟩ := Draw.bind_done_iff.mp ran
      refine Draw.bind_done_iff.mpr ⟨outcome, mid, drawn, ?_⟩
      split
      · next zero => rwa [if_pos zero] at ran
      · next nonzero =>
        rw [if_neg nonzero] at ran
        exact ih more ran

theorem getDevblock_mono {infos : BlockioInfos} {fuel fuel' : ℕ} {j : Juggler} {tape rest : List ℕ}
    {answer : Option ℕ × Juggler × BlockioInfos} (more : fuel ≤ fuel')
    (ran : (getDevblock fuel j infos false).run tape = .done answer rest) :
    (getDevblock fuel' j infos false).run tape = .done answer rest := by
  have rescheduled {j₁ : Juggler} {next : ℕ} {tape : List ℕ}
      (ran : (reschedule fuel j₁ infos next false).run tape = .done answer rest) :
      (reschedule fuel' j₁ infos next false).run tape = .done answer rest := by
    unfold reschedule at ran ⊢
    obtain ⟨placed, mid, found, same⟩ := Draw.bind_done_iff.mp ran
    exact Draw.bind_done_iff.mpr ⟨placed, mid, place_mono more found, same⟩
  unfold getDevblock at ran ⊢
  cases obsoleted : j.getObsoleted infos with
  | some next =>
    rw [obsoleted] at ran
    exact rescheduled ran
  | none =>
    rw [obsoleted] at ran
    obtain ⟨_, mid, checked, ran⟩ := Draw.bind_done_iff.mp ran
    obtain ⟨index, mid', drawn, ran⟩ := Draw.bind_done_iff.mp ran
    obtain ⟨unlinked, mid'', found, ran⟩ := Draw.bind_done_iff.mp ran
    exact Draw.bind_done_iff.mpr ⟨_, mid, checked, Draw.bind_done_iff.mpr ⟨index, mid', drawn,
      Draw.bind_done_iff.mpr ⟨unlinked, mid'', found, rescheduled ran⟩⟩⟩

/-! ## Schedules -/

/-- Infinitely many calls from `j` on. Call `n` draws `outcomes n` and hands out `block n`. -/
structure Schedule (j : Juggler) (infos : BlockioInfos) where
  fuel : ℕ → ℕ
  outcomes : ℕ → List ℕ
  juggler : ℕ → Juggler
  records : ℕ → BlockioInfos
  block : ℕ → ℕ
  start : juggler 0 = j ∧ records 0 = infos
  call : ∀ n, (getDevblock (fuel n) (juggler n) (records n) false).run (outcomes n) =
    .done (some (block n), juggler (n + 1), records (n + 1)) []

namespace Schedule

variable {j : Juggler} {infos : BlockioInfos} (s : Schedule j infos)

/-- The outcomes of `n` calls from call `k` on. -/
def drawn (k n : ℕ) : List ℕ := (List.range' k n).flatMap s.outcomes

theorem drawn_succ (k n : ℕ) : s.drawn k (n + 1) = s.outcomes k ++ s.drawn (k + 1) n := by
  rw [drawn, List.range'_succ, List.flatMap_cons, drawn]

theorem drawn_add (k n n' : ℕ) : s.drawn k (n + n') = s.drawn k n ++ s.drawn (k + n) n' := by
  rw [drawn, drawn, drawn, ← List.flatMap_append, List.range'_append_1]

/-- The state of a program that makes call `n` next. -/
def At (n : ℕ) (j' : Juggler) (infos' : BlockioInfos) : Prop := j' = s.juggler n ∧ Alike (s.records n) infos'

variable {s}

/-- A call at its place in the schedule. -/
theorem At.call {n : ℕ} {j' : Juggler} {infos' : BlockioInfos} (there : s.At n j' infos') :
    ∃ j'' infos'', s.At (n + 1) j'' infos'' ∧ ∀ fuel later, s.fuel n ≤ fuel →
      (getDevblock fuel j' infos' false).run (s.outcomes n ++ later) = .done (some (s.block n), j'', infos'') later := by
  obtain ⟨rfl, alike⟩ := there
  obtain ⟨r, ran, alike'⟩ := getDevblock_congr alike (s.call n)
  exact ⟨_, r, ⟨rfl, alike'⟩, fun fuel later enough => Draw.run_append (getDevblock_mono enough ran) later⟩

/-- There is no other way in which the call can return. -/
theorem At.called {n fuel : ℕ} {j' j'' : Juggler} {infos' infos'' : BlockioInfos} {b : Option ℕ} {later rest : List ℕ}
    (there : s.At n j' infos')
    (ran : (getDevblock fuel j' infos' false).run (s.outcomes n ++ later) = .done (b, j'', infos'') rest) :
    b = some (s.block n) ∧ rest = later ∧ s.At (n + 1) j'' infos'' := by
  obtain ⟨j₁, infos₁, there₁, returns⟩ := there.call
  have same := (getDevblock_mono (Nat.le_max_right (s.fuel n) fuel) ran).symm.trans
    (returns _ later (Nat.le_max_left (s.fuel n) fuel))
  cases same
  exact ⟨rfl, rfl, there₁⟩

/-- The block that is due is handed out. -/
theorem At.block_eq {n : ℕ} {j' : Juggler} {infos' : BlockioInfos} {t : ℕ} (there : s.At n j' infos')
    (due : j'.getObsoleted infos' = some t) : s.block n = t := by
  obtain ⟨rfl, alike⟩ := there
  rw [alike.getObsoleted] at due
  obtain ⟨b, handed, handout⟩ := (getDevblock_yields (s.fuel n) (s.juggler n) (s.records n)).of_done (s.call n)
  cases handed
  rcases handout.source with ⟨obsoleted, -⟩ | ⟨obsoleted, -⟩
  · exact Option.some.inj (obsoleted.symm.trans due)
  · exact nomatch obsoleted.symm.trans due

end Schedule

/-! ## Two blocks -/

/-- Two blocks that take turns. -/
structure Turns where
  juggler : Juggler
  records : BlockioInfos
  due : ℕ
  other : ℕ
  scheduled : juggler.scheduled = [due, other]
  noUnscheduled : juggler.noUnscheduled = 0
  differ : due ≠ other
  first : (records due).nextSeqno = juggler.seqno + 1
  second : (records other).nextSeqno = juggler.seqno + 2

namespace Turns

/-- The block that is due is placed behind the other one. -/
def step (t : Turns) : Turns where
  juggler := { t.juggler with
    seqno := t.juggler.seqno + 1, scheduled := [t.other, t.due], noScheduled := t.juggler.noScheduled - 1 + 1 }
  records := t.records.set t.due { t.records t.due with seqno := t.juggler.seqno + 1, nextSeqno := t.juggler.seqno + 3 }
  due := t.other
  other := t.due
  scheduled := rfl
  noUnscheduled := t.noUnscheduled
  differ := t.differ.symm
  first := by rw [BlockioInfos.set_of_ne _ _ t.differ.symm, t.second]
  second := by rw [BlockioInfos.set_same]

theorem getObsoleted (t : Turns) : t.juggler.getObsoleted t.records = some t.due := by
  rw [Juggler.getObsoleted, t.scheduled]
  exact if_pos t.first

theorem call (t : Turns) :
    (getDevblock 2 t.juggler t.records false).run [0] = .done (some t.due, t.step.juggler, t.step.records) [] := by
  have placed : (place t.records t.due 2 (t.juggler.seqno + 1) (t.juggler.noUnscheduled + 1) [t.other]).run [0] =
      .done (t.juggler.seqno + 3, [t.other, t.due]) [] := by
    rw [place, if_pos (by rw [List.head?_cons, Option.map_some, t.second]), t.noUnscheduled]
    rfl
  rw [getDevblock, t.getObsoleted]
  simp only [reschedule, t.scheduled, List.tail_cons, Bool.false_and, Bool.false_eq_true, if_false]
  exact Draw.bind_done_iff.mpr ⟨_, _, placed, rfl⟩

/-- They take turns for ever. -/
def schedule (t : Turns) : Schedule t.juggler t.records where
  fuel _ := 2
  outcomes _ := [0]
  juggler n := (step^[n] t).juggler
  records n := (step^[n] t).records
  block n := (step^[n] t).due
  start := ⟨rfl, rfl⟩
  call n := by
    rw [Function.iterate_succ_apply']
    exact call _

theorem seqno_iterate (t : Turns) (n : ℕ) : (step^[n] t).juggler.seqno = t.juggler.seqno + n := by
  induction n with
  | zero => rfl
  | succ n ih =>
    rw [Function.iterate_succ_apply']
    exact congrArg (· + 1) ih

theorem alone (t : Turns) (n : ℕ) :
    (t.schedule.juggler (n + 1)).getObsoleted (t.schedule.records (n + 1)) ≠ some (t.schedule.block n) := by
  have due : (t.schedule.juggler (n + 1)).getObsoleted (t.schedule.records (n + 1)) = some (step^[n] t).other := by
    change (step^[n + 1] t).juggler.getObsoleted (step^[n + 1] t).records = _
    rw [getObsoleted, Function.iterate_succ_apply']
    rfl
  rw [due]
  exact fun same => (step^[n] t).differ (Option.some.inj same).symm

theorem nextSeqno_eq (t : Turns) (n : ℕ) :
    (t.schedule.records (n + 1) (t.schedule.block n)).nextSeqno = t.juggler.seqno + n + 3 := by
  change ((step^[n + 1] t).records (step^[n] t).due).nextSeqno = _
  rw [Function.iterate_succ_apply', ← t.seqno_iterate n]
  exact congrArg BlockioInfo.nextSeqno (BlockioInfos.set_same ..)

end Turns

end Scubed3.Juggler
