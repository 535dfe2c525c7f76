import Scubed3.Juggler.Invariant

/-! # Every reachable schedule is well formed

A run adds fresh blocks and asks for blocks, keeping or discarding what it gets. The invariant
holds in every state such a run reaches, so no call fails an assertion or walks off a list; what
keeps a call from returning is only that the source has not delivered a zero yet.
-/

namespace Scubed3.Juggler

/-! ## Discarding -/

/-- A call that may discard: it is refused and changes nothing, or it takes one block out and leaves
a well-formed, nonempty schedule of the others. -/
theorem getDevblock_discard_safe {fuel : ℕ} {j : Juggler} {infos : BlockioInfos} {blocks : Finset ℕ}
    (inv : Invariant j infos blocks)
    (possible : j.discardPossible infos (j.getObsoleted infos) = true) :
    Draw.Safe (getDevblock fuel j infos true) fun r =>
      ∃ b ∈ blocks, r.1 = some b ∧ Invariant r.2.1 r.2.2 (blocks.erase b) ∧
        (blocks.erase b).Nonempty := by
  unfold getDevblock
  rw [possible]
  simp only [Bool.not_true, Bool.and_false, Bool.false_eq_true, if_false]
  cases obsoleted : j.getObsoleted infos with
  | some b =>
    obtain ⟨rest, scheduled, promised⟩ := getObsoleted_eq_some_iff.mp obsoleted
    have member : b ∈ blocks := inv.mem_of_scheduled (by simp [scheduled])
    have sorted := inv.sorted
    rw [scheduled] at sorted
    have after := (List.pairwise_cons.mp sorted).1
    have lists := inv.pop scheduled
    have absent := lists.not_mem_scheduled (Finset.notMem_erase b blocks)
    -- what `juggler_discard_possible` has checked for a scheduled block
    have filled : 0 < j.noUnscheduled ∨ rest.head?.map (due infos) = some (j.seqno + 1 + 1) := by
      rw [obsoleted] at possible
      simp only [discardPossible, scheduled, linkedNext_cons, promised, Bool.not_eq_true',
        Bool.and_eq_false_iff, beq_eq_false_iff_ne] at possible
      rcases possible with stocked | next
      · exact .inl (Nat.pos_of_ne_zero stocked)
      · cases head : rest.head? with
        | none => simp [head] at next
        | some c => right; simpa [head] using next
    simp only [scheduled, List.tail_cons, reschedule, if_true]
    refine .bind (.lift_ok (check_of _ _ ?_) (q := fun _ => True) trivial) fun _ _ => .pure ?_
    · exact filled
    · refine ⟨b, member, rfl, ⟨?_, ?_, ?_⟩, ?_⟩
      · obtain ⟨sorted, count, count', nodup, memIff⟩ := lists.congr
          (infos.set b { infos b with seqno := j.seqno + 1, nextSeqno := j.seqno + 1 })
          fun c inRest => by rw [due_set, Function.update_of_ne (ne_of_mem_of_not_mem inRest absent)]
        exact ⟨sorted, count, count', nodup, memIff⟩
      · intro c inRest
        rw [due_set, Function.update_of_ne (ne_of_mem_of_not_mem inRest absent), ← promised]
        exact after c inRest
      · intro _ empty
        rcases filled with stocked | next
        · exact absurd empty stocked.ne'
        · cases head : rest with
          | nil => simp [head] at next
          | cons c tail =>
            have different : c ≠ b := ne_of_mem_of_not_mem (by simp [head]) absent
            rw [due_set]
            simpa [head, Function.update_of_ne different] using next
      · rcases filled with stocked | next
        · obtain ⟨c, inList⟩ := List.exists_mem_of_length_pos (inv.noUnscheduled ▸ stocked)
          exact ⟨c, lists.mem_of_unscheduled inList⟩
        · cases head : rest with
          | nil => simp [head] at next
          | cons c tail => exact ⟨c, lists.mem_of_scheduled (by simp [head])⟩
  | none =>
    -- what `juggler_discard_possible` has checked for an unscheduled block
    have two : 2 ≤ j.noUnscheduled := by
      rw [obsoleted] at possible
      simp only [discardPossible, Bool.not_eq_true', decide_eq_false_iff_not] at possible
      omega
    have stocked : j.unscheduled ≠ [] := by
      intro empty
      simp [inv.noUnscheduled, empty] at two
    refine .bind (.lift_ok (check_of _ _ ⟨stocked, by omega⟩) (q := fun _ => True) trivial) fun _ _ => ?_
    refine .bind (randomCustom_ensures (by omega) (q := (· < j.noUnscheduled)) fun _ bound => bound)
      fun index bound => ?_
    have bound : index < j.unscheduled.length := inv.noUnscheduled ▸ bound
    refine .bind (.lift_ok (unlinkNth_eq bound) (q := fun pair => (pair.1 :: pair.2).Perm j.unscheduled)
      (List.getElem_cons_eraseIdx_perm bound)) fun pair perm => ?_
    have member : pair.1 ∈ blocks := inv.mem_of_unscheduled (perm.mem_iff.mp List.mem_cons_self)
    have lists := inv.unlink perm
    have absent := lists.not_mem_scheduled (Finset.notMem_erase pair.1 blocks)
    simp only [if_true]
    refine .bind (.lift_ok (check_of _ _ (by omega)) (q := fun _ => True) trivial) fun _ _ => .pure ?_
    refine ⟨pair.1, member, rfl, ⟨?_, ?_, ?_⟩, ?_⟩
    · exact lists.congr _ fun c inList => by
        rw [due_set, Function.update_of_ne (ne_of_mem_of_not_mem inList absent)]
    · intro c inList
      rw [due_set, Function.update_of_ne (ne_of_mem_of_not_mem inList absent)]
      exact inv.future c inList
    · intro _ empty
      dsimp only at empty
      omega
    · have length := lists.noUnscheduled
      dsimp only at length
      obtain ⟨c, inList⟩ := List.exists_mem_of_length_pos (l := pair.2) (by omega)
      exact ⟨c, lists.mem_of_unscheduled inList⟩

theorem getDevblock_refused (fuel : ℕ) (j : Juggler) (infos : BlockioInfos)
    (impossible : j.discardPossible infos (j.getObsoleted infos) = false) :
    (getDevblock fuel j infos true) = pure (none, j, infos) := by
  unfold getDevblock
  rw [impossible]
  rfl

/-! ## Returning -/

/-- The loop stops at the latest when it is given a zero. -/
theorem place_returns (infos : BlockioInfos) (next nextSeqno : ℕ) (iterate : List ℕ) {available : ℕ} {tape : List ℕ}
    (positive : 0 < available) (zero : 0 ∈ tape) :
    ∃ fuel placed rest, (place infos next fuel nextSeqno available iterate).run tape = .done placed rest := by
  induction size : iterate.length + tape.length generalizing nextSeqno available iterate tape with
  | zero =>
    obtain ⟨outcome, rest, rfl⟩ := List.exists_cons_of_ne_nil (List.ne_nil_of_mem zero)
    simp at size
  | succ size ih =>
    by_cases occupied : iterate.head?.map (fun c => (infos c).nextSeqno) = some (nextSeqno + 1)
    · obtain ⟨c, after, rfl⟩ : ∃ c after, iterate = c :: after := by
        cases iterate with
        | nil => simp at occupied
        | cons c after => exact ⟨c, after, rfl⟩
      simp only [List.length_cons] at size
      obtain ⟨fuel, placed, rest, ran⟩ := ih (nextSeqno + 1) after (Nat.succ_pos available) zero
        (by omega)
      refine ⟨fuel + 1, (placed.1, c :: placed.2), rest, ?_⟩
      rw [place, if_pos occupied]
      exact Draw.bind_done_iff.mpr ⟨placed, rest, ran, rfl⟩
    · obtain ⟨outcome, tail, rfl⟩ := List.exists_cons_of_ne_nil (List.ne_nil_of_mem zero)
      have drawn : (randomCustom available).run (outcome :: tail) =
          .done (outcome % available) tail := by
        rw [randomCustom, if_neg positive.ne']
        exact Draw.run_draw_cons ..
      by_cases taken : outcome % available = 0
      · refine ⟨1, (nextSeqno + 1, next :: iterate), tail, ?_⟩
        rw [place, if_neg occupied]
        exact Draw.bind_done_iff.mpr ⟨_, tail, drawn, by rw [if_pos taken]; rfl⟩
      · have later : 0 ∈ tail := by
          rcases List.mem_cons.mp zero with rfl | later
          · simp at taken
          · exact later
        simp only [List.length_cons] at size
        obtain ⟨fuel, placed, rest, ran⟩ := ih (nextSeqno + 1) iterate positive later (by omega)
        refine ⟨fuel + 1, placed, rest, ?_⟩
        rw [place, if_neg occupied]
        exact Draw.bind_done_iff.mpr ⟨_, tail, drawn, by rw [if_neg taken]; exact ran⟩

theorem reschedule_returns (j : Juggler) (infos : BlockioInfos) (b : ℕ) {tape : List ℕ} (zero : 0 ∈ tape) :
    ∃ fuel r rest, (reschedule fuel j infos b false).run tape = .done r rest := by
  obtain ⟨fuel, placed, rest, ran⟩ := place_returns infos b (j.seqno + 1) j.scheduled
    (Nat.succ_pos j.noUnscheduled) zero
  exact ⟨fuel, _, rest, Draw.bind_done_iff.mpr ⟨placed, rest, ran, rfl⟩⟩

/-- A call returns once the source delivers a zero after the outcome that picks the block. -/
theorem getDevblock_returns {j : Juggler} {infos : BlockioInfos} {blocks : Finset ℕ} {tape : List ℕ}
    (inv : Invariant j infos blocks) (nonempty : blocks.Nonempty) (zero : 0 ∈ tape.tail) :
    ∃ fuel r rest, (getDevblock fuel j infos false).run tape = .done r rest := by
  unfold getDevblock
  cases obsoleted : j.getObsoleted infos with
  | some b => exact reschedule_returns _ infos b (List.mem_of_mem_tail zero)
  | none =>
    obtain ⟨outcome, tail, rfl⟩ : ∃ outcome tail, tape = outcome :: tail := by
      cases tape with
      | nil => simp at zero
      | cons outcome tail => exact ⟨outcome, tail, rfl⟩
    have positive := inv.unscheduled_pos nonempty obsoleted
    have stocked : j.unscheduled ≠ [] := by
      intro empty
      simp [inv.noUnscheduled, empty] at positive
    have bound : outcome % j.noUnscheduled < j.unscheduled.length :=
      inv.noUnscheduled ▸ Nat.mod_lt outcome positive
    have drawn : (randomCustom j.noUnscheduled).run (outcome :: tail) =
        .done (outcome % j.noUnscheduled) tail := by
      rw [randomCustom, if_neg positive.ne']
      exact Draw.run_draw_cons ..
    obtain ⟨fuel, r, rest, ran⟩ := reschedule_returns
      { j with unscheduled := j.unscheduled.eraseIdx (outcome % j.noUnscheduled),
               noUnscheduled := j.noUnscheduled - 1 } infos j.unscheduled[outcome % j.noUnscheduled] zero
    refine ⟨fuel, r, rest, ?_⟩
    refine Draw.bind_done_iff.mpr ⟨(), _, Draw.lift_done_iff.mpr ⟨check_of _ _ ⟨stocked, positive.ne'⟩, rfl⟩, ?_⟩
    refine Draw.bind_done_iff.mpr ⟨_, _, drawn, ?_⟩
    exact Draw.bind_done_iff.mpr ⟨_, _, Draw.lift_done_iff.mpr ⟨unlinkNth_eq bound, rfl⟩, ran⟩

/-! ## Runs -/

/-- The states a juggler goes through from its first block on; `held` are the blocks that were added
and not discarded. A fresh block comes with both sequence numbers zero. -/
inductive Run : Juggler → BlockioInfos → (held : Finset ℕ) → Prop
  | first {infos : BlockioInfos} {b : ℕ} {j : Juggler} (seqno : (infos b).seqno = 0)
      (nextSeqno : (infos b).nextSeqno = 0) (added : Juggler.init.addMacroblock infos b = .ok j) :
      Run j infos {b}
  | add {j j' : Juggler} {infos : BlockioInfos} {held : Finset ℕ} {b : ℕ} {info : BlockioInfo}
      (run : Run j infos held) (absent : b ∉ held) (seqno : info.seqno = 0)
      (nextSeqno : info.nextSeqno = 0) (added : j.addMacroblock (infos.set b info) b = .ok j') :
      Run j' (infos.set b info) (insert b held)
  | keep {j j' : Juggler} {infos infos' : BlockioInfos} {held : Finset ℕ} {b fuel : ℕ} {tape rest : List ℕ}
      (run : Run j infos held)
      (ran : (getDevblock fuel j infos false).run tape = .done (some b, j', infos') rest) :
      Run j' infos' held
  | discard {j j' : Juggler} {infos infos' : BlockioInfos} {held : Finset ℕ} {b fuel : ℕ}
      {tape rest : List ℕ} (run : Run j infos held)
      (ran : (getDevblock fuel j infos true).run tape = .done (some b, j', infos') rest) :
      Run j' infos' (held.erase b)
  | refuse {j j' : Juggler} {infos infos' : BlockioInfos} {held : Finset ℕ} {fuel : ℕ}
      {tape rest : List ℕ} (run : Run j infos held)
      (ran : (getDevblock fuel j infos true).run tape = .done (none, j', infos') rest) :
      Run j' infos' held

/-- A record that belongs to no listed block does not matter. -/
theorem Invariant.set_absent {j : Juggler} {infos : BlockioInfos} {blocks : Finset ℕ} {b : ℕ}
    (inv : Invariant j infos blocks) (absent : b ∉ blocks) (info : BlockioInfo) :
    Invariant j (infos.set b info) blocks := by
  have same : ∀ c ∈ j.scheduled, due (infos.set b info) c = due infos c := fun c member => by
    rw [due_set, Function.update_of_ne (ne_of_mem_of_not_mem (inv.mem_of_scheduled member) absent)]
  refine ⟨inv.toLists.congr _ same, fun c member => same c member ▸ inv.future c member, ?_⟩
  intro nonempty empty
  cases scheduled : j.scheduled with
  | nil => simpa [scheduled] using inv.noHole nonempty empty
  | cons c rest =>
    have head := inv.noHole nonempty empty
    rw [scheduled] at head
    simpa [same c (by simp [scheduled])] using head

theorem Run.invariant {j : Juggler} {infos : BlockioInfos} {held : Finset ℕ} (run : Run j infos held) :
    Invariant j infos held ∧ held.Nonempty := by
  induction run with
  | @first infos b j seqno nextSeqno added =>
    obtain ⟨j', added', inv, -⟩ :=
      (Invariant.init infos).addMacroblock_fresh (Finset.notMem_empty b) seqno nextSeqno
    cases added.symm.trans added'
    exact ⟨by simpa using inv, Finset.singleton_nonempty b⟩
  | @add j j' infos held b info run absent seqno nextSeqno added ih =>
    obtain ⟨j'', added', inv, -⟩ := (ih.1.set_absent absent info).addMacroblock_fresh absent
      (by simpa using seqno) (by simpa using nextSeqno)
    cases added.symm.trans added'
    exact ⟨inv, Finset.insert_nonempty b held⟩
  | keep run ran ih =>
    obtain ⟨b, -, -, inv⟩ := (getDevblock_safe ih.1 ih.2).of_done ran
    exact ⟨inv, ih.2⟩
  | @discard j j' infos infos' held b fuel tape rest run ran ih =>
    cases possible : j.discardPossible infos (j.getObsoleted infos) with
    | false =>
      rw [getDevblock_refused fuel j infos possible] at ran
      cases ran
    | true =>
      obtain ⟨c, -, handed, inv, nonempty⟩ := (getDevblock_discard_safe ih.1 possible).of_done ran
      cases handed
      exact ⟨inv, nonempty⟩
  | @refuse j j' infos infos' held fuel tape rest run ran ih =>
    cases possible : j.discardPossible infos (j.getObsoleted infos) with
    | false =>
      rw [getDevblock_refused fuel j infos possible] at ran
      cases ran
      exact ih
    | true =>
      obtain ⟨c, -, handed, -⟩ := (getDevblock_discard_safe ih.1 possible).of_done ran
      cases handed

end Scubed3.Juggler
