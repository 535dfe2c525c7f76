import Scubed3.Juggler.Reachable

/-! # A promised block comes back exactly when it was promised

A history is a run that never discards, together with the calls it has answered. Each call promises
a sequence number to its block. `Promises` relates the calls to the schedule: the promises that are
still ahead are exactly the entries of the scheduled list, and only blocks that were never handed
out are unscheduled. Garbage collection rests on this, since it copies the block that
`juggler_get_obsoleted` names before that block is overwritten.
-/

namespace Scubed3.Juggler

/-- An answered call: the block and the two sequence numbers it was given. -/
structure Call where
  block : ℕ
  seqno : ℕ
  nextSeqno : ℕ

/-- Additions of fresh blocks only. -/
inductive Adds (j : Juggler) (infos : BlockioInfos) (held : Finset ℕ) :
    Juggler → BlockioInfos → Finset ℕ → Prop
  | refl : Adds j infos held j infos held
  | add {j' j'' : Juggler} {infos' : BlockioInfos} {held' : Finset ℕ} {b : ℕ} {info : BlockioInfo}
      (adds : Adds j infos held j' infos' held') (absent : b ∉ held') (seqno : info.seqno = 0)
      (nextSeqno : info.nextSeqno = 0) (added : j'.addMacroblock (infos'.set b info) b = .ok j'') :
      Adds j infos held j'' (infos'.set b info) (insert b held')

/-- The runs from `juggler_init` by additions and calls that keep their block, with the calls
answered so far, oldest first. -/
inductive History : Juggler → BlockioInfos → (held : Finset ℕ) → List Call → Prop
  | init (infos : BlockioInfos) : History Juggler.init infos ∅ []
  | adds {j j' : Juggler} {infos infos' : BlockioInfos} {held held' : Finset ℕ} {calls : List Call}
      (history : History j infos held calls) (adds : Adds j infos held j' infos' held') :
      History j' infos' held' calls
  | call {j j' : Juggler} {infos infos' : BlockioInfos} {held : Finset ℕ} {calls : List Call}
      {b fuel : ℕ} {tape rest : List ℕ} (history : History j infos held calls)
      (ran : (getDevblock fuel j infos false).run tape = .done (some b, j', infos') rest) :
      History j' infos' held (calls ++ [⟨b, (infos' b).seqno, (infos' b).nextSeqno⟩])

/-- What the calls so far say about the schedule and about each other. -/
structure Promises (j : Juggler) (infos : BlockioInfos) (held : Finset ℕ) (calls : List Call) : Prop
    extends Invariant j infos held where
  numbered : calls.map Call.seqno = List.range' 1 j.seqno
  forward : ∀ c ∈ calls, c.seqno < c.nextSeqno
  pending : ∀ c ∈ calls, j.seqno < c.nextSeqno →
    c.block ∈ j.scheduled ∧ due infos c.block = c.nextSeqno
  promised : ∀ b ∈ j.scheduled, ∃ c ∈ calls, c.block = b ∧ c.nextSeqno = due infos b
  returned : ∀ c ∈ calls, c.block ∈ j.scheduled
  quiet : ∀ c ∈ calls, ∀ c' ∈ calls, c.seqno < c'.seqno → c'.seqno < c.nextSeqno → c'.block ≠ c.block
  kept : ∀ c ∈ calls, ∀ c' ∈ calls, c'.seqno = c.nextSeqno → c'.block = c.block
  novel : ∀ c ∈ calls, (∀ c' ∈ calls, c'.nextSeqno ≠ c.seqno) →
    ∀ c' ∈ calls, c'.seqno < c.seqno → c'.block ≠ c.block

namespace Promises

variable {j : Juggler} {infos : BlockioInfos} {held : Finset ℕ} {calls : List Call} {b : ℕ}

theorem init (infos : BlockioInfos) : Promises Juggler.init infos ∅ [] where
  toInvariant := Invariant.init infos
  numbered := rfl
  forward := by simp
  pending := by simp
  promised := by simp [Juggler.init]
  returned := by simp
  quiet := by simp
  kept := by simp
  novel := by simp

theorem seqno_le (promises : Promises j infos held calls) {c : Call} (member : c ∈ calls) :
    c.seqno ≤ j.seqno := by
  have numbered : c.seqno ∈ List.range' 1 j.seqno := promises.numbered ▸ List.mem_map_of_mem member
  have := (List.mem_range'_1.mp numbered).2
  omega

/-- An unscheduled block was never handed out. -/
theorem never_returned (promises : Promises j infos held calls) (member : b ∈ j.unscheduled) :
    ∀ c ∈ calls, c.block ≠ b := by
  rintro c inCalls rfl
  exact (List.disjoint_of_nodup_append promises.nodup) (promises.returned c inCalls) member

/-- What a call with answer `b` says about the promises made before it. -/
theorem not_pending {j' : Juggler} {infos' : BlockioInfos} (promises : Promises j infos held calls)
    (handout : Handout j infos b j' infos') {c : Call} (member : c ∈ calls)
    (ahead : j.seqno + 1 < c.nextSeqno) : c.block ≠ b := by
  rintro rfl
  obtain ⟨scheduled, promised⟩ := promises.pending c member (by omega)
  rcases handout.source with ⟨obsoleted, -⟩ | ⟨-, -, perm⟩
  · obtain ⟨-, -, due⟩ := getObsoleted_eq_some_iff.mp obsoleted
    omega
  · exact promises.never_returned (perm.mem_iff.mp List.mem_cons_self) c member rfl

/-- One call. -/
theorem call {j' : Juggler} {infos' : BlockioInfos} (promises : Promises j infos held calls)
    (handout : Handout j infos b j' infos') (inv : Invariant j' infos' held) :
    Promises j' infos' held (calls ++ [⟨b, (infos' b).seqno, (infos' b).nextSeqno⟩]) := by
  obtain ⟨t, later, infosEq⟩ := handout.infos_eq
  have ownSeqno : (infos' b).seqno = j.seqno + 1 := by rw [infosEq, BlockioInfos.set_same]
  have ownNext : (infos' b).nextSeqno = t := by rw [infosEq, BlockioInfos.set_same]
  have dueOther : ∀ c, c ≠ b → due infos' c = due infos c := fun c different => by
    rw [infosEq, due_set, Function.update_of_ne different]
  have seqno := handout.seqno
  -- the schedule consists of the blocks scheduled before and `b`
  have scheduled : ∀ c, c ∈ j'.scheduled ↔ c = b ∨ c ∈ j.scheduled := by
    intro c
    rcases handout.source with ⟨obsoleted, perm, -⟩ | ⟨-, perm, -⟩
    · obtain ⟨rest, head, -⟩ := getObsoleted_eq_some_iff.mp obsoleted
      simp [perm.mem_iff, head]
    · rw [perm.mem_iff, List.mem_cons]
  rw [ownSeqno, ownNext]
  refine { inv with
    numbered := ?_, forward := ?_, pending := ?_, promised := ?_, returned := ?_, quiet := ?_,
    kept := ?_, novel := ?_ }
  · rw [List.map_append, promises.numbered, seqno, List.range'_concat]
    simp [Nat.add_comm]
  · intro c member
    rcases List.mem_append.mp member with old | new
    · exact promises.forward c old
    · rw [List.mem_singleton.mp new]
      exact later
  · intro c member ahead
    rw [seqno] at ahead
    rcases List.mem_append.mp member with old | new
    · obtain ⟨inList, promised⟩ := promises.pending c old (by omega)
      exact ⟨(scheduled _).mpr (.inr inList),
        (dueOther _ (promises.not_pending handout old ahead)).trans promised⟩
    · rw [List.mem_singleton.mp new]
      exact ⟨(scheduled _).mpr (.inl rfl), ownNext⟩
  · intro c inList
    by_cases same : c = b
    · exact ⟨⟨b, j.seqno + 1, t⟩, by simp, same.symm, by rw [same]; exact ownNext.symm⟩
    · obtain ⟨old, member, block, promised⟩ :=
        promises.promised c (((scheduled c).mp inList).resolve_left same)
      exact ⟨old, List.mem_append_left _ member, block, promised.trans (dueOther c same).symm⟩
  · intro c member
    rcases List.mem_append.mp member with old | new
    · exact (scheduled _).mpr (.inr (promises.returned c old))
    · exact (scheduled _).mpr (.inl (by rw [List.mem_singleton.mp new]))
  · intro c member c' member' after before
    rcases List.mem_append.mp member' with old' | new'
    · have := promises.seqno_le old'
      rcases List.mem_append.mp member with old | new
      · exact promises.quiet c old c' old' after before
      · rw [List.mem_singleton.mp new] at after
        dsimp only at after
        omega
    · rw [List.mem_singleton.mp new'] at after before ⊢
      rcases List.mem_append.mp member with old | new
      · exact (promises.not_pending handout old before).symm
      · rw [List.mem_singleton.mp new] at after
        exact absurd after (lt_irrefl _)
  · intro c member c' member' same
    rcases List.mem_append.mp member with old | new
    · rcases List.mem_append.mp member' with old' | new'
      · exact promises.kept c old c' old' same
      · rw [List.mem_singleton.mp new'] at same ⊢
        dsimp only at same ⊢
        obtain ⟨inList, promised⟩ := promises.pending c old (by omega)
        rcases handout.source with ⟨obsoleted, -⟩ | ⟨obsoleted, -⟩
        · obtain ⟨rest, head, promisedHead⟩ := getObsoleted_eq_some_iff.mp obsoleted
          by_contra different
          have headMember : b ∈ j.scheduled := by simp [head]
          exact promises.sorted.key_ne headMember inList different (by omega)
        · have := promises.later_of_unpromised obsoleted _ inList
          omega
    · rw [List.mem_singleton.mp new] at same
      dsimp only at same
      rcases List.mem_append.mp member' with old' | new'
      · have := promises.seqno_le old'
        omega
      · rw [List.mem_singleton.mp new'] at same
        dsimp only at same
        omega
  · intro c member unpromised c' member' before
    rcases List.mem_append.mp member with old | new
    · rcases List.mem_append.mp member' with old' | new'
      · exact promises.novel c old (fun d inCalls => unpromised d (List.mem_append_left _ inCalls)) c' old'
          before
      · rw [List.mem_singleton.mp new'] at before
        have := promises.seqno_le old
        dsimp only at before
        omega
    · rw [List.mem_singleton.mp new] at unpromised before ⊢
      rcases List.mem_append.mp member' with old' | new'
      · rcases handout.source with ⟨obsoleted, -⟩ | ⟨-, -, perm⟩
        · obtain ⟨rest, head, promisedHead⟩ := getObsoleted_eq_some_iff.mp obsoleted
          obtain ⟨d, inCalls, -, promised⟩ := promises.promised b (by simp [head])
          exact absurd (promised.trans promisedHead) (unpromised d (List.mem_append_left _ inCalls))
        · exact promises.never_returned (perm.mem_iff.mp List.mem_cons_self) c' old'
      · rw [List.mem_singleton.mp new'] at before
        exact absurd before (lt_irrefl _)

/-- One addition. -/
theorem add {j' : Juggler} {info : BlockioInfo} (promises : Promises j infos held calls)
    (absent : b ∉ held) (seqno : info.seqno = 0) (nextSeqno : info.nextSeqno = 0)
    (added : j.addMacroblock (infos.set b info) b = .ok j') :
    Promises j' (infos.set b info) (insert b held) calls ∧
      j'.getObsoleted (infos.set b info) = j.getObsoleted infos := by
  obtain ⟨j'', added', inv, rfl⟩ := (promises.set_absent absent info).addMacroblock_fresh absent
    (by simpa using seqno) (by simpa using nextSeqno)
  cases added.symm.trans added'
  have same : ∀ c ∈ j.scheduled, due (infos.set b info) c = due infos c := fun c member => by
    rw [due_set, Function.update_of_ne (ne_of_mem_of_not_mem (promises.mem_of_scheduled member) absent)]
  refine ⟨{ inv with
    numbered := promises.numbered, forward := promises.forward, returned := promises.returned,
    quiet := promises.quiet, kept := promises.kept, novel := promises.novel, pending := ?_,
    promised := ?_ }, ?_⟩
  · intro c member ahead
    obtain ⟨inList, promised⟩ := promises.pending c member ahead
    exact ⟨inList, (same _ inList).trans promised⟩
  · intro c inList
    obtain ⟨d, member, block, promised⟩ := promises.promised c inList
    exact ⟨d, member, block, promised.trans (same c inList).symm⟩
  · cases scheduled : j.scheduled with
    | nil => simp [getObsoleted, scheduled]
    | cons c rest =>
      rw [getObsoleted_cons j infos scheduled, getObsoleted_cons _ _ rfl, same c (by simp [scheduled])]

theorem adds {j' : Juggler} {infos' : BlockioInfos} {held' : Finset ℕ}
    (promises : Promises j infos held calls) (adds : Adds j infos held j' infos' held') :
    Promises j' infos' held' calls ∧ j'.getObsoleted infos' = j.getObsoleted infos := by
  induction adds with
  | refl => exact ⟨promises, rfl⟩
  | add _ absent seqno nextSeqno added ih =>
    obtain ⟨kept, obsoleted⟩ := ih.1.add absent seqno nextSeqno added
    exact ⟨kept, obsoleted.trans ih.2⟩

end Promises

/-- A call that returns finds a block, so some block is held. -/
theorem getDevblock_nonempty {fuel : ℕ} {j j' : Juggler} {infos infos' : BlockioInfos} {held : Finset ℕ}
    {b : ℕ} {tape rest : List ℕ} (inv : Invariant j infos held)
    (ran : (getDevblock fuel j infos false).run tape = .done (some b, j', infos') rest) :
    held.Nonempty := by
  obtain ⟨_, handed, handout⟩ := (getDevblock_yields fuel j infos).of_done ran
  cases handed
  rcases handout.source with ⟨obsoleted, -⟩ | ⟨-, -, perm⟩
  · obtain ⟨rest, scheduled, -⟩ := getObsoleted_eq_some_iff.mp obsoleted
    exact ⟨b, inv.mem_of_scheduled (by simp [scheduled])⟩
  · exact ⟨b, inv.mem_of_unscheduled (perm.mem_iff.mp List.mem_cons_self)⟩

theorem History.promises {j : Juggler} {infos : BlockioInfos} {held : Finset ℕ} {calls : List Call}
    (history : History j infos held calls) : Promises j infos held calls := by
  induction history with
  | init infos => exact .init infos
  | adds _ adds ih => exact (ih.adds adds).1
  | @call j j' infos infos' held calls b fuel tape rest _ ran ih =>
    obtain ⟨_, handed, handout⟩ := (getDevblock_yields fuel j infos).of_done ran
    cases handed
    obtain ⟨_, -, -, inv⟩ := (getDevblock_safe ih.toInvariant
      (getDevblock_nonempty ih.toInvariant ran)).of_done ran
    exact ih.call handout inv

/-- The calls are numbered from one. Each promises a later number, its block stays away until then
and is the answer to the call of that number; a number that was not promised goes to a block that
was never handed out. After any call, with or without fresh blocks added since,
`juggler_get_obsoleted` names the answer of the next call if that block was handed out before, and
nothing otherwise. -/
theorem history_keeps_promises {j : Juggler} {infos : BlockioInfos} {held : Finset ℕ} {calls : List Call}
    (history : History j infos held calls) :
    calls.map Call.seqno = List.range' 1 calls.length ∧
      (∀ c ∈ calls, c.seqno < c.nextSeqno) ∧
      (∀ c ∈ calls, ∀ c' ∈ calls, c.seqno < c'.seqno → c'.seqno < c.nextSeqno → c'.block ≠ c.block) ∧
      (∀ c ∈ calls, ∀ c' ∈ calls, c'.seqno = c.nextSeqno → c'.block = c.block) ∧
      (∀ c ∈ calls, (∀ c' ∈ calls, c'.nextSeqno ≠ c.seqno) →
        ∀ c' ∈ calls, c'.seqno < c.seqno → c'.block ≠ c.block) ∧
      ∀ j' infos' held', Adds j infos held j' infos' held' →
        ∀ (fuel : ℕ) (tape rest : List ℕ) (b : ℕ) (j'' : Juggler) (infos'' : BlockioInfos),
          (getDevblock fuel j' infos' false).run tape = .done (some b, j'', infos'') rest →
            j.getObsoleted infos = if b ∈ calls.map Call.block then some b else none := by
  have promises := history.promises
  have length : calls.length = j.seqno := by
    have := congrArg List.length promises.numbered
    simpa using this
  refine ⟨length ▸ promises.numbered, promises.forward, promises.quiet, promises.kept, promises.novel, ?_⟩
  intro j' infos' held' adds fuel tape rest b j'' infos'' ran
  obtain ⟨promises', obsoleted'⟩ := promises.adds adds
  obtain ⟨_, handed, handout⟩ := (getDevblock_yields fuel j' infos').of_done ran
  cases handed
  rw [← obsoleted']
  rcases handout.source with ⟨obsoleted, -⟩ | ⟨obsoleted, -, perm⟩
  · obtain ⟨rest, scheduled, -⟩ := getObsoleted_eq_some_iff.mp obsoleted
    obtain ⟨c, member, block, -⟩ := promises'.promised b (by simp [scheduled])
    rw [if_pos (List.mem_map.mpr ⟨c, member, block⟩), obsoleted]
  · have never := promises'.never_returned (perm.mem_iff.mp List.mem_cons_self)
    rw [if_neg, obsoleted]
    intro returned
    obtain ⟨c, member, block⟩ := List.mem_map.mp returned
    exact never c member block

/-- Two blocks, one call: it takes block 7 and promises it the second number. -/
theorem history_keeps_promises_two :
    getObsoleted ⟨[7], [5], 1, 1, 1⟩ (BlockioInfos.set (fun _ => {}) 7 { seqno := 1, nextSeqno := 2 }) =
      some 7 := by
  have first : Adds .init (fun _ => {}) ∅ ⟨[], [5], 0, 1, 0⟩ (BlockioInfos.set (fun _ => {}) 5 {}) {5} :=
    Adds.refl.add (Finset.notMem_empty 5) rfl rfl rfl
  have both : Adds .init (fun _ => {}) ∅ ⟨[], [7, 5], 0, 2, 0⟩
      ((BlockioInfos.set (fun _ => {}) 5 {}).set 7 {}) {7, 5} := first.add (by decide) rfl rfl rfl
  have ran : (getDevblock 1 ⟨[], [7, 5], 0, 2, 0⟩ ((BlockioInfos.set (fun _ => {}) 5 {}).set 7 {}) false).run
    [0, 0] = .done (some 7, ⟨[7], [5], 1, 1, 1⟩, _) [] := rfl
  have called := ((History.init fun _ => {}).adds both).call ran
  exact (history_keeps_promises called).2.2.2.2.2 _ _ _ .refl 1 [0] [] 7 _ _ rfl

end Scubed3.Juggler
