import Scubed3.Partition.Mapping

/-! # Replaying the macroblocks

`scubed3_init` replays the blocks from the oldest to the newest, so that every mesoblock ends up where
it was written last, and then adds them to the juggler.

An entry that a newer macroblock replaces is taken off the counter of the older one, whose list is dropped when nothing of
it is left. In the end every mesoblock is in the newest macroblock that lists it.
-/

namespace Scubed3.Partition

open Blockio

variable (p : Params)

/-- The partition before anything was replayed. -/
def blank (dev : BlockioDev) : Partition where
  dev
  noBlockIndices :=
    if dev.noMacroblocks ≤ dev.reservedMacroblocks then 0
    else usableMesoblks p dev.noMacroblocks dev.reservedMacroblocks
  blockIndices _ := noIndex

/-- The partition after the juggler was restarted. -/
def restarted (l : Partition) (j : Juggler) : Partition :=
  { l with dev := { l.dev with j, replay := [] } }

variable {p}

/-- All that `scubed3_init` can do. -/
theorem init_eq_ok_iff {dev : BlockioDev} {r : Partition × Bool} : init p dev = .ok r ↔
    if dev.noMacroblocks = 0 then r = (blank p dev, false)
    else ∃ l, dev.replay.foldlM (replay p) (blank p dev) = .ok l ∧ ∃ j,
      l.dev.replay.reverse.foldlM (fun j bi => j.addMacroblock l.dev.b.infos bi) l.dev.j = .ok j ∧
      r = (restarted l j, decide (j.hashScheduledSeqnos p.hash l.dev.b.infos ≠ l.dev.seqnosHash)) := by
  unfold init
  by_cases none : dev.noMacroblocks = 0
  · simp only [if_pos none]
    exact Except.pure_eq_ok_iff.trans eq_comm
  · simp only [if_neg none, Except.bind_eq_ok_iff, Except.pure_eq_ok_iff, eq_comm (b := r)]
    rfl

/-! ## Replaying only moves mesoblocks -/

/-- The device and the number of mesoblocks stay. -/
def SameSize (l l' : Partition) : Prop := SameDevice l.dev l'.dev ∧ l'.noBlockIndices = l.noBlockIndices

theorem SameSize.trans {l l' l'' : Partition} (first : SameSize l l') (second : SameSize l' l'') : SameSize l l'' :=
  ⟨first.1.trans second.1, second.2.trans first.2⟩

theorem replay_sameSize (l : Partition) (bi : ℕ) : (replay p l bi).Yields (SameSize l) := by
  refine .foldlM (I := fun _ (l' : Partition) => SameSize l l') ⟨.refl _, rfl⟩ fun _ k _ (l' : Partition) _ same => ?_
  unfold replayMesoblk
  dsimp only
  split
  · exact .pure same
  · refine .bind (m := fun _ => True) (.yields fun _ _ => trivial) fun _ _ => ?_
    exact .bind (obsoleteMesoblkByidx_moved l' _) fun _ moved =>
      .pure (same.trans ⟨moved.toSameDevice, moved.noBlockIndices⟩)

theorem replay_all_sameSize (l : Partition) (order : List ℕ) : (order.foldlM (replay p) l).Yields (SameSize l) :=
  .foldlM (I := fun _ (l' : Partition) => SameSize l l') ⟨.refl _, rfl⟩ fun _ bi _ l' _ same =>
    (replay_sameSize l' bi).imp fun _ => same.trans

/-- Restarting a partition only moves mesoblocks and fills the juggler. -/
theorem init_sameDevice {dev : BlockioDev} {l : Partition} {missing : Bool} (ran : init p dev = .ok (l, missing)) :
    SameDevice dev { l.dev with j := dev.j, replay := dev.replay } := by
  have started := init_eq_ok_iff.mp ran
  split at started
  · cases started
    exact .refl dev
  · obtain ⟨l', replayed, j, -, same⟩ := started
    cases same
    have size := (replay_all_sameSize (blank p dev) dev.replay).value l' replayed
    have rest : l'.dev = setRam dev l'.dev.updated l'.dev.tmpMacroblock l'.dev.b.infos := size.1.rest
    refine ⟨?_, size.1.infos, size.1.dataHash⟩
    rw [restarted]
    dsimp only
    rw [rest]
    rfl

/-! ## Every entry once -/

variable {dev : BlockioDev} {l : Partition} {left : ℕ → ℕ} {bi k : ℕ}

/-- The found macroblocks list what the program writes. -/
structure Replayable (p : Params) (dev : BlockioDev) : Prop where
  addressable : ∀ c ∈ dev.replay, Addressable p (c + 1)
  capacity : ∀ c ∈ dev.replay, (dev.b.infos c).noIndices ≤ p.b.mmpm
  whole : ∀ c ∈ dev.replay, (dev.b.infos c).noNonobsolete = (dev.b.infos c).noIndices
  distinct : ∀ c ∈ dev.replay, ∀ i < (dev.b.infos c).noIndices, ∀ j < (dev.b.infos c).noIndices,
    (dev.b.infos c).indices i = (dev.b.infos c).indices j → i = j
  inside : ∀ c ∈ dev.replay, ∀ i < (dev.b.infos c).noIndices, (dev.b.infos c).indices i < (blank p dev).noBlockIndices
  sorted : dev.replay.SortedByKey fun c => (dev.b.infos c).seqno

/-- The state when of every macroblock `c` the last `left c` entries were not replayed yet. -/
structure Replaying (p : Params) (dev : BlockioDev) (left : ℕ → ℕ) (l : Partition) : Prop where
  size : SameSize (blank p dev) l
  index_lt : ∀ m, l.blockIndices m < 2 ^ 32
  indices : ∀ c, (l.dev.b.infos c).indices = (dev.b.infos c).indices
  others : ∀ c ∉ dev.replay, l.dev.b.infos c = dev.b.infos c
  placed : ∀ m c, Mapped p l m c → c ∈ dev.replay ∧
    indexNo p (l.blockIndices m) + left c < (dev.b.infos c).noIndices ∧
    (dev.b.infos c).indices (indexNo p (l.blockIndices m)) = m
  newest : ∀ c ∈ dev.replay, ∀ i, i + left c < (dev.b.infos c).noIndices →
    ∃ d, Mapped p l ((dev.b.infos c).indices i) d ∧ (dev.b.infos c).seqno ≤ (dev.b.infos d).seqno
  counted : ∀ c ∈ dev.replay, (l.dev.b.infos c).noNonobsolete = (live p l c).card + left c
  noIndices : ∀ c ∈ dev.replay, (l.dev.b.infos c).noIndices =
    if (l.dev.b.infos c).noNonobsolete = 0 then 0 else (dev.b.infos c).noIndices

theorem blank_unmapped (p : Params) (dev : BlockioDev) (m c : ℕ) : ¬ Mapped p (blank p dev) m c := fun mapped => mapped.1 rfl

/-- Before anything was replayed. -/
theorem Replaying.start (replayable : Replayable p dev) : Replaying p dev (fun c => (dev.b.infos c).noIndices) (blank p dev) where
  size := ⟨.refl dev, rfl⟩
  index_lt _ := by
    change noIndex < 2 ^ 32
    decide
  indices _ := rfl
  others _ _ := rfl
  placed m c mapped := absurd mapped (blank_unmapped p dev m c)
  newest c _ i seen := by omega
  counted c member := by
    have none : live p (blank p dev) c = ∅ :=
      Finset.eq_empty_of_forall_notMem fun m inside => blank_unmapped p dev m c (mem_live.mp inside).2
    rw [none, Finset.card_empty, Nat.zero_add]
    exact replayable.whole c member
  noIndices c member := by
    change (dev.b.infos c).noIndices = if (dev.b.infos c).noNonobsolete = 0 then 0 else _
    rw [replayable.whole c member]
    split
    · next zero => exact zero
    · rfl

/-! ## One entry -/

/-- Mesoblock `m` is mapped to position `k` of `bi` now, and the macroblock it was mapped to counts one less. -/
structure Remapped (p : Params) (bi k m : ℕ) (l l' : Partition) : Prop where
  size : SameSize l l'
  table : l'.blockIndices = Function.update l.blockIndices m (blockIndex p bi k)
  old : ∀ c, Mapped p l m c → l'.dev.b.infos c = obsoleted (l.dev.b.infos c)
  same : ∀ c, ¬ Mapped p l m c → l'.dev.b.infos c = l.dev.b.infos c

/-- The body of the loop of `replay`. -/
theorem replayMesoblk_eq {m : ℕ} (listed : (l.dev.b.infos bi).indices k = m) (inside : m < l.noBlockIndices)
    (other : bi ≠ indexId p (l.blockIndices m)) (counts : ∀ c, Mapped p l m c → (l.dev.b.infos c).noNonobsolete ≠ 0) :
    ∃ l', replayMesoblk p bi l k = .ok l' ∧ Remapped p bi k m l l' := by
  unfold replayMesoblk
  dsimp only
  rw [listed, if_neg (not_le.mpr inside), check_of _ _ other]
  by_cases never : l.blockIndices m = noIndex
  · refine ⟨updateBlockIndices p l m bi k, ?_, ⟨⟨.refl _, rfl⟩, rfl, fun c mapped => absurd never mapped.1, fun _ _ => rfl⟩⟩
    rw [obsoleteMesoblkByidx, if_neg (not_not.mpr never)]
    rfl
  · set old := indexId p (l.blockIndices m) with oldEq
    have moved := (obsoleteMesoblk_moved (p := p) l old).value _
      (obsoleteMesoblk_eq_ok_iff.mpr ⟨counts old ⟨never, rfl⟩, rfl⟩)
    refine ⟨updateBlockIndices p (l.setInfo old (obsoleted (l.dev.b.infos old))) m bi k, ?_,
      ⟨⟨moved.toSameDevice, rfl⟩, rfl, fun c mapped => ?_, fun c unmapped => ?_⟩⟩
    · rw [obsoleteMesoblkByidx, if_pos never, obsoleteMesoblk_eq_ok_iff.mpr ⟨counts old ⟨never, rfl⟩, rfl⟩]
      rfl
    · obtain rfl : old = c := mapped.2
      exact BlockioInfos.set_same _ _ _
    · exact BlockioInfos.set_of_ne _ _ fun same => unmapped ⟨never, same.symm⟩

namespace Remapped

variable {m : ℕ} {l' : Partition} (remapped : Remapped p bi k m l l')

include remapped

theorem entry_self : l'.blockIndices m = blockIndex p bi k := by rw [remapped.table, Function.update_self]

theorem entry_other {m' : ℕ} (different : m' ≠ m) : l'.blockIndices m' = l.blockIndices m' := by
  rw [remapped.table, Function.update_of_ne different]

theorem mapped_other {m' c : ℕ} (different : m' ≠ m) : Mapped p l' m' c ↔ Mapped p l m' c := by
  rw [Mapped, Mapped, remapped.entry_other different]

theorem mapped_self (addressable : Addressable p bi) (small : k < p.b.mmpm) : Mapped p l' m bi := by
  rw [Mapped, remapped.entry_self]
  exact ⟨blockIndex_ne_noIndex bi small, addressable.indexId small⟩

theorem live_self (addressable : Addressable p bi) (small : k < p.b.mmpm) (inside : m < l.noBlockIndices) :
    live p l' bi = insert m (live p l bi) := by
  ext m'
  rw [Finset.mem_insert, mem_live, mem_live, remapped.size.2]
  by_cases same : m' = m
  · subst same
    exact iff_of_true ⟨inside, remapped.mapped_self addressable small⟩ (.inl rfl)
  · rw [remapped.mapped_other same, or_iff_right same]

theorem live_other (addressable : Addressable p bi) (small : k < p.b.mmpm) {c : ℕ} (different : c ≠ bi) :
    live p l' c = (live p l c).erase m := by
  ext m'
  rw [Finset.mem_erase, mem_live, mem_live, remapped.size.2]
  by_cases same : m' = m
  · subst same
    exact iff_of_false (fun now => different (now.2.unique (remapped.mapped_self addressable small))) fun before => before.1 rfl
  · rw [remapped.mapped_other same, and_iff_right same]

theorem indices (c : ℕ) : (l'.dev.b.infos c).indices = (l.dev.b.infos c).indices := by
  by_cases mapped : Mapped p l m c
  · rw [remapped.old c mapped]
    rfl
  · rw [remapped.same c mapped]

end Remapped

/-- The entry at position `k` is replayed after all entries of older macroblocks and those before it. -/
theorem Replaying.step (replaying : Replaying p dev left l) (replayable : Replayable p dev) (member : bi ∈ dev.replay)
    (now : k + left bi = (dev.b.infos bi).noIndices) (some : 0 < left bi)
    (older : ∀ c ∈ dev.replay, left c < (dev.b.infos c).noIndices → (dev.b.infos c).seqno ≤ (dev.b.infos bi).seqno) :
    ∃ l', replayMesoblk p bi l k = .ok l' ∧ Replaying p dev (Function.update left bi (left bi - 1)) l' := by
  set m := (dev.b.infos bi).indices k with mEq
  have number := replayable.addressable bi member
  have addressable : Addressable p bi := by
    unfold Addressable at number ⊢
    omega
  have listed : k < (dev.b.infos bi).noIndices := by omega
  have small : k < p.b.mmpm := listed.trans_le (replayable.capacity bi member)
  have inside : m < l.noBlockIndices := by
    rw [replaying.size.2]
    exact replayable.inside bi member k listed
  have away : ¬ Mapped p l m bi := by
    intro mapped
    obtain ⟨-, position, same⟩ := replaying.placed m bi mapped
    have := replayable.distinct bi member _ (by omega) k listed (same.trans mEq)
    omega
  have other : bi ≠ indexId p (l.blockIndices m) := by
    intro same
    by_cases never : l.blockIndices m = noIndex
    · rw [never, indexId_noIndex] at same
      unfold Addressable at number
      omega
    · exact away ⟨never, same.symm⟩
  have counts (c : ℕ) (mapped : Mapped p l m c) : 0 < (live p l c).card :=
    Finset.card_pos.mpr ⟨m, mem_live.mpr ⟨inside, mapped⟩⟩
  obtain ⟨l', ran, remapped⟩ := replayMesoblk_eq (p := p) ((congrFun (replaying.indices bi) k).trans mEq.symm) inside other
    fun c mapped => by
      rw [replaying.counted c (replaying.placed m c mapped).1]
      exact Nat.ne_of_gt (Nat.add_pos_left (counts c mapped) _)
  have position : indexNo p (l'.blockIndices m) = k := by rw [remapped.entry_self, indexNo_blockIndex bi small]
  have here := remapped.mapped_self addressable small
  have leftOther {c : ℕ} (different : c ≠ bi) : Function.update left bi (left bi - 1) c = left c :=
    Function.update_of_ne different _ _
  refine ⟨l', ran, replaying.size.trans remapped.size, fun m' => ?_, fun c => (remapped.indices c).trans (replaying.indices c),
    fun c absent => ?_, fun m' c mapped => ?_, fun c inReplay i seen => ?_, fun c inReplay => ?_, fun c inReplay => ?_⟩
  · by_cases same : m' = m
    · rw [same, remapped.entry_self]
      exact blockIndex_lt ..
    · rw [remapped.entry_other same]
      exact replaying.index_lt m'
  · rw [remapped.same c fun mapped => absent (replaying.placed m c mapped).1]
    exact replaying.others c absent
  · by_cases same : m' = m
    · subst same
      obtain rfl := mapped.unique here
      rw [position, Function.update_self]
      exact ⟨member, by omega, mEq.symm⟩
    · obtain ⟨inReplay, bound, same'⟩ := replaying.placed m' c ((remapped.mapped_other same).mp mapped)
      rw [remapped.entry_other same]
      refine ⟨inReplay, ?_, same'⟩
      by_cases isBi : c = bi
      · rw [isBi, Function.update_self]
        rw [isBi] at bound
        omega
      · rwa [leftOther isBi]
  · -- an entry that was replayed before is replaced by a newer one only
    by_cases same : (dev.b.infos c).indices i = m
    · rw [same]
      refine ⟨bi, here, ?_⟩
      by_cases isBi : c = bi
      · rw [isBi]
      · rw [leftOther isBi] at seen
        exact older c inReplay (by omega)
    · have before : i + left c < (dev.b.infos c).noIndices := by
        by_cases isBi : c = bi
        · subst isBi
          rw [Function.update_self] at seen
          have : i ≠ k := fun isK => same (isK ▸ mEq.symm)
          omega
        · rwa [leftOther isBi] at seen
      obtain ⟨d, mapped, later⟩ := replaying.newest c inReplay i before
      exact ⟨d, (remapped.mapped_other same).mpr mapped, later⟩
  · have counted := replaying.counted c inReplay
    by_cases isBi : c = bi
    · subst isBi
      rw [remapped.same c away, counted, Function.update_self, remapped.live_self addressable small inside,
        Finset.card_insert_of_notMem fun before => away (mem_live.mp before).2]
      omega
    · rw [leftOther isBi, remapped.live_other addressable small isBi]
      by_cases mapped : Mapped p l m c
      · have := counts c mapped
        rw [remapped.old c mapped, Finset.card_erase_of_mem (mem_live.mpr ⟨inside, mapped⟩)]
        change (l.dev.b.infos c).noNonobsolete - 1 = _
        omega
      · rw [remapped.same c mapped, counted, Finset.erase_eq_of_notMem fun before => mapped (mem_live.mp before).2]
  · have before := replaying.noIndices c inReplay
    by_cases mapped : Mapped p l m c
    · have positive : (l.dev.b.infos c).noNonobsolete ≠ 0 := by
        rw [replaying.counted c inReplay]
        exact Nat.ne_of_gt (Nat.add_pos_left (counts c mapped) _)
      rw [if_neg positive] at before
      rw [remapped.old c mapped]
      change (if (l.dev.b.infos c).noNonobsolete - 1 = 0 then 0 else (l.dev.b.infos c).noIndices) = _
      rw [before]
      rfl
    · rw [remapped.same c mapped]
      exact before

/-! ## All entries -/

/-- One macroblock is replayed. -/
theorem Replaying.block (replaying : Replaying p dev left l) (replayable : Replayable p dev) (member : bi ∈ dev.replay)
    (now : left bi = (dev.b.infos bi).noIndices)
    (older : ∀ c ∈ dev.replay, left c < (dev.b.infos c).noIndices → (dev.b.infos c).seqno ≤ (dev.b.infos bi).seqno) :
    (replay p l bi).Returns (Replaying p dev (Function.update left bi 0)) := by
  have length : (l.dev.b.infos bi).noIndices = (dev.b.infos bi).noIndices := by
    rw [replaying.noIndices bi member]
    split
    · next zero =>
      rw [replaying.counted bi member] at zero
      omega
    · rfl
  unfold replay
  rw [length]
  have whole : (List.range (dev.b.infos bi).noIndices).length = (dev.b.infos bi).noIndices := List.length_range
  have ended : Function.update left bi 0 =
      Function.update left bi ((dev.b.infos bi).noIndices - (List.range (dev.b.infos bi).noIndices).length) := by
    rw [whole, Nat.sub_self]
  rw [ended]
  refine .foldlM (I := fun (visited : List ℕ) => Replaying p dev
    (Function.update left bi ((dev.b.infos bi).noIndices - visited.length))) ?_ fun visited i rest l' split replaying' => ?_
  · rw [List.length_nil, Nat.sub_zero, ← now, Function.update_eq_self]
    exact replaying
  · have place : i = visited.length ∧ visited.length < (dev.b.infos bi).noIndices := by
      have bound : visited.length < (List.range (dev.b.infos bi).noIndices).length := by
        rw [split, List.length_append, List.length_cons]
        omega
      have found := List.getElem_range bound
      simp only [split, List.getElem_append_right (le_refl visited.length), Nat.sub_self, List.getElem_cons_zero] at found
      exact ⟨found, whole ▸ bound⟩
    obtain ⟨rfl, bound⟩ := place
    obtain ⟨l'', ran, replaying''⟩ := replaying'.step (k := visited.length) replayable member
      (by rw [Function.update_self]; omega) (by rw [Function.update_self]; omega) fun c inReplay seen => by
        by_cases isBi : c = bi
        · rw [isBi]
        · rw [Function.update_of_ne isBi] at seen
          exact older c inReplay seen
    rw [Function.update_self, Function.update_idem, Nat.sub_sub] at replaying''
    refine .of_ok ran ?_
    rw [List.length_append, List.length_singleton]
    exact replaying''

/-- Everything is replayed, and nothing fails. -/
theorem Replayable.replay_all (replayable : Replayable p dev) : (dev.replay.foldlM (replay p) (blank p dev)).Returns
    (Replaying p dev fun c => if c ∈ dev.replay then 0 else (dev.b.infos c).noIndices) := by
  refine .foldlM (I := fun (visited : List ℕ) => Replaying p dev fun c => if c ∈ visited then 0 else (dev.b.infos c).noIndices)
    (by simpa using Replaying.start replayable) fun visited bi rest l split replaying => ?_
  have sorted := replayable.sorted
  rw [split] at sorted
  have before (c : ℕ) (seen : c ∈ visited) : (dev.b.infos c).seqno < (dev.b.infos bi).seqno :=
    (List.pairwise_append.mp sorted).2.2 c seen bi List.mem_cons_self
  have new : bi ∉ visited := fun seen => lt_irrefl _ (before bi seen)
  refine (replaying.block replayable (by simp [split]) (if_neg new) fun c _ seen => ?_).imp fun l' replaying' => ?_
  · by_cases inVisited : c ∈ visited
    · exact (before c inVisited).le
    · rw [if_neg inVisited] at seen
      exact absurd seen (lt_irrefl _)
  · have same : (fun c => if c ∈ visited ++ [bi] then 0 else (dev.b.infos c).noIndices) =
        Function.update (fun c => if c ∈ visited then 0 else (dev.b.infos c).noIndices) bi 0 := by
      funext c
      by_cases isBi : c = bi
      · rw [isBi, Function.update_self, if_pos (by simp)]
      · rw [Function.update_of_ne isBi]
        simp [isBi]
    rw [same]
    exact replaying'

end Scubed3.Partition
