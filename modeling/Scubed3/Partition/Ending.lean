import Scubed3.Juggler.Schedule
import Scubed3.Partition.Turning
import Mathlib.Algebra.Group.Action.Defs
import Mathlib.Algebra.Order.BigOperators.Group.Finset

/-! # When the loop of `select_new_macroblock` ends

The loop goes on as long as what it collects fills the selected macroblock. A macroblock that is not completely in use
stops it when it comes up. All mesoblocks together leave room for such a macroblock exactly when they do not fill all
macroblocks but one.
-/

namespace Scubed3.Partition

open Blockio Juggler

variable {p : Params} {l l' : Partition} {cur : ℕ}

/-- The mesoblocks that were ever written. -/
def inUse (l : Partition) : Finset ℕ := (Finset.range l.noBlockIndices).filter (l.blockIndices · ≠ noIndex)

theorem mem_inUse {m : ℕ} : m ∈ inUse l ↔ m < l.noBlockIndices ∧ l.blockIndices m ≠ noIndex := by
  rw [inUse, Finset.mem_filter, Finset.mem_range]

theorem Kept.inUse_eq (kept : Kept p l l') : inUse l' = inUse l := by
  ext m
  rw [mem_inUse, mem_inUse, kept.noBlockIndices]
  exact and_congr_right fun bound => not_congr (kept.unmapped m bound)

/-- Every mesoblock in use is in one of the macroblocks. -/
theorem Consistent.sum_live (consistent : Consistent p l) : ∑ b ∈ owned p l.dev, (live p l b).card = (inUse l).card := by
  have placed : Set.MapsTo (fun m => indexId p (l.blockIndices m)) (inUse l) (owned p l.dev) := fun m member => by
    obtain ⟨bound, mapped⟩ := mem_inUse.mp (Finset.mem_coe.mp member)
    exact Finset.mem_coe.mpr (consistent.placed m bound _ ⟨mapped, rfl⟩).1
  rw [Finset.card_eq_sum_card_fiberwise placed]
  refine Finset.sum_congr rfl fun b _ => congrArg Finset.card ?_
  ext m
  rw [Finset.mem_filter, mem_inUse, mem_live, Mapped, and_assoc]

/-- There are not more mesoblocks in a macroblock than it has positions. -/
theorem Consistent.card_live_le_mmpm (consistent : Consistent p l) {b : ℕ} (own : b ∈ owned p l.dev) :
    (live p l b).card ≤ p.b.mmpm := (consistent.card_live_le b).trans (consistent.bounded b own)

/-- When all macroblocks but one are not completely in use, one of the others has room. -/
theorem Consistent.exists_room (consistent : Consistent p l) {t : ℕ} (own : t ∈ owned p l.dev)
    (few : (inUse l).card < ((owned p l.dev).card - 1) * p.b.mmpm) :
    ∃ b ∈ owned p l.dev, b ≠ t ∧ (live p l b).card < p.b.mmpm := by
  by_contra none
  push Not at none
  refine few.not_ge ?_
  calc ((owned p l.dev).card - 1) * p.b.mmpm = ((owned p l.dev).erase t).card • p.b.mmpm := by
        rw [Finset.card_erase_of_mem own, smul_eq_mul]
    _ ≤ ∑ b ∈ (owned p l.dev).erase t, (live p l b).card := by
        refine Finset.card_nsmul_le_sum _ _ _ fun b member => ?_
        obtain ⟨different, inside⟩ := Finset.mem_erase.mp member
        exact none b inside different
    _ ≤ ∑ b ∈ owned p l.dev, (live p l b).card := Finset.sum_le_sum_of_subset (Finset.erase_subset _ _)
    _ = (inUse l).card := consistent.sum_live

/-- When one macroblock is empty and the mesoblocks fill all others, each of the others is completely in use. -/
theorem Consistent.all_full (consistent : Consistent p l) {t : ℕ} (own : t ∈ owned p l.dev) (empty : live p l t = ∅)
    (crowded : ((owned p l.dev).card - 1) * p.b.mmpm ≤ (inUse l).card) {b : ℕ} (inside : b ∈ owned p l.dev)
    (different : b ≠ t) : (live p l b).card = p.b.mmpm := by
  refine le_antisymm (consistent.card_live_le_mmpm inside) ?_
  by_contra less
  refine crowded.not_gt ?_
  calc (inUse l).card = ∑ b ∈ owned p l.dev, (live p l b).card := consistent.sum_live.symm
    _ = ∑ b ∈ (owned p l.dev).erase t, (live p l b).card := by
        rw [← Finset.add_sum_erase _ _ own, empty, Finset.card_empty, Nat.zero_add]
    _ < ∑ b ∈ (owned p l.dev).erase t, p.b.mmpm :=
        Finset.sum_lt_sum (fun c member => consistent.card_live_le_mmpm (Finset.mem_of_mem_erase member))
          ⟨b, Finset.mem_erase.mpr ⟨different, inside⟩, not_le.mp less⟩
    _ = ((owned p l.dev).card - 1) * p.b.mmpm := by
        rw [Finset.sum_const, Finset.card_erase_of_mem own, smul_eq_mul]

/-! ## A turn on a schedule -/

section Turn

variable {j : Juggler} {infos : BlockioInfos} {s : Schedule j infos} {n fuel : ℕ}

theorem at_flushed (there : s.At n l.dev.j l.dev.b.infos) (cur : ℕ) :
    s.At n (flushed p l cur).dev.j (flushed p l cur).dev.b.infos :=
  ⟨there.1, there.2.trans fun c => ⟨(afterWrite_infos l.dev cur c).1, (afterWrite_infos l.dev cur c).2.1⟩⟩

/-- A turn at its place in the schedule. -/
theorem Ready.turn_at (ready : Ready p l cur) (vacant : Vacant p l) (there : s.At n l.dev.j l.dev.b.infos)
    (fits : (s.records (n + 1) (s.block n)).nextSeqno < 2 ^ 64) :
    ∃ l', Turned p l (s.block n) l' ∧ s.At (n + 1) l'.dev.j l'.dev.b.infos ∧ ∀ fuel later, s.fuel n ≤ fuel →
      (Partition.turn p fuel l).run (s.outcomes n ++ later) = .done l' later := by
  obtain ⟨writes, -⟩ := ready.toIntact.flush ready.bi vacant
  obtain ⟨j', infos', there', returns⟩ := (at_flushed (p := p) there cur).call
  have idle : (flushed p l cur).dev.bi = none := rfl
  have selected fuel later (enough : s.fuel n ≤ fuel) := selectNext_run idle
    (returns fuel later enough) ((there'.2 _).2.trans_lt fits)
  obtain ⟨next, l', copied, turned, same, bi⟩ := ready.turned vacant (selected _ [] le_rfl)
  obtain rfl := Option.some.inj bi
  refine ⟨l', turned, ⟨(same.fields (p := p)).1.trans there'.1, there'.2.trans fun c => ⟨(same.infos c).1, (same.infos c).2.1⟩⟩,
    fun fuel later enough => ?_⟩
  unfold Partition.turn writeCurrentAndSelectNextMacroblock
  exact Draw.bind_done_iff.mpr ⟨_, later, Draw.bind_done_iff.mpr ⟨_, _, Draw.lift_done_iff.mpr ⟨writes, rfl⟩,
    selected fuel later enough⟩, Draw.lift_done_iff.mpr ⟨copied, rfl⟩⟩

/-- There is no other way in which the turn can return. -/
theorem Ready.turned_at (ready : Ready p l cur) (vacant : Vacant p l) (there : s.At n l.dev.j l.dev.b.infos)
    {later rest : List ℕ} (ran : (Partition.turn p fuel l).run (s.outcomes n ++ later) = .done l' rest) :
    rest = later ∧ Turned p l (s.block n) l' ∧ s.At (n + 1) l'.dev.j l'.dev.b.infos := by
  obtain ⟨writes, -⟩ := ready.toIntact.flush ready.bi vacant
  unfold Partition.turn writeCurrentAndSelectNextMacroblock at ran
  obtain ⟨dev, mid, ran, copies⟩ := Draw.bind_done_iff.mp ran
  obtain ⟨dev₁, mid₁, lifted, selects⟩ := Draw.bind_done_iff.mp ran
  obtain ⟨wrote, rfl⟩ := Draw.lift_done_iff.mp lifted
  obtain ⟨copied, rfl⟩ := Draw.lift_done_iff.mp copies
  obtain rfl := Except.ok.inj (writes.symm.trans wrote)
  obtain ⟨next, l'', copied', turned, same, bi⟩ := ready.turned vacant selects
  obtain rfl := Except.ok.inj (copied.symm.trans copied')
  obtain ⟨-, id, j', infos', -, called, -, rfl⟩ := selectNext_done selects
  obtain ⟨handed, rfl, there'⟩ := (at_flushed (p := p) there cur).called called
  cases handed
  obtain rfl := Option.some.inj bi
  exact ⟨rfl, turned, (same.fields (p := p)).1.trans there'.1,
    there'.2.trans fun c => ⟨(same.infos c).1, (same.infos c).2.1⟩⟩

/-! ## The loop on a schedule -/

/-- What the loop does after a turn. -/
theorem loop_succ {l₁ : Partition} {next fuel turns : ℕ} {tape rest : List ℕ}
    (ran : (Partition.turn p fuel l).run tape = .done l₁ rest) (bi : l₁.dev.bi = some next) :
    (selectNewMacroblocks p fuel (turns + 1) l).run tape =
      (if (l₁.dev.b.infos next).noIndices = p.b.mmpm then selectNewMacroblocks p fuel turns l₁ else return l₁).run rest := by
  rw [selectNewMacroblocks_succ, Draw.run_bind, ran]
  simp only [bi]

/-- A turn that filled the macroblock collected from another one, which was full. -/
theorem Turned.exists_tail {next : ℕ} (turned : Turned p l next l') (full : (l'.dev.b.infos next).noIndices = p.b.mmpm) :
    ∃ t, l'.dev.tailMacroblock = some t ∧ t ≠ next ∧ (live p l t).card = p.b.mmpm := by
  have count := turned.ready.card_live_current turned.ready.bi
  have some : ¬ ∀ t, l'.dev.tailMacroblock = some t → t = next := by
    intro same
    rw [turned.nothing same, full, Finset.card_empty] at count
    exact p.mmpm_pos.ne count
  push Not at some
  obtain ⟨t, tail, different⟩ := some
  exact ⟨t, tail, different, by rw [← turned.arrived t tail different, count, full]⟩

/-- A macroblock that is not completely in use stops the loop before it is handed out. -/
theorem Ready.loop_ends (ready : Ready p l cur) (vacant : Vacant p l) (there : s.At n l.dev.j l.dev.b.infos) {t b d : ℕ}
    (tail : l.dev.tailMacroblock = some t) (room : (live p l b).card < p.b.mmpm) (different : b ≠ t)
    (comes : s.block (n + d) = b) (fits : ∀ i ≤ n + d, (s.records (i + 1) (s.block i)).nextSeqno < 2 ^ 64) :
    ∃ calls, ∀ fuel turns, (∀ i < n + calls, s.fuel i ≤ fuel) → calls ≤ turns → ∃ l',
      (Partition.selectNewMacroblocks p fuel turns l).run (s.drawn n calls) = .done l' [] := by
  induction d generalizing n l cur t with
  | zero =>
    have due : s.block n = t := there.block_eq ((ready.tail cur ready.bi).symm.trans tail)
    exact absurd (comes.symm.trans due) different
  | succ d ih =>
    have due : s.block n = t := there.block_eq ((ready.tail cur ready.bi).symm.trans tail)
    obtain ⟨l₁, turned, there₁, runs⟩ := ready.turn_at vacant there (fits n (by omega))
    by_cases full : (l₁.dev.b.infos (s.block n)).noIndices = p.b.mmpm
    · obtain ⟨t', tail', other, many⟩ := turned.exists_tail full
      have notTail : b ≠ t' := fun same => room.ne (same ▸ many)
      have still : live p l₁ b = live p l b :=
        turned.others b (due ▸ different) fun found => notTail (Option.some.inj (found.symm.trans tail'))
      obtain ⟨calls, ends⟩ := ih turned.ready (turned.vacant full) there₁ tail' (still ▸ room) notTail
        ((congrArg s.block (by omega)).trans comes) fun i le => fits i (by omega)
      refine ⟨calls + 1, fun fuel turns enough more => ?_⟩
      obtain ⟨turns, rfl⟩ : ∃ k, turns = k + 1 := ⟨turns - 1, by omega⟩
      rw [s.drawn_succ, loop_succ (runs fuel _ (enough n (by omega))) turned.ready.bi, if_pos full]
      exact ends fuel turns (fun i less => enough i (by omega)) (by omega)
    · refine ⟨1, fun fuel turns enough more => ⟨l₁, ?_⟩⟩
      obtain ⟨turns, rfl⟩ : ∃ k, turns = k + 1 := ⟨turns - 1, by omega⟩
      rw [s.drawn_succ, loop_succ (runs fuel _ (enough n (by omega))) turned.ready.bi, if_neg full]
      rfl

/-- When all macroblocks but one are full, the loop never ends. -/
theorem Ready.loop_goes_on (ready : Ready p l cur) (vacant : Vacant p l) (there : s.At n l.dev.j l.dev.b.infos)
    (alone : ∀ i, (s.juggler (i + 1)).getObsoleted (s.records (i + 1)) ≠ some (s.block i))
    (crowded : ((owned p l.dev).card - 1) * p.b.mmpm ≤ (inUse l).card) {fuel turns calls : ℕ} (more : turns ≤ calls)
    {rest : List ℕ} : (Partition.selectNewMacroblocks p fuel turns l).run (s.drawn n calls) ≠ .done l' rest := by
  induction turns generalizing n l cur calls with
  | zero => exact nofun
  | succ turns ih =>
    obtain ⟨calls, rfl⟩ : ∃ k, calls = k + 1 := ⟨calls - 1, by omega⟩
    intro ran
    rw [s.drawn_succ, selectNewMacroblocks_succ] at ran
    obtain ⟨l₁, mid, ran, goesOn⟩ := Draw.bind_done_iff.mp ran
    obtain ⟨rfl, turned, there₁⟩ := ready.turned_at vacant there ran
    have intact := turned.ready.toIntact
    have own : s.block n ∈ owned p l.dev := turned.kept.owned ▸ (intact.current _ turned.ready.bi).1
    have others {b : ℕ} (inside : b ∈ owned p l.dev) (different : b ≠ s.block n) : (live p l b).card = p.b.mmpm :=
      ready.toConsistent.all_full own turned.before crowded inside different
    -- the macroblock that comes next is another one, and it is full
    have full : (l₁.dev.b.infos (s.block n)).noIndices = p.b.mmpm := by
      rw [← intact.card_live_current turned.ready.bi]
      cases tail : l₁.dev.tailMacroblock with
      | none =>
        -- then there is a macroblock that was never used
        have unpromised : l₁.dev.j.getObsoleted l₁.dev.b.infos = none := (intact.tail _ turned.ready.bi).symm.trans tail
        have settled := intact.known.settled
        have stocked := settled.toInvariant.unscheduled_pos ⟨_, (intact.current _ turned.ready.bi).1⟩ unpromised
        obtain ⟨u, member⟩ := List.exists_mem_of_length_pos (settled.noUnscheduled ▸ stocked)
        have different : u ≠ s.block n := fun same =>
          intact.not_unscheduled (intact.current_scheduled turned.ready.bi) (same ▸ member)
        have count := others (turned.kept.owned ▸ settled.mem_of_unscheduled member) different
        rw [← turned.others u different (by rw [tail]; exact nofun),
          turned.ready.toConsistent.live_eq_empty (intact.unused u member), Finset.card_empty] at count
        exact absurd count p.mmpm_pos.ne
      | some t =>
        have different : t ≠ s.block n := by
          rintro rfl
          refine alone n ?_
          rw [← there₁.1, ← there₁.2.getObsoleted, ← intact.tail _ turned.ready.bi, tail]
        rw [turned.arrived t tail different]
        exact others (turned.kept.owned ▸ intact.mem_owned_of_scheduled (intact.tail_scheduled turned.ready.bi tail)) different
    rw [turned.ready.bi] at goesOn
    simp only [if_pos full] at goesOn
    refine ih turned.ready (turned.vacant full) there₁ ?_ (Nat.le_of_succ_le_succ more) goesOn
    rw [turned.kept.owned, turned.kept.inUse_eq]
    exact crowded

/-- The loop ends exactly when the mesoblocks in use do not fill all macroblocks but one. -/
theorem Ready.loop_ends_iff (ready : Ready p l cur) (vacant : Vacant p l) (there : s.At 0 l.dev.j l.dev.b.infos)
    (alone : ∀ i, (s.juggler (i + 1)).getObsoleted (s.records (i + 1)) ≠ some (s.block i))
    (again : ∀ b ∈ owned p l.dev, ∃ k, 1 ≤ k ∧ s.block k = b ∧ ∀ i ≤ k, (s.records (i + 1) (s.block i)).nextSeqno < 2 ^ 64) :
    (∃ calls fuel l', (Partition.selectNewMacroblocks p fuel fuel l).run (s.drawn 0 calls) = .done l' []) ↔
      (inUse l).card < ((owned p l.dev).card - 1) * p.b.mmpm := by
  constructor
  · rintro ⟨calls, fuel, l', ran⟩
    by_contra crowded
    have ran := Draw.run_append ran (s.drawn (0 + calls) fuel)
    rw [← s.drawn_add] at ran
    exact ready.loop_goes_on vacant there alone (not_lt.mp crowded) (Nat.le_add_left fuel calls) ran
  · intro few
    -- it is enough to find a number of calls
    suffices ends : ∃ calls, ∀ fuel turns, (∀ i < calls, s.fuel i ≤ fuel) → calls ≤ turns → ∃ l',
        (Partition.selectNewMacroblocks p fuel turns l).run (s.drawn 0 calls) = .done l' [] by
      obtain ⟨calls, ends⟩ := ends
      have enough (i : ℕ) (less : i < calls) : s.fuel i ≤ (Finset.range calls).sup s.fuel :=
        Finset.le_sup (Finset.mem_range.mpr less)
      exact ⟨calls, (Finset.range calls).sup s.fuel + calls, ends _ _ (fun i less => (enough i less).trans (Nat.le_add_right ..))
        (Nat.le_add_left ..)⟩
    obtain ⟨k, -, -, fits⟩ := again cur (ready.current cur ready.bi).1
    obtain ⟨l₁, turned, there₁, runs⟩ := ready.turn_at vacant there (fits 0 (Nat.zero_le k))
    by_cases full : (l₁.dev.b.infos (s.block 0)).noIndices = p.b.mmpm
    · obtain ⟨t, tail, other, -⟩ := turned.exists_tail full
      have own := turned.ready.toIntact.mem_owned_of_scheduled (turned.ready.toIntact.tail_scheduled turned.ready.bi tail)
      obtain ⟨b, inside, different, room⟩ := turned.ready.toConsistent.exists_room own (by
        rw [turned.kept.owned, turned.kept.inUse_eq]
        exact few)
      obtain ⟨k, later, comes, fits⟩ := again b (turned.kept.owned ▸ inside)
      obtain ⟨calls, ends⟩ := turned.ready.loop_ends (turned.vacant full) there₁ tail room different
        (d := k - 1) ((congrArg s.block (by omega)).trans comes) fun i le => fits i (by omega)
      refine ⟨calls + 1, fun fuel turns enough more => ?_⟩
      obtain ⟨turns, rfl⟩ : ∃ k, turns = k + 1 := ⟨turns - 1, by omega⟩
      rw [s.drawn_succ, loop_succ (runs fuel _ (enough 0 (by omega))) turned.ready.bi, if_pos full]
      exact ends fuel turns (fun i less => enough i (by omega)) (by omega)
    · refine ⟨1, fun fuel turns enough more => ⟨l₁, ?_⟩⟩
      obtain ⟨turns, rfl⟩ : ∃ k, turns = k + 1 := ⟨turns - 1, by omega⟩
      rw [s.drawn_succ, loop_succ (runs fuel _ (enough 0 (by omega))) turned.ready.bi, if_neg full]
      rfl

/-- A schedule on which every macroblock is handed out again, and none twice in succession. -/
structure Fair (p : Params) (l : Partition) (s : Schedule l.dev.j l.dev.b.infos) : Prop where
  current : l.dev.tailMacroblock ≠ l.dev.bi
  alone : ∀ i, (s.juggler (i + 1)).getObsoleted (s.records (i + 1)) ≠ some (s.block i)
  again : ∀ b ∈ owned p l.dev, ∃ k, 1 ≤ k ∧ s.block k = b ∧ ∀ i ≤ k, (s.records (i + 1) (s.block i)).nextSeqno < 2 ^ 64

/-- `do_write` returns exactly when it does not have to make room, or can. -/
theorem Tidy.doWrite_ends_iff {m muoff size : ℕ} {s : Schedule l.dev.j l.dev.b.infos} (tidy : Tidy p l)
    (current : l.dev.bi = some cur) (inside : m < l.noBlockIndices) (within : muoff + size ≤ p.mesoblkSize)
    (fair : Fair p l s) (data : Bytes) :
    (∃ calls fuel l', (Partition.doWrite p fuel l m muoff size data).run (s.drawn 0 calls) = .done l' []) ↔
      ¬ MakesRoom p l m ∨ (inUse l).card < ((owned p l.dev).card - 1) * p.b.mmpm := by
  have clean : ¬ Overruns p l m := by
    unfold Overruns
    rw [current]
    exact fun overruns => fair.current (overruns.2.1.trans current.symm)
  obtain ⟨l₁, entered, parts⟩ := tidy.doWrite_eq current inside within clean
  have there : s.At 0 l₁.dev.j l₁.dev.b.infos := by
    refine ⟨(entered.same.fields (p := p)).1.trans s.start.1.symm, ?_⟩
    rw [s.start.2]
    exact fun c => ⟨(entered.same.infos c).1, (entered.same.infos c).2.1⟩
  -- what is left to do after room was made, or when there was room
  have stores {l₂ : Partition} {next : ℕ} (ready : Ready p l₂ next) (kept : Kept p l l₂)
      (room : Mapped p l₂ m next ∨ (l₂.dev.b.infos next).noIndices < p.b.mmpm) :
      ∃ l', storeMesoblk p l₂ next (l₂.blockIndices m) m muoff size data = .ok l' := by
    obtain ⟨l', ran, -⟩ := ready.store data (kept.noBlockIndices ▸ inside) within room
    exact ⟨l', ran⟩
  simp only [parts]
  by_cases makes : MakesRoom p l m
  · simp only [makes, not_true_eq_false, false_or, if_true]
    rw [← entered.kept.owned, ← entered.kept.inUse_eq, ← entered.ready.loop_ends_iff (entered.vacant makes) there fair.alone
      (entered.kept.owned ▸ fair.again)]
    constructor
    · rintro ⟨calls, fuel, l', ran⟩
      obtain ⟨l₂, mid, selected, stored⟩ := Draw.bind_done_iff.mp ran
      obtain ⟨⟨next, ready, -⟩, -⟩ := (entered.ready.selectNewMacroblocks (entered.vacant makes) fuel fuel).of_done selected
      rw [ready.bi] at stored
      obtain ⟨-, rfl⟩ := Draw.lift_done_iff.mp stored
      exact ⟨calls, fuel, l₂, selected⟩
    · rintro ⟨calls, fuel, l₂, selected⟩
      obtain ⟨⟨next, ready, kept, -, -, room⟩, -⟩ :=
        (entered.ready.selectNewMacroblocks (entered.vacant makes) fuel fuel).of_done selected
      obtain ⟨l', stored⟩ := stores ready (entered.kept.trans kept) (.inr room)
      refine ⟨calls, fuel, l', Draw.bind_done_iff.mpr ⟨l₂, [], selected, ?_⟩⟩
      rw [ready.bi]
      exact Draw.lift_done_iff.mpr ⟨stored, rfl⟩
  · simp only [makes, not_false_eq_true, true_or, iff_true, if_false]
    obtain ⟨l', stored⟩ := stores entered.ready entered.kept (entered.room makes)
    refine ⟨0, 0, l', ?_⟩
    rw [Draw.pure_bind', entered.ready.bi]
    exact Draw.lift_done_iff.mpr ⟨stored, rfl⟩

end Turn

end Scubed3.Partition
