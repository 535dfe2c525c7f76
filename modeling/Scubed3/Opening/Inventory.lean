import Scubed3.Opening.Scan
import Mathlib.Data.Finset.Card

/-! # What a partition knows after `blockio_dev_init`

After the scan, the macroblocks that the newest index block marks as ours but that carry no header are
claimed: they were never written. `Inventory` collects what is known then.
-/

namespace Scubed3.Blockio

open Memory

variable {p : Params}

/-! ## The status of a macroblock -/

theorem getMacroblockStatusBynum_eq {dev : BlockioDev} {num : ℕ} (bound : num < dev.status.noBits) :
    getMacroblockStatusBynum dev num = .ok (if dev.status.used num then .used else .free) := by
  rw [getMacroblockStatusBynum, Bitmap.getbits_one bound]
  cases dev.status.used num <;> rfl

/-- Replace what the second loop changes. -/
def setBlocks (dev : BlockioDev) (j : Juggler) (infos : BlockioInfos) (unallocated : List ℕ) : BlockioDev :=
  { dev with j, b := { dev.b with infos, unallocated } }

/-- All that the second loop of `blockio_dev_init` can do with one macroblock. -/
theorem claimUsed_eq_ok_iff {dev dev' : BlockioDev} {i : ℕ} (bound : i < dev.status.noBits) :
    claimUsed p dev i = .ok dev' ↔
      if dev.status.used i then i < p.b.totalMacroblocks ∧
        if (dev.b.infos i).dev = some dev.self then dev' = dev
        else (dev.b.infos i).dev = none ∧ i ∈ dev.b.unallocated ∧ ∃ j,
          dev.j.addMacroblock (dev.b.infos.set i (prepareBlock (dev.b.infos i) dev.self)) i = .ok j ∧
          dev' = setBlocks dev j (dev.b.infos.set i (prepareBlock (dev.b.infos i) dev.self))
            (dev.b.unallocated.erase i)
      else dev' = dev := by
  unfold claimUsed
  rw [getMacroblockStatusBynum_eq bound]
  cases used : dev.status.used i with
  | false => exact Except.pure_eq_ok_iff.trans eq_comm
  | true =>
    change ((if i ≥ p.b.totalMacroblocks then _ else _) = Except.ok dev') ↔ _
    rw [Except.ite_throw_eq_ok_iff]
    simp only [if_true, not_le]
    refine and_congr_right fun _ => ?_
    by_cases own : (dev.b.infos i).dev = some dev.self
    · simp only [if_pos own]
      exact Except.pure_eq_ok_iff.trans eq_comm
    · simp only [if_neg own]
      rw [Except.ite_throw_eq_ok_iff]
      simp only [Except.bind_eq_ok_iff, check_eq_ok_iff, exists_const, not_not, Except.pure_eq_ok_iff,
        eq_comm (b := dev')]
      rfl

/-! ## Claiming the blocks that were never written -/

/-- The state after the second loop looked at the macroblocks `visited`, from the state `dev₀`. -/
structure Claimed (p : Params) (dev₀ : BlockioDev) (visited : List ℕ) (dev : BlockioDev) : Prop where
  rest : dev = setBlocks dev₀ dev.j dev.b.infos dev.b.unallocated
  infos : ∀ c, dev.b.infos c =
    if c ∈ dev.j.unscheduled then prepareBlock (dev₀.b.infos c) dev₀.self else dev₀.b.infos c
  lists : Juggler.Lists dev.j dev.b.infos dev.j.unscheduled.toFinset
  idle : dev.j.scheduled = [] ∧ dev.j.seqno = 0
  mem_iff : ∀ c, c ∈ dev.j.unscheduled ↔
    c ∈ visited ∧ dev₀.status.used c = true ∧ (dev₀.b.infos c).dev = none
  legal : ∀ c ∈ visited, dev₀.status.used c = true →
    c < p.b.totalMacroblocks ∧ ((dev₀.b.infos c).dev = none ∨ (dev₀.b.infos c).dev = some dev₀.self)
  coherent : Coherent p dev₀.b → Coherent p dev.b

namespace Claimed

variable {dev₀ dev : BlockioDev} {visited : List ℕ} {i : ℕ}

theorem start (empty : dev₀.j = Juggler.init) : Claimed p dev₀ [] dev₀ where
  rest := rfl
  infos c := by simp [empty, Juggler.init]
  lists := by
    rw [empty]
    exact (Juggler.Invariant.init _).toLists
  idle := by simp [empty, Juggler.init]
  mem_iff := by simp [empty, Juggler.init]
  legal := by simp
  coherent := id

theorem owner (claimed : Claimed p dev₀ visited dev) : dev.self = dev₀.self := by rw [claimed.rest]; rfl

theorem status (claimed : Claimed p dev₀ visited dev) : dev.status = dev₀.status := by rw [claimed.rest]; rfl

theorem infos_of_not_visited (claimed : Claimed p dev₀ visited dev) (new : i ∉ visited) :
    dev.b.infos i = dev₀.b.infos i := by
  rw [claimed.infos, if_neg fun member => new ((claimed.mem_iff i).mp member).1]

/-- A macroblock that is not claimed changes nothing. -/
theorem skip (claimed : Claimed p dev₀ visited dev)
    (unclaimed : ¬ (dev₀.status.used i = true ∧ (dev₀.b.infos i).dev = none))
    (legal : dev₀.status.used i = true → i < p.b.totalMacroblocks ∧
      ((dev₀.b.infos i).dev = none ∨ (dev₀.b.infos i).dev = some dev₀.self)) :
    Claimed p dev₀ (visited ++ [i]) dev := by
  refine { claimed with mem_iff := fun c => ?_, legal := fun c member used => ?_ }
  · rw [claimed.mem_iff, List.mem_append, List.mem_singleton]
    constructor
    · exact fun ⟨old, isClaimed⟩ => ⟨.inl old, isClaimed⟩
    · rintro ⟨old | rfl, isClaimed⟩
      · exact ⟨old, isClaimed⟩
      · exact absurd isClaimed unclaimed
  · rcases List.mem_append.mp member with old | new
    · exact claimed.legal c old used
    · rw [List.mem_singleton.mp new] at used ⊢
      exact legal used

/-- A marked macroblock without a header is claimed. -/
theorem claim (claimed : Claimed p dev₀ visited dev) (new : i ∉ visited) (used : dev₀.status.used i = true)
    (untaken : (dev₀.b.infos i).dev = none) (bound : i < p.b.totalMacroblocks) :
    ∃ j, dev.j.addMacroblock (dev.b.infos.set i (prepareBlock (dev.b.infos i) dev.self)) i = .ok j ∧
      Claimed p dev₀ (visited ++ [i]) (setBlocks dev j
        (dev.b.infos.set i (prepareBlock (dev.b.infos i) dev.self)) (dev.b.unallocated.erase i)) := by
  have owner := claimed.owner
  have absent : i ∉ dev.j.unscheduled := fun member => new ((claimed.mem_iff i).mp member).1
  have lists := claimed.lists.congr (dev.b.infos.set i (prepareBlock (dev.b.infos i) dev.self))
    (by simp [claimed.idle.1])
  obtain ⟨j, added, listsAfter, rfl⟩ := lists.addMacroblock_fresh (b := i) (by simpa using absent)
    (by rw [BlockioInfos.set_same]; rfl) (by rw [BlockioInfos.set_same]; rfl)
  refine ⟨_, added, ⟨?_, fun c => ?_, ?_, claimed.idle, fun c => ?_, fun c member usedC => ?_, fun before => ?_⟩⟩
  · exact (congrArg (fun d => setBlocks d _ _ _) claimed.rest).trans rfl
  · change (dev.b.infos.set i (prepareBlock (dev.b.infos i) dev.self)) c =
      if c ∈ i :: dev.j.unscheduled then prepareBlock (dev₀.b.infos c) dev₀.self else dev₀.b.infos c
    by_cases same : c = i
    · rw [same, BlockioInfos.set_same, if_pos List.mem_cons_self, claimed.infos_of_not_visited new, owner]
    · rw [BlockioInfos.set_of_ne _ _ same, claimed.infos]
      simp only [List.mem_cons, same, false_or]
  · simpa [setBlocks] using listsAfter
  · dsimp only [setBlocks]
    rw [List.mem_cons, claimed.mem_iff, List.mem_append, List.mem_singleton]
    constructor
    · rintro (rfl | ⟨old, isClaimed⟩)
      · exact ⟨.inr rfl, used, untaken⟩
      · exact ⟨.inl old, isClaimed⟩
    · rintro ⟨old | rfl, isClaimed⟩
      · exact .inr ⟨old, isClaimed⟩
      · exact .inl rfl
  · rcases List.mem_append.mp member with old | inNew
    · exact claimed.legal c old usedC
    · rw [List.mem_singleton.mp inNew]
      exact ⟨bound, .inl untaken⟩
  · exact (claimed.coherent before).take (by simp [prepareBlock])

theorem step (claimed : Claimed p dev₀ visited dev) (new : i ∉ visited) (bound : i < dev₀.status.noBits) :
    (claimUsed p dev i).Yields (Claimed p dev₀ (visited ++ [i])) := by
  have status := claimed.status
  have owner := claimed.owner
  refine .yields fun dev' ran => ?_
  have effect := (claimUsed_eq_ok_iff (by rwa [status])).mp ran
  rw [status, claimed.infos_of_not_visited new, owner] at effect
  by_cases used : dev₀.status.used i = true
  · rw [if_pos used] at effect
    obtain ⟨inside, effect⟩ := effect
    by_cases own : (dev₀.b.infos i).dev = some dev₀.self
    · rw [if_pos own] at effect
      subst effect
      exact claimed.skip (fun isClaimed => by simp [own] at isClaimed) fun _ => ⟨inside, .inr own⟩
    · rw [if_neg own] at effect
      obtain ⟨untaken, -, j, added, rfl⟩ := effect
      obtain ⟨j', added', result⟩ := claimed.claim new used untaken inside
      rw [claimed.infos_of_not_visited new, owner] at added' result
      cases added.symm.trans added'
      exact result
  · rw [if_neg used] at effect
    subst effect
    exact claimed.skip (fun isClaimed => used isClaimed.1) fun isUsed => absurd isUsed used

/-- Claiming only fails when a marked macroblock does not exist or is another's. -/
theorem progress (claimed : Claimed p dev₀ visited dev) (new : i ∉ visited) (bound : i < dev₀.status.noBits)
    (coherent : Coherent p dev₀.b)
    (legal : dev₀.status.used i = true → i < p.b.totalMacroblocks ∧
      ((dev₀.b.infos i).dev = none ∨ (dev₀.b.infos i).dev = some dev₀.self)) :
    ∃ dev', claimUsed p dev i = .ok dev' := by
  have status := claimed.status
  have owner := claimed.owner
  have unchanged := claimed.infos_of_not_visited new
  by_cases used : dev₀.status.used i = true
  · obtain ⟨inside, free | own⟩ := legal used
    · obtain ⟨j, added, -⟩ := claimed.claim new used free inside
      refine ⟨setBlocks dev j (dev.b.infos.set i (prepareBlock (dev.b.infos i) dev.self))
        (dev.b.unallocated.erase i), (claimUsed_eq_ok_iff (by rwa [status])).mpr ?_⟩
      rw [status, if_pos used, unchanged, free, if_neg (by simp)]
      refine ⟨inside, rfl, ((claimed.coherent coherent).mem_iff i).mpr ⟨inside, by rw [unchanged, free]⟩, j, ?_, rfl⟩
      rwa [← unchanged]
    · refine ⟨dev, (claimUsed_eq_ok_iff (by rwa [status])).mpr ?_⟩
      rw [status, if_pos used, unchanged, owner, if_pos own]
      exact ⟨inside, rfl⟩
  · refine ⟨dev, (claimUsed_eq_ok_iff (by rwa [status])).mpr ?_⟩
    rw [status, if_neg used]

/-- Otherwise the program exits with a message. -/
theorem step_fatal (claimed : Claimed p dev₀ visited dev) (new : i ∉ visited) (bound : i < dev₀.status.noBits)
    (coherent : Coherent p dev₀.b) :
    (claimUsed p dev i).Ensures (Claimed p dev₀ (visited ++ [i])) fun e => ∃ message, e = .fatal message := by
  have status := claimed.status
  have owner := claimed.owner
  have unchanged := claimed.infos_of_not_visited new
  refine ⟨(claimed.step new bound).value, fun e failed => ?_⟩
  by_cases legal : dev₀.status.used i = true → i < p.b.totalMacroblocks ∧
      ((dev₀.b.infos i).dev = none ∨ (dev₀.b.infos i).dev = some dev₀.self)
  · obtain ⟨dev', ran⟩ := claimed.progress new bound coherent legal
    cases ran.symm.trans failed
  · obtain ⟨used, illegal⟩ := Classical.not_imp.mp legal
    unfold claimUsed at failed
    rw [getMacroblockStatusBynum_eq (by rwa [status]), status, used] at failed
    change (if i ≥ p.b.totalMacroblocks then _ else _) = Except.error e at failed
    by_cases missing : i ≥ p.b.totalMacroblocks
    · rw [if_pos missing] at failed
      cases failed
      exact ⟨_, rfl⟩
    · simp only [not_and_or, not_or] at illegal
      obtain ⟨taken, other⟩ := illegal.resolve_left (fun outside => outside (not_le.mp missing))
      rw [if_neg missing, unchanged, owner] at failed
      simp only [if_neg other, if_pos taken] at failed
      cases failed
      exact ⟨_, rfl⟩

end Claimed

/-! ## The result -/

/-- What a partition knows after `blockio_dev_init` read the device `b`. -/
structure Inventory (p : Params) (b : Blockio) (addr : ℕ) (dev : BlockioDev) : Prop where
  owner : dev.self = addr
  base : dev.b.base = b.base
  written : dev.b.written = b.written
  idle : dev.bi = none ∧ dev.tailMacroblock = none ∧ dev.updated = false
  sorted : dev.replay.SortedByKey fun c => (record p b.base c).seqno
  mem_replay : ∀ c, c ∈ dev.replay ↔ c ∈ ours p b
  parses : ∀ c ∈ ours p b, Parses p (header p b.base c)
  lists : Juggler.Lists dev.j dev.b.infos dev.j.unscheduled.toFinset
  unscheduled_only : dev.j.scheduled = [] ∧ dev.j.seqno = 0
  info_ours : ∀ c ∈ ours p b, dev.b.infos c = { record p b.base c with dev := some addr }
  info_claimed : ∀ c ∈ dev.j.unscheduled, dev.b.infos c = prepareBlock (b.infos c) addr
  info_other : ∀ c, c ∉ ours p b → c ∉ dev.j.unscheduled → dev.b.infos c = b.infos c
  claimed : ∀ c ∈ dev.j.unscheduled, c < p.b.totalMacroblocks ∧ (b.infos c).dev = none ∧ c ∉ ours p b
  coherent : Coherent p b → Coherent p dev.b
  noBits : dev.status.noBits = p.b.maxMacroblocks
  empty : ours p b = ∅ → dev.noMacroblocks = 0 ∧ dev.reservedMacroblocks = 0 ∧ dev.j = Juggler.init ∧
    dev.status = Bitmap.init p.b.maxMacroblocks
  summary : ∀ top ∈ ours p b, (∀ c ∈ ours p b, (record p b.base c).seqno ≤ (record p b.base top).seqno) →
    Summarized p b.base top dev
  count : (ours p b).Nonempty → dev.noMacroblocks = (ours p b).card + dev.j.unscheduled.length
  marked : (ours p b).Nonempty → ∀ c, c ∉ ours p b → (b.infos c).dev = none →
    (c ∈ dev.j.unscheduled ↔ c < p.b.maxMacroblocks ∧ dev.status.used c = true)

section DevInit

variable {b : Blockio} {addr highest : ℕ} {dev : BlockioDev}

theorem range_split {n i : ℕ} {visited rest : List ℕ} (whole : List.range n = visited ++ i :: rest) :
    i < n ∧ i ∉ visited := by
  have nodup := List.nodup_range (n := n)
  rw [whole] at nodup
  refine ⟨List.mem_range.mp (whole ▸ by simp), fun member => ?_⟩
  exact List.disjoint_of_nodup_append nodup member List.mem_cons_self

/-- After the scan, `Scanned` speaks about all macroblocks of ours. -/
theorem Scanned.mem_replay
    (scanned : Scanned p b addr (List.range p.b.totalMacroblocks) dev highest) (c : ℕ) :
    c ∈ dev.replay ↔ c ∈ ours p b := by
  rw [scanned.mem_iff, List.mem_range]
  exact and_iff_right_of_imp fun member => (mem_ours.mp member).1

/-- The first loop. -/
theorem scan_yields (b : Blockio) (addr : ℕ) :
    ((List.range p.b.totalMacroblocks).foldlM (fun (r : BlockioDev × ℕ) i => scanHeader p r.1 i r.2)
      ({ b, self := addr, status := Bitmap.init p.b.maxMacroblocks }, 0)).Yields
      fun (r : BlockioDev × ℕ) => Scanned p b addr (List.range p.b.totalMacroblocks) r.1 r.2 :=
  .foldlM (I := fun visited (r : BlockioDev × ℕ) => Scanned p b addr visited r.1 r.2) (Scanned.start b addr)
    fun _ _ _ _ whole scanned => scanned.step (range_split whole).2

/-- On headers that make sense the first loop gets through. -/
theorem scan_returns (coherent : Coherent p b) (parses : ∀ c ∈ ours p b, Parses p (header p b.base c))
    (distinct : ∀ c ∈ ours p b, ∀ d ∈ ours p b, (record p b.base c).seqno = (record p b.base d).seqno → c = d)
    (addr : ℕ) :
    ((List.range p.b.totalMacroblocks).foldlM (fun (r : BlockioDev × ℕ) i => scanHeader p r.1 i r.2)
      ({ b, self := addr, status := Bitmap.init p.b.maxMacroblocks }, 0)).Returns
      fun (r : BlockioDev × ℕ) => Scanned p b addr (List.range p.b.totalMacroblocks) r.1 r.2 := by
  refine .foldlM (I := fun visited (r : BlockioDev × ℕ) => Scanned p b addr visited r.1 r.2) (Scanned.start b addr) ?_
  intro visited i rest r whole scanned
  obtain ⟨bound, new⟩ := range_split whole
  obtain ⟨r', ran⟩ := scanned.progress new bound coherent parses distinct
  exact .of_ok ran ((scanned.step new).value r' ran)

/-- Nothing found: nothing is known. -/
theorem Scanned.inventory_empty
    (scanned : Scanned p b addr (List.range p.b.totalMacroblocks) dev highest) (empty : dev.replay = []) :
    Inventory p b addr dev := by
  have none (c : ℕ) : c ∉ ours p b := fun member => by simpa [empty] using (scanned.mem_replay c).mpr member
  have oursEmpty : ours p b = ∅ := Finset.eq_empty_of_forall_notMem none
  obtain ⟨idle, tail, updated, juggler⟩ := scanned.idle
  refine
    { owner := scanned.owner, base := scanned.base, written := scanned.written, idle := ⟨idle, tail, updated⟩
      sorted := scanned.sorted, mem_replay := scanned.mem_replay, noBits := scanned.noBits
      coherent := scanned.coherent, parses := fun c member => absurd member (none c), lists := ?_,
      unscheduled_only := ?_, info_ours := fun c member => absurd member (none c), info_claimed := ?_,
      info_other := fun c _ _ => ?_, claimed := ?_, empty := fun _ => ?_,
      summary := fun top member => absurd member (none top), count := ?_, marked := ?_ }
  · rw [juggler]
    exact (Juggler.Invariant.init _).toLists
  · rw [juggler]
    exact ⟨rfl, rfl⟩
  · simp [juggler, Juggler.init]
  · rw [scanned.infos, empty, if_neg List.not_mem_nil]
  · simp [juggler, Juggler.init]
  · rcases scanned.summary with ⟨-, -, count, reserved, status⟩ | ⟨top, member, -⟩
    · exact ⟨count, reserved, juggler, status⟩
    · simp [empty] at member
  · simp [oursEmpty]
  · simp [oursEmpty]

/-- The two loops together. -/
theorem Claimed.inventory {scan : BlockioDev}
    (scanned : Scanned p b addr (List.range p.b.totalMacroblocks) scan highest) (nonempty : scan.replay ≠ [])
    (claimed : Claimed p scan (List.range p.b.maxMacroblocks) dev)
    (count : dev.noMacroblocks = dev.replay.length + dev.j.count) : Inventory p b addr dev := by
  obtain ⟨idle, tail, updated, -⟩ := scanned.idle
  have rest := claimed.rest
  have replay : dev.replay = scan.replay := by rw [rest]; rfl
  have mem (c : ℕ) : c ∈ dev.replay ↔ c ∈ ours p b := by rw [replay]; exact scanned.mem_replay c
  obtain ⟨first, inReplay⟩ := List.exists_mem_of_ne_nil _ nonempty
  have notEmpty : ours p b ≠ ∅ := Finset.ne_empty_of_mem ((scanned.mem_replay first).mp inReplay)
  have info_ours (c : ℕ) (member : c ∈ ours p b) :
      scan.b.infos c = { record p b.base c with dev := some addr } := by
    rw [scanned.infos, if_pos ((scanned.mem_replay c).mpr member)]
  have info_other (c : ℕ) (notOurs : c ∉ ours p b) : scan.b.infos c = b.infos c := by
    rw [scanned.infos, if_neg fun member => notOurs ((scanned.mem_replay c).mp member)]
  have claimedOther (c : ℕ) (member : c ∈ dev.j.unscheduled) : c ∉ ours p b := by
    intro inOurs
    have untaken := ((claimed.mem_iff c).mp member).2.2
    rw [info_ours c inOurs] at untaken
    cases untaken
  have summary (top : ℕ) (inOurs : top ∈ ours p b)
      (upper : ∀ c ∈ ours p b, (record p b.base c).seqno ≤ (record p b.base top).seqno) :
      Summarized p b.base top dev := by
    rcases scanned.summary with ⟨empty, -⟩ | ⟨top', member, same, upper', summarized⟩
    · exact absurd empty nonempty
    · have equal : top' = top := by
        by_contra different
        have listed := (scanned.mem_replay top).mpr inOurs
        have apart := scanned.sorted.key_ne member listed different
        have below := upper top' ((scanned.mem_replay top').mp member)
        have above := upper' top listed
        omega
      subst equal
      rw [rest]
      exact ⟨summarized.status, summarized.seqnosHash, summarized.noMacroblocks, summarized.reservedMacroblocks⟩
  have nodup : dev.replay.Nodup := by
    rw [replay]
    exact scanned.sorted.imp fun below => fun same => by rw [same] at below; exact lt_irrefl _ below
  have card : dev.replay.length = (ours p b).card := by
    rw [← List.toFinset_card_of_nodup nodup]
    congr 1
    ext c
    rw [List.mem_toFinset, mem]
  refine
    { owner := claimed.owner.trans scanned.owner, base := ?_, written := ?_, idle := ?_, sorted := ?_
      mem_replay := mem, parses := fun c member => scanned.parses c ((scanned.mem_replay c).mpr member)
      lists := claimed.lists, unscheduled_only := claimed.idle, info_ours := fun c member => ?_
      info_claimed := fun c member => ?_, info_other := fun c notOurs unclaimed => ?_
      claimed := fun c member => ?_
      coherent := fun before => claimed.coherent (scanned.coherent before)
      noBits := by rw [claimed.status]; exact scanned.noBits
      empty := fun empty => absurd empty notEmpty, summary := summary, count := fun _ => ?_
      marked := fun _ c notOurs untaken => ?_ }
  · rw [rest]; exact scanned.base
  · rw [rest]; exact scanned.written
  · rw [rest]; exact ⟨idle, tail, updated⟩
  · rw [replay]; exact scanned.sorted
  · rw [claimed.infos, if_neg fun isClaimed => claimedOther c isClaimed member, info_ours c member]
  · rw [claimed.infos, if_pos member, info_other c (claimedOther c member), scanned.owner]
  · rw [claimed.infos, if_neg unclaimed, info_other c notOurs]
  · obtain ⟨visited, used, untaken⟩ := (claimed.mem_iff c).mp member
    have notOurs := claimedOther c member
    rw [info_other c notOurs] at untaken
    exact ⟨(claimed.legal c visited used).1, untaken, notOurs⟩
  · rw [count, card, Juggler.count, claimed.lists.noScheduled, claimed.idle.1, claimed.lists.noUnscheduled]
    simp
  · rw [claimed.mem_iff, List.mem_range, info_other c notOurs, claimed.status]
    simp [untaken]

/-- What a successful `blockio_dev_init` knows. -/
theorem devInit_yields (b : Blockio) (addr : ℕ) : (devInit p b addr).Yields (Inventory p b addr) := by
  unfold devInit
  refine .bind (m := fun _ => True) (.yields fun _ _ => trivial) fun _ _ => ?_
  refine .bind (scan_yields b addr) fun r scanned => ?_
  obtain ⟨scan, highest⟩ := r
  dsimp only at scanned ⊢
  split
  · next empty =>
    refine .bind (m := fun _ => True) (.yields fun _ _ => trivial) fun _ _ => ?_
    exact .pure (scanned.inventory_empty empty)
  · next nonempty =>
    have loop : ((List.range p.b.maxMacroblocks).foldlM (claimUsed p) scan).Yields
        (Claimed p scan (List.range p.b.maxMacroblocks)) := by
      refine .foldlM (Claimed.start scanned.idle.2.2.2) fun visited i rest dev whole claimed => ?_
      obtain ⟨bound, new⟩ := range_split whole
      exact claimed.step new (by rwa [scanned.noBits])
    refine .bind loop fun dev claimed => ?_
    split
    · exact .throw trivial
    · next matched => exact .pure (claimed.inventory scanned nonempty (not_not.mp matched))

/-- Who holds a macroblock after the scan. -/
theorem Inventory.dev_eq (inventory : Inventory p b addr dev) (c : ℕ) : (dev.b.infos c).dev =
    if c ∈ ours p b ∨ c ∈ dev.j.unscheduled then some addr else (b.infos c).dev := by
  by_cases found : c ∈ ours p b
  · rw [if_pos (.inl found), inventory.info_ours c found]
  by_cases claimed : c ∈ dev.j.unscheduled
  · rw [if_pos (.inr claimed), inventory.info_claimed c claimed]
    rfl
  · rw [if_neg (not_or.mpr ⟨found, claimed⟩), inventory.info_other c found claimed]

/-- What the scan took was free before. -/
theorem Inventory.free (inventory : Inventory p b addr dev) {c : ℕ} (taken : c ∈ ours p b ∨ c ∈ dev.j.unscheduled) :
    c < p.b.totalMacroblocks ∧ (b.infos c).dev = none := by
  rcases taken with found | claimed
  · exact ⟨(mem_ours.mp found).1, (mem_ours.mp found).2.1⟩
  · exact ⟨(inventory.claimed c claimed).1, (inventory.claimed c claimed).2.1⟩

end DevInit

end Scubed3.Blockio
