import Scubed3.Device.Resize
import Mathlib

/-! # The macroblocks of one partition

Opening, allocating, selecting, writing and closing move macroblocks between the unallocated list and the
lists of a partition. None of them is lost or doubled on the way, the owner that is recorded for it
follows, and so do the number of macroblocks and the bitmap. `Holds` says all that for one partition; the
macroblocks of others are not `mine` and stay what they are.
-/

namespace Scubed3.Blockio

open Memory List

variable (p : Params)

/-- The macroblocks in the lists of a partition. -/
def held (dev : BlockioDev) : List ℕ := dev.j.scheduled ++ dev.j.unscheduled ++ dev.replay

/-- The macroblocks that a bitmap marks. -/
def marks (status : Bitmap) : Finset ℕ :=
  (Finset.range p.b.maxMacroblocks).filter fun i => status.used i = true

/-- An index block of ours counts the macroblocks that it marks. -/
def Counted (base : Bytes) (no : ℕ) : Prop :=
  seemsOurs p (header p base no) = true →
    Binio.readUint32Be (header p base no) noMacroblocksUint32 =
      (marks p ((Bitmap.init p.b.maxMacroblocks).read (header p base no) p.b.bitmapOffset)).card

/-- The partition and the unallocated list share the macroblocks `mine`. -/
structure Shares (mine : List ℕ) (dev : BlockioDev) : Prop where
  perm : (dev.b.unallocated ++ held dev).Perm mine
  free : ∀ c ∈ dev.b.unallocated, (dev.b.infos c).dev = none
  own : ∀ c, c ∈ held dev ↔ (dev.b.infos c).dev = some dev.self

/-- The partition knows what it holds. -/
structure Holds (mine : List ℕ) (dev : BlockioDev) : Prop extends Shares mine dev where
  current : ∀ b, dev.bi = some b → b ∈ held dev
  noMacroblocks : dev.noMacroblocks = (held dev).length
  noBits : dev.status.noBits = p.b.maxMacroblocks
  used : ∀ i < p.b.maxMacroblocks, (dev.status.used i = true ↔ i ∈ held dev)

/-- What a step of a partition keeps. -/
structure Keeps (mine : List ℕ) (dev dev' : BlockioDev) : Prop where
  holds : Holds p mine dev'
  self : dev'.self = dev.self
  outside : ∀ c ∉ mine, (dev'.b.infos c).dev = (dev.b.infos c).dev

/-- What a step without an allocation does: it writes on macroblocks of the partition. -/
structure Writes (mine : List ℕ) (dev dev' : BlockioDev) : Prop where
  holds : Holds p mine dev'
  self : dev'.self = dev.self
  owners : ∀ c, (dev'.b.infos c).dev = (dev.b.infos c).dev
  elsewhere : ∀ c, (dev.b.infos c).dev ≠ some dev.self →
    slice dev'.b.base (c * p.macroblockSize) p.macroblockSize = slice dev.b.base (c * p.macroblockSize) p.macroblockSize
  counted : ∀ no < p.b.totalMacroblocks, Counted p dev.b.base no → Counted p dev'.b.base no

variable {p} {mine : List ℕ} {dev dev' dev'' : BlockioDev}

theorem mem_marks {status : Bitmap} {i : ℕ} :
    i ∈ marks p status ↔ i < p.b.maxMacroblocks ∧ status.used i = true := by
  rw [marks, Finset.mem_filter, Finset.mem_range]

theorem Keeps.trans (first : Keeps p mine dev dev') (second : Keeps p mine dev' dev'') : Keeps p mine dev dev'' :=
  ⟨second.holds, second.self.trans first.self, fun c other => (second.outside c other).trans (first.outside c other)⟩

namespace Writes

theorem keeps (writes : Writes p mine dev dev') : Keeps p mine dev dev' :=
  ⟨writes.holds, writes.self, fun c _ => writes.owners c⟩

theorem refl (holds : Holds p mine dev) : Writes p mine dev dev :=
  ⟨holds, rfl, fun _ => rfl, fun _ _ => rfl, fun _ _ => id⟩

theorem trans (first : Writes p mine dev dev') (second : Writes p mine dev' dev'') : Writes p mine dev dev'' := by
  refine ⟨second.holds, second.self.trans first.self, fun c => (second.owners c).trans (first.owners c),
    fun c other => ?_, fun no bound => second.counted no bound ∘ first.counted no bound⟩
  have other' : (dev'.b.infos c).dev ≠ some dev'.self := by
    rw [first.owners, first.self]
    exact other
  exact (second.elsewhere c other').trans (first.elsewhere c other)

end Writes

theorem Shares.mem_mine (shares : Shares mine dev) {c : ℕ} : c ∈ mine ↔ c ∈ dev.b.unallocated ∨ c ∈ held dev := by
  rw [← shares.perm.mem_iff, mem_append]

theorem Shares.nodup_held (shares : Shares mine dev) (nodup : mine.Nodup) : (held dev).Nodup :=
  (nodup_append.mp (shares.perm.nodup_iff.mpr nodup)).2.1

namespace Holds

/-- The records, the lists and the bitmap may change if they mean the same. -/
theorem congr (holds : Holds p mine dev) (self : dev'.self = dev.self)
    (unallocated : dev'.b.unallocated = dev.b.unallocated) (lists : (held dev').Perm (held dev))
    (owners : ∀ c, (dev'.b.infos c).dev = (dev.b.infos c).dev) (noMacroblocks : dev'.noMacroblocks = dev.noMacroblocks)
    (status : dev'.status = dev.status) (current : ∀ b, dev'.bi = some b → b ∈ held dev') : Holds p mine dev' where
  perm := by
    rw [unallocated]
    exact (lists.append_left _).trans holds.perm
  free c member := by
    rw [owners]
    exact holds.free c (unallocated ▸ member)
  own c := by rw [lists.mem_iff, owners, self, holds.own]
  current := current
  noMacroblocks := by rw [noMacroblocks, lists.length_eq, holds.noMacroblocks]
  noBits := by rw [status, holds.noBits]
  used i bound := by rw [status, lists.mem_iff, holds.used i bound]

theorem sameDevice (holds : Holds p mine dev) (same : Partition.SameDevice dev dev') : Writes p mine dev dev' := by
  have rest := same.rest
  have lists : held dev' = held dev := by rw [rest]; rfl
  refine ⟨holds.congr ?_ ?_ (.of_eq lists) (fun c => (same.infos c).2.2) ?_ ?_ fun b found => ?_, ?_,
    fun c => (same.infos c).2.2, fun c _ => ?_, fun no _ counted => ?_⟩
  · rw [rest]; rfl
  · rw [rest]; rfl
  · rw [rest]; rfl
  · rw [rest]; rfl
  · rw [lists]
    exact holds.current b (by rw [← found, rest]; rfl)
  · rw [rest]; rfl
  · rw [rest]; rfl
  · rw [rest]
    exact counted

/-- Another block is selected. -/
theorem select {fuel : ℕ} {tape rest : List ℕ} (holds : Holds p mine dev)
    (ran : (selectNextMacroblock fuel dev).run tape = .done dev' rest) : Writes p mine dev dev' := by
  obtain ⟨-, id, j, infos, handout, -, -, rfl⟩ := selectNext_done ran
  have owners (c : ℕ) : (infos c).dev = (dev.b.infos c).dev := by
    obtain ⟨t, -, rfl⟩ := handout.infos_eq
    by_cases same : c = id
    · rw [same, BlockioInfos.set_same]
    · rw [BlockioInfos.set_of_ne _ _ same]
  refine ⟨holds.congr rfl rfl ?_ owners rfl rfl fun b found => ?_, rfl, owners, fun _ _ => rfl,
    fun _ _ counted => counted⟩
  · refine Perm.append_right _ ?_
    rcases handout.source with ⟨-, scheduled, unscheduled⟩ | ⟨-, scheduled, unscheduled⟩
    · rw [unscheduled]
      exact scheduled.append_right _
    · refine (scheduled.append_right _).trans ?_
      exact perm_middle.symm.trans (unscheduled.append_left _)
  · cases found
    exact mem_append_left _ (mem_append_left _ handout.listed)

/-- The bitmap marks what the partition holds. -/
theorem marks_eq (holds : Holds p mine dev) (inside : ∀ c ∈ mine, c < p.b.totalMacroblocks) :
    marks p dev.status = (held dev).toFinset := by
  ext i
  rw [mem_marks, mem_toFinset]
  refine ⟨fun ⟨bound, used⟩ => (holds.used i bound).mp used, fun member => ?_⟩
  have bound := (inside i (holds.mem_mine.mpr (.inr member))).trans_le p.sound.total_le
  exact ⟨bound, (holds.used i bound).mpr member⟩

theorem card_marks (holds : Holds p mine dev) (nodup : mine.Nodup) (inside : ∀ c ∈ mine, c < p.b.totalMacroblocks) :
    (marks p dev.status).card = dev.noMacroblocks := by
  rw [holds.marks_eq inside, toFinset_card_of_nodup (holds.nodup_held nodup), holds.noMacroblocks]

theorem noMacroblocks_lt (holds : Holds p mine dev) (nodup : mine.Nodup)
    (inside : ∀ c ∈ mine, c < p.b.totalMacroblocks) : dev.noMacroblocks < 2 ^ 32 := by
  have few : (marks p dev.status).card ≤ p.b.maxMacroblocks :=
    (Finset.card_filter_le _ _).trans (Finset.card_range _).le
  rw [holds.card_marks nodup inside] at few
  exact few.trans_lt p.sound.maxMacroblocks_lt

/-- The current macroblock is written. -/
theorem output (holds : Holds p mine dev) (nodup : mine.Nodup) (inside : ∀ c ∈ mine, c < p.b.totalMacroblocks)
    (ran : writeCurrentMacroblock p dev = .ok dev') : Writes p mine dev dev' := by
  obtain ⟨id, found, -, -, capacity, rfl⟩ := (writeCurrentMacroblock_eq_ok_iff p).mp ran
  have owners (c : ℕ) : ((afterWrite p dev id).b.infos c).dev = (dev.b.infos c).dev := (afterWrite_infos dev id c).2.2
  refine ⟨holds.congr rfl rfl (.refl _) owners rfl rfl nofun, rfl, owners, fun c other => ?_, fun no _ counted => ?_⟩
  · have apart : c ≠ id := by
      rintro rfl
      exact other ((holds.own c).mp (holds.current c found))
    exact slice_blit_other (n := p.macroblockSize) id dev.b.base _ 0 apart (Nat.zero_add _).le
  by_cases same : no = id
  · -- the header that was just written
    subst same
    intro _
    have stored : Binio.readUint32Be (header p (afterWrite p dev no).b.base no) noMacroblocksUint32 =
        dev.noMacroblocks := by
      refine (readUint32Be_header no dev.b.base capacity holds.noBits (mem_headerFields ?_)).trans
        (Nat.mod_eq_of_lt (holds.noMacroblocks_lt nodup inside))
      simp only [staticFields, mem_cons, true_or, or_true]
    have marked : marks p ((Bitmap.init p.b.maxMacroblocks).read (header p (afterWrite p dev no).b.base no)
        p.b.bitmapOffset) = marks p dev.status := by
      refine Finset.filter_congr fun i member => ?_
      have found := used_header no dev.b.base capacity holds.noBits (b := Bitmap.init p.b.maxMacroblocks) rfl
        (Finset.mem_range.mp member)
      exact iff_of_eq (congrArg (· = true) found)
    rw [stored, marked, holds.card_marks nodup inside]
  · unfold Counted
    rw [(record_afterWrite dev same).1]
    exact counted

/-- Any number of steps. -/
theorem path {fuel : ℕ} {l l' : Partition} (holds : Holds p mine l.dev) (nodup : mine.Nodup)
    (inside : ∀ c ∈ mine, c < p.b.totalMacroblocks) (path : Partition.Path p fuel l l') :
    Writes p mine l.dev l'.dev := by
  induction path with
  | refl => exact .refl holds
  | tail _ step ih =>
    refine ih.trans ?_
    cases step with
    | moved moved => exact ih.holds.sameDevice moved.toSameDevice
    | output ran => exact ih.holds.output nodup inside ran
    | select ran => exact ih.holds.select ran

end Holds

/-! ## Allocating -/

theorem addMacroblock_perm {j j' : Juggler} {infos : BlockioInfos} {b : ℕ} (added : j.addMacroblock infos b = .ok j') :
    (j'.scheduled ++ j'.unscheduled).Perm (b :: (j.scheduled ++ j.unscheduled)) := by
  unfold Juggler.addMacroblock at added
  obtain ⟨_, -, body⟩ := Except.bind_eq_ok_iff.mp added
  split at body
  · cases body
    exact perm_middle
  split at body
  · cases inserted : j.scheduled.insertByKey (fun c => (infos c).nextSeqno) b with
    | none =>
      rw [inserted] at body
      cases body
    | some scheduled =>
      rw [inserted] at body
      cases body
      unfold Juggler.notifySeqno
      split <;> exact (insertByKey_perm inserted).append_right _
  · cases body

namespace Holds

/-- A free macroblock is allocated. -/
theorem allocate {tape rest : List ℕ} (holds : Holds p mine dev) (nodup : mine.Nodup)
    (ran : (allocateMacroblock dev).run tape = .done dev' rest) :
    Keeps p mine dev dev' ∧ dev'.b.base = dev.b.base := by
  obtain ⟨no, i, j, status, bound, taken, added, size, used, rfl⟩ := allocateMacroblock_done ran
  have member : i ∈ dev.b.unallocated := taken ▸ getElem_mem bound
  have perm : (i :: dev.b.unallocated.eraseIdx no).Perm dev.b.unallocated := by
    rw [← taken]
    exact getElem_cons_eraseIdx_perm bound
  have lists : (held (setAllocation dev j (dev.noMacroblocks + 1) status
      (dev.b.infos.set i (prepareBlock (dev.b.infos i) dev.self)) (dev.b.unallocated.eraseIdx no))).Perm
      (i :: held dev) := (addMacroblock_perm added).append_right _
  have owner (c : ℕ) : ((dev.b.infos.set i (prepareBlock (dev.b.infos i) dev.self)) c).dev =
      if c = i then some dev.self else (dev.b.infos c).dev := by
    unfold BlockioInfos.set
    split <;> rfl
  have mem_held (c : ℕ) : c ∈ held (setAllocation dev j (dev.noMacroblocks + 1) status
      (dev.b.infos.set i (prepareBlock (dev.b.infos i) dev.self)) (dev.b.unallocated.eraseIdx no)) ↔
      c = i ∨ c ∈ held dev := by
    rw [lists.mem_iff, mem_cons]
  refine ⟨⟨{
    perm := ?_
    free := fun c remaining => ?_
    own := fun c => ?_
    current := fun b found => (mem_held b).mpr (.inr (holds.current b found))
    noMacroblocks := ?_
    noBits := size.trans holds.noBits
    used := fun c bound => ?_ }, rfl, fun c other => ?_⟩, rfl⟩
  · refine (lists.append_left _).trans (perm_middle.trans ?_)
    exact (perm.append_right _).trans holds.perm
  · have apart : c ≠ i := by
      rintro rfl
      have once := perm.nodup_iff.mpr (nodup_append.mp (holds.perm.nodup_iff.mpr nodup)).1
      exact (nodup_cons.mp once).1 remaining
    exact (owner c).trans ((if_neg apart).trans (holds.free c (mem_of_mem_eraseIdx remaining)))
  · rw [mem_held, holds.own]
    change _ ↔ ((dev.b.infos.set i (prepareBlock (dev.b.infos i) dev.self)) c).dev = some dev.self
    rw [owner]
    by_cases same : c = i
    · rw [if_pos same]
      exact iff_of_true (.inl same) rfl
    · rw [if_neg same, or_iff_right same]
  · change dev.noMacroblocks + 1 = _
    rw [lists.length_eq, length_cons, holds.noMacroblocks]
  · rw [mem_held, ← holds.used c bound]
    change status.used c = true ↔ _
    rw [used, Bool.or_eq_true, beq_iff_eq, or_comm]
  · have apart : c ≠ i := by
      rintro rfl
      exact other (holds.mem_mine.mpr (.inl member))
    exact (owner c).trans (if_neg apart)

theorem allocateTurns {size : ℕ} {tape rest : List ℕ} (holds : Holds p mine dev) (nodup : mine.Nodup)
    (ran : (allocateTurns size dev).run tape = .done dev' rest) :
    Keeps p mine dev dev' ∧ dev'.b.base = dev.b.base := by
  induction size generalizing dev tape with
  | zero =>
    cases ran
    exact ⟨(Writes.refl holds).keeps, rfl⟩
  | succ size ih =>
    obtain ⟨next, _, first, others⟩ := Draw.bind_done_iff.mp ran
    obtain ⟨keeps, base⟩ := holds.allocate nodup first
    obtain ⟨keepsEnd, baseEnd⟩ := ih keeps.holds others
    exact ⟨keeps.trans keepsEnd, baseEnd.trans base⟩

/-- A resize. -/
theorem resize {fuel : ℕ} {entry entry' : Entry} {size reserved : ℤ} {reply : Reply} {tape rest : List ℕ}
    (holds : Holds p mine entry.l.dev) (nodup : mine.Nodup)
    (ran : (Control.resize p fuel entry size reserved).run tape = .done (reply, entry') rest) :
    Keeps p mine entry.l.dev entry'.l.dev ∧ entry'.l.dev.b.base = entry.l.dev.b.base := by
  rcases Control.resize_done ran with ⟨-, rfl⟩ | ⟨-, -, -, -, -, grown, l, dev, mid, mid', allocated, started,
    selected, same, -⟩
  · exact ⟨(Writes.refl holds).keeps, rfl⟩
  obtain ⟨keeps, base⟩ := holds.allocateTurns nodup allocated
  obtain ⟨-, rfl⟩ := Control.reinit_eq_ok_iff.mp started
  have sized : Holds p mine { grown with reservedMacroblocks := (reserved % 2 ^ 32).toNat } :=
    keeps.holds.congr rfl rfl (.refl _) (fun _ => rfl) rfl rfl keeps.holds.current
  have chosen : Keeps p mine grown dev ∧ dev.b.base = grown.b.base := by
    split at selected
    · have writes := sized.select selected
      obtain ⟨-, id, j, infos, -, -, -, rfl⟩ := selectNext_done selected
      exact ⟨⟨writes.holds, writes.self, fun c _ => writes.owners c⟩, rfl⟩
    · cases selected
      exact ⟨⟨sized, rfl, fun _ _ => rfl⟩, rfl⟩
  have flagged : Holds p mine { dev with updated := true } :=
    chosen.1.holds.congr rfl rfl (.refl _) (fun _ => rfl) rfl rfl chosen.1.holds.current
  rw [same]
  exact ⟨keeps.trans (chosen.1.trans ⟨flagged, rfl, fun _ _ => rfl⟩), chosen.2.trans base⟩

end Holds

/-! ## Opening and closing -/

/-- A macroblock that the newest index block marks is one of the partition. -/
theorem devInit_marked {b : Blockio} {addr : ℕ} (fresh : ∀ c, (b.infos c).dev ≠ some addr) :
    (devInit p b addr).Yields fun dev => (ours p b).Nonempty →
      ∀ c < p.b.maxMacroblocks, dev.status.used c = true → c ∈ ours p b ∨ c ∈ dev.j.unscheduled := by
  unfold devInit
  refine .bind (m := fun _ => True) (.yields fun _ _ => trivial) fun _ _ => ?_
  refine .bind (scan_yields b addr) fun r scanned => ?_
  obtain ⟨scan, highest⟩ := r
  dsimp only at scanned ⊢
  split
  · next empty =>
    refine .bind (m := fun _ => True) (.yields fun _ _ => trivial) fun _ _ => .pure fun nonempty => ?_
    obtain ⟨c, found⟩ := nonempty
    exact absurd ((scanned.mem_replay c).mpr found) (by rw [empty]; exact not_mem_nil)
  · have loop : ((range p.b.maxMacroblocks).foldlM (claimUsed p) scan).Yields
        (Claimed p scan (range p.b.maxMacroblocks)) := by
      refine .foldlM (Claimed.start scanned.idle.2.2.2) fun visited i rest dev whole claimed => ?_
      obtain ⟨bound, new⟩ := range_split whole
      exact claimed.step new (by rwa [scanned.noBits])
    refine .bind loop fun dev claimed => ?_
    split
    · exact .throw trivial
    · refine .pure fun _ c bound used => ?_
      rw [claimed.status] at used
      rcases (claimed.legal c (mem_range.mpr bound) used).2 with free | own
      · exact .inr ((claimed.mem_iff c).mpr ⟨mem_range.mpr bound, used, free⟩)
      · refine .inl ((scanned.mem_replay c).mp ?_)
        by_contra unlisted
        rw [scanned.infos, if_neg unlisted, scanned.owner] at own
        exact fresh c own

section Inventory

variable {b : Blockio} {addr : ℕ}

/-- Who holds a macroblock after the scan. -/
theorem Inventory.mem_held (inventory : Inventory p b addr dev) (c : ℕ) :
    c ∈ held dev ↔ c ∈ ours p b ∨ c ∈ dev.j.unscheduled := by
  rw [held, inventory.unscheduled_only.1, nil_append, mem_append, inventory.mem_replay, or_comm]

theorem Inventory.nodup_held (inventory : Inventory p b addr dev) : (held dev).Nodup := by
  have replay : dev.replay.Nodup :=
    inventory.sorted.imp fun below equal => by rw [equal] at below; exact lt_irrefl _ below
  rw [held, inventory.unscheduled_only.1, nil_append]
  refine nodup_append'.mpr ⟨(nodup_append.mp inventory.lists.nodup).2.1, replay, fun c claimed listed => ?_⟩
  exact (inventory.claimed c claimed).2.2 ((inventory.mem_replay c).mp listed)

/-- The scan takes what it holds out of the unallocated list. -/
theorem Inventory.shares (inventory : Inventory p b addr dev) (coherent : Coherent p b)
    (fresh : ∀ c, (b.infos c).dev ≠ some addr) : Shares b.unallocated dev := by
  have after := inventory.coherent coherent
  have own (c : ℕ) : c ∈ held dev ↔ (dev.b.infos c).dev = some dev.self := by
    rw [inventory.mem_held, inventory.dev_eq, inventory.owner]
    by_cases taken : c ∈ ours p b ∨ c ∈ dev.j.unscheduled
    · rw [if_pos taken]
      exact iff_of_true taken rfl
    · rw [if_neg taken]
      exact iff_of_false taken (fresh c)
  have free (c : ℕ) (member : c ∈ dev.b.unallocated) : (dev.b.infos c).dev = none := ((after.mem_iff c).mp member).2
  refine ⟨?_, free, own⟩
  have nodup : (dev.b.unallocated ++ held dev).Nodup := by
    refine nodup_append'.mpr ⟨after.nodup, inventory.nodup_held, fun c member listed => ?_⟩
    cases (free c member).symm.trans ((own c).mp listed)
  refine (perm_ext_iff_of_nodup nodup coherent.nodup).mpr fun c => ?_
  rw [mem_append, after.mem_iff, coherent.mem_iff, inventory.mem_held, inventory.dev_eq]
  by_cases taken : c ∈ ours p b ∨ c ∈ dev.j.unscheduled
  · exact iff_of_true (.inr taken) (inventory.free taken)
  · rw [if_neg taken, or_iff_left taken]

/-- When the index blocks of ours count what they mark, the scan finds all of it. -/
theorem holds_of_devInit (coherent : Coherent p b) (fresh : ∀ c, (b.infos c).dev ≠ some addr)
    (counted : ∀ no < p.b.totalMacroblocks, Counted p b.base no) (ran : devInit p b addr = .ok dev) :
    Holds p b.unallocated dev := by
  have inventory := (devInit_yields b addr).value dev ran
  have marked := (devInit_marked fresh).value dev ran
  have shares := inventory.shares coherent fresh
  have current (c : ℕ) (found : dev.bi = some c) : c ∈ held dev := by
    rw [inventory.idle.1] at found
    cases found
  rcases (ours p b).eq_empty_or_nonempty with none | some
  · obtain ⟨count, -, juggler, status⟩ := inventory.empty none
    have nothing : held dev = [] := by
      refine eq_nil_iff_forall_not_mem.mpr fun c member => ?_
      rw [inventory.mem_held, none, juggler] at member
      simp only [Finset.notMem_empty, Juggler.init, not_mem_nil, or_self] at member
    refine ⟨shares, current, by rw [count, nothing]; rfl, inventory.noBits, fun i _ => ?_⟩
    rw [nothing, status]
    simp [Bitmap.init, Bitmap.used]
  · have count : dev.noMacroblocks = (held dev).length := by
      rw [inventory.count some, held, inventory.unscheduled_only.1, nil_append, length_append, Nat.add_comm,
        ← toFinset_card_of_nodup (inventory.sorted.imp fun below equal => by rw [equal] at below; exact lt_irrefl _ below)]
      congr 2
      ext c
      rw [mem_toFinset, inventory.mem_replay]
    refine ⟨shares, current, count, inventory.noBits, ?_⟩
    obtain ⟨top, found, upper⟩ := Finset.exists_max_image (ours p b) (fun c => (record p b.base c).seqno) some
    have summarized := inventory.summary top found upper
    -- the marks are found, and there are as many as was found
    have all : marks p dev.status = (held dev).toFinset := by
      refine Finset.eq_of_subset_of_card_le (fun c member => ?_) ?_
      · rw [mem_toFinset, inventory.mem_held]
        exact marked some c (mem_marks.mp member).1 (mem_marks.mp member).2
      · rw [toFinset_card_of_nodup inventory.nodup_held, ← count, summarized.noMacroblocks, summarized.status]
        exact (counted top (mem_ours.mp found).1 (mem_ours.mp found).2.2).le
    intro i bound
    rw [← mem_toFinset, ← all, mem_marks, and_iff_right bound]

end Inventory

theorem addAll_perm {infos : BlockioInfos} (order : List ℕ) {j j' : Juggler}
    (added : order.foldlM (fun j bi => j.addMacroblock infos bi) j = .ok j') :
    (j'.scheduled ++ j'.unscheduled).Perm (j.scheduled ++ j.unscheduled ++ order) := by
  induction order generalizing j with
  | nil =>
    cases added
    rw [append_nil]
  | cons b order ih =>
    obtain ⟨next, first, others⟩ := Except.bind_eq_ok_iff.mp added
    exact (ih others).trans (((addMacroblock_perm first).append_right order).trans perm_middle.symm)

/-- Replaying, and restarting the juggler. -/
theorem Holds.init {l : Partition} {missing : Bool} (holds : Holds p mine dev)
    (ran : Partition.init p dev = .ok (l, missing)) : Writes p mine dev l.dev ∧ l.dev.b.base = dev.b.base := by
  have started := Partition.init_eq_ok_iff.mp ran
  split at started
  · cases started
    exact ⟨.refl holds, rfl⟩
  obtain ⟨replayed, replaying, j, adding, same⟩ := started
  cases same
  have moved := ((Partition.replay_all_sameSize (Partition.blank p dev) dev.replay).value replayed replaying).1
  have writes := holds.sameDevice moved
  refine ⟨writes.trans ?_, by rw [Partition.restarted, moved.rest]; rfl⟩
  have lists : (held (Partition.restarted replayed j).dev).Perm (held replayed.dev) := by
    change (j.scheduled ++ j.unscheduled ++ []).Perm _
    rw [append_nil]
    exact (addAll_perm _ adding).trans ((reverse_perm _).append_left _)
  refine ⟨writes.holds.congr rfl rfl lists (fun _ => rfl) rfl rfl fun b found => ?_, rfl, fun _ => rfl, fun _ _ => rfl,
    fun _ _ => id⟩
  exact lists.mem_iff.mpr (writes.holds.current b found)

/-- `blockio_dev_free` gives all of it back. -/
theorem Shares.freed (shares : Shares mine dev) (inside : ∀ c ∈ mine, c < p.b.totalMacroblocks) :
    (freed p dev).unallocated.Perm mine ∧
      ∀ c, ((freed p dev).infos c).dev = if c ∈ held dev then none else (dev.b.infos c).dev := by
  refine ⟨?_, fun c => ?_⟩
  · refine Perm.trans ?_ shares.perm
    rw [Blockio.freed, held, append_assoc, append_assoc, append_assoc]
    exact (((reverse_perm _).append_left _).append_left _).append_left _
  · have own : c ∈ owned p dev ↔ c ∈ held dev := by
      rw [mem_owned, shares.own]
      exact and_iff_right_of_imp fun own => inside c (shares.mem_mine.mpr (.inr ((shares.own c).mpr own)))
    rw [freed_dev]
    simp only [own]

end Scubed3.Blockio
