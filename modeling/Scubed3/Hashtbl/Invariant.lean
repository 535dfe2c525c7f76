import Scubed3.Hashtbl.Points
import Mathlib

/-! # What holds between two steps

The invariant of the threads that use a hash table, and that every step of every thread keeps it. A step that
changes no pointer (`Invariant.quiet`) matters to other threads only through the mutexes; the three steps that
change a pointer are taken under the mutexes that the other threads would need to notice.
-/

namespace Scubed3.Hashtbl

open LinkedCells

variable {κ : Type} {h : Hashtbl κ} {s s' : System κ} {t u : ℕ} {pc : Pc κ} {elt : Elt κ}
  {instr : Instr κ} {mutexes : Mutex κ → MutexState}

/-- Functions are called by idle threads, or by threads that were handed an element. -/
theorem Pc.admits_cases {c : Call κ} (admits : pc.admits c = true) :
    pc = .idle ∨ ∃ elt, pc = .handed elt ∧ (c = .nextElementByptr ∨ c = .unlockElementByptr) := by
  cases pc with
  | idle => exact .inl rfl
  | handed elt =>
    cases c with
    | nextElementByptr => exact .inr ⟨elt, rfl, .inl rfl⟩
    | unlockElementByptr => exact .inr ⟨elt, rfl, .inr rfl⟩
    | _ => cases admits
  | _ => cases admits

theorem held_self : held h (Function.update s.pc t pc t) = held h pc := by rw [Function.update_self]

theorem held_other (other : u ≠ t) : held h (Function.update s.pc t pc u) = held h (s.pc u) := by
  rw [Function.update_of_ne other]

theorem Mutex.OfElt.unique {m : Mutex κ} {elt2 : Elt κ} (of : m.OfElt elt) (of2 : m.OfElt elt2) : elt = elt2 := by
  rcases of with rfl | rfl <;> rcases of2 with same | same <;> cases same <;> rfl

theorem Mutex.OfElt.not_shared {m : Mutex κ} (of : m.OfElt elt) : ¬ m.Shared h := by
  rcases of with rfl | rfl <;> exact id

theorem hashtblInitDefault_mutexes (m : Mutex κ) : (hashtblInitDefault h).mutexes m = .uninitialized ∧ ¬ m.Shared h ∨
    (hashtblInitDefault h).mutexes m = .unlocked := by
  have bucket (bucket : ℕ) :
      (if bucket < h.noBuckets then MutexState.unlocked else .uninitialized) = .uninitialized ∧ ¬ bucket < h.noBuckets ∨
        (if bucket < h.noBuckets then MutexState.unlocked else .uninitialized) = .unlocked := by
    split_ifs with small
    · exact .inr rfl
    · exact .inl ⟨rfl, small⟩
  rcases m with _ | i | (i | elt) | elt
  · exact .inr rfl
  · exact bucket i
  · exact bucket i
  · exact .inl ⟨rfl, id⟩
  · exact .inl ⟨rfl, id⟩

variable [DecidableEq κ]

theorem admits_of_enabled {c : Call κ} (enabled : enabled h s (.call t c) = true) : (s.pc t).admits c = true := by
  cases c with
  | addElement => exact (Bool.and_eq_true_iff.mp enabled).1
  | _ => exact enabled

/-- What holds between two steps. -/
structure Invariant (h : Hashtbl κ) (s : System κ) : Prop where
  chains : ∃ chain, Chains h s.next chain
  owned : Mutexes.Owned s.mutexes fun t => held h (s.pc t)
  shared : ∀ m : Mutex κ, m.Shared h → s.mutexes m ≠ .uninitialized
  linked : ∀ elt, IsLinked h s.next elt → ∀ m : Mutex κ, m.OfElt elt → s.mutexes m ≠ .uninitialized
  usable : ∀ t, ∀ m ∈ live (s.pc t), s.mutexes m ≠ .uninitialized
  knows : ∀ t, Knows h s.next (s.pc t)
  /-- An element of a thread's own is not linked, and it is nobody else's. -/
  apart : ∀ t elt, own (s.pc t) = some elt → ¬ IsLinked h s.next elt ∧ ∀ u, own (s.pc u) = some elt → u = t
  allocated : ∀ elt, (IsLinked h s.next elt ∨ ∃ t, own (s.pc t) = some elt) → s.allocated elt = true

theorem hashtblInitDefault_invariant : Invariant h (hashtblInitDefault h) := by
  have none (bucket : ℕ) (elt : Elt κ) : ¬ Reach .elt (hashtblInitDefault h).next (.bucket bucket) elt :=
    fun reach => reach.next_ne_none rfl
  refine ⟨⟨fun _ => [], fun _ => rfl, nofun, fun _ => List.nodup_nil⟩, ⟨fun m t => ?_, fun _ => List.nodup_nil⟩,
    fun m shared => ?_, fun elt linked => absurd linked (none _ elt), fun _ _ => nofun, fun _ => True.intro,
    fun _ _ => nofun, fun elt linked => ?_⟩
  · refine ⟨fun locked => ?_, nofun⟩
    rcases hashtblInitDefault_mutexes (h := h) m with ⟨state, -⟩ | state <;> cases state.symm.trans locked
  · rcases hashtblInitDefault_mutexes (h := h) m with ⟨-, other⟩ | state
    · exact absurd shared other
    · rw [state]
      nofun
  · rcases linked with linked | ⟨t, own⟩
    · exact absurd linked (none _ elt)
    · cases own

namespace Invariant

variable (inv : Invariant h s)

include inv

/-- Nobody else holds a mutex of an element of a thread's own. -/
theorem unheld {m : Mutex κ} (mine : own (s.pc t) = some elt) (of : m.OfElt elt) (mem : m ∈ held h (s.pc u)) : u = t := by
  obtain ⟨chain, chains⟩ := inv.chains
  obtain ⟨unlinked, only⟩ := inv.apart t elt mine
  rcases (inv.knows u).linked_or_own chains mem of with linked | own
  · exact absurd linked unlinked
  · exact only u own

/-- Elements stay with one thread. -/
theorem apart_update {next' : Cell κ → Option (Elt κ)}
    (mine : ∀ elt, own pc = some elt → ¬ IsLinked h next' elt ∧ ∀ u, u ≠ t → own (s.pc u) ≠ some elt)
    (others : ∀ u, u ≠ t → ∀ elt, own (s.pc u) = some elt → ¬ IsLinked h next' elt) (u : ℕ) (elt : Elt κ)
    (owns : own (Function.update s.pc t pc u) = some elt) :
    ¬ IsLinked h next' elt ∧ ∀ u', own (Function.update s.pc t pc u') = some elt → u' = u := by
  by_cases here : u = t
  · rw [here, Function.update_self] at owns
    refine ⟨(mine elt owns).1, fun u' owns' => ?_⟩
    by_contra other
    rw [Function.update_of_ne (here ▸ other)] at owns'
    exact (mine elt owns).2 u' (here ▸ other) owns'
  · rw [Function.update_of_ne here] at owns
    refine ⟨others u here elt owns, fun u' owns' => ?_⟩
    by_cases here' : u' = t
    · rw [here', Function.update_self] at owns'
      exact absurd owns ((mine elt owns').2 u here)
    · rw [Function.update_of_ne here'] at owns'
      exact (inv.apart u elt owns).2 u' owns'

/-- A thread goes on, and no pointer changes. It may destroy mutexes of its own element. -/
theorem quiet (count : ℤ) (owned : Mutexes.Owned mutexes fun u => held h (Function.update s.pc t pc u))
    (ready : ∀ m, s.mutexes m ≠ .uninitialized → mutexes m ≠ .uninitialized ∨ ∃ elt, own (s.pc t) = some elt ∧ m.OfElt elt)
    (usable : ∀ m ∈ live pc, mutexes m ≠ .uninitialized) (knows : Knows h s.next pc) (same : own pc = own (s.pc t)) :
    Invariant h { s with mutexes, count, pc := Function.update s.pc t pc } := by
  have owns (u : ℕ) : own (Function.update s.pc t pc u) = own (s.pc u) := by
    by_cases here : u = t
    · rw [here, Function.update_self, same]
    · rw [Function.update_of_ne here]
  refine ⟨inv.chains, owned, fun m shared => ?_, fun elt linked m of => ?_, fun u m mem => ?_, fun u => ?_,
    fun u elt own => ?_, fun elt used => inv.allocated elt ?_⟩
  · rcases ready m (inv.shared m shared) with good | ⟨elt, -, of⟩
    · exact good
    · exact absurd shared of.not_shared
  · rcases ready m (inv.linked elt linked m of) with good | ⟨elt2, mine, of2⟩
    · exact good
    · rw [of.unique of2] at linked
      exact absurd linked (inv.apart t elt2 mine).1
  · by_cases here : u = t
    · subst here
      simp only [Function.update_self] at mem
      exact usable m mem
    · simp only [Function.update_of_ne here] at mem
      rcases ready m (inv.usable u m mem) with good | ⟨elt, mine, of⟩
      · exact good
      · obtain ⟨elt2, theirs, of2⟩ := live_own mem
        rw [of2.unique of] at theirs
        exact absurd ((inv.apart t elt mine).2 u theirs) here
  · by_cases here : u = t
    · subst here
      simpa only [Function.update_self] using knows
    · simpa only [Function.update_of_ne here] using inv.knows u
  · simp only [owns] at own ⊢
    exact inv.apart u elt own
  · simpa only [owns] using used

/-! ## Steps that change no pointer -/

variable (ran : code h s (s.pc t) = .ok instr) {m : Mutex κ}

include ran

/-- The thread knows what it has to know at the next point. -/
theorem knows_after (stays : ∀ eltp elt pc, instr ≠ .store eltp elt pc) : Knows h s.next instr.after := by
  obtain ⟨chain, chains⟩ := inv.chains
  exact code_knows chains (inv.knows t) ran stays

/-- The state of one mutex changes; it is destroyed only if it is of the thread's own element. -/
theorem setMutex {state : MutexState} (stays : ∀ eltp elt pc, instr ≠ .store eltp elt pc)
    (kept : ∀ elt pc, instr ≠ .free elt pc)
    (owned : Mutexes.Owned (Function.update s.mutexes m state) fun u => held h (Function.update s.pc t instr.after u))
    (ready : state ≠ .uninitialized ∨ ∃ elt, own (s.pc t) = some elt ∧ m.OfElt elt)
    (usable : ∀ m' ∈ live instr.after, m' = m ∧ state ≠ .uninitialized ∨ m' ∈ live (s.pc t) ∧ (m' ≠ m ∨ state ≠ .uninitialized)) :
    Invariant h ((s.setMutex m state).move t instr.after) := by
  refine inv.quiet s.count owned (fun m' good => ?_) (fun m' mem => ?_) (inv.knows_after ran stays)
    (code_own ran stays kept)
  · change Function.update s.mutexes m state m' ≠ _ ∨ _
    by_cases same : m' = m
    · rw [same, Function.update_self]
      exact ready
    · rw [Function.update_of_ne same]
      exact .inl good
  · change Function.update s.mutexes m state m' ≠ _
    by_cases same : m' = m
    · rw [same, Function.update_self]
      rcases usable m' mem with ⟨-, good⟩ | ⟨-, other | good⟩
      · exact good
      · exact absurd same other
      · exact good
    · rw [Function.update_of_ne same]
      rcases usable m' mem with ⟨here, -⟩ | ⟨before, -⟩
      · exact absurd here same
      · exact inv.usable t m' before

omit ran

theorem lock (ran : code h s (s.pc t) = .ok (.lock m pc)) (unlocked : s.mutexes m = .unlocked) :
    Invariant h ((s.setMutex m (.locked t)).move t pc) := by
  refine inv.setMutex ran nofun nofun ?_ (.inl nofun) fun m' mem => .inr ⟨code_live ran m' mem, .inr nofun⟩
  exact inv.owned.lock unlocked (held_self.trans (code_held ran)) fun _ => held_other

theorem unlock (ran : code h s (s.pc t) = .ok (.unlock m pc)) : Invariant h ((s.setMutex m .unlocked).move t pc) := by
  refine inv.setMutex ran nofun nofun ?_ (.inl nofun) fun m' mem => ?_
  · refine inv.owned.unlock ?_ fun _ => held_other
    rw [held_self]
    exact code_held ran
  · exact (code_live ran m' mem).imp (fun same => ⟨same, nofun⟩) fun before => ⟨before, .inr nofun⟩

theorem init (ran : code h s (s.pc t) = .ok (.init m pc)) : Invariant h ((s.setMutex m .unlocked).move t pc) := by
  obtain ⟨elt, mine, of, unheld⟩ := code_init ran
  have nobody (u : ℕ) : m ∉ held h (s.pc u) := fun mem => by
    obtain rfl := inv.unheld mine of mem
    exact unheld mem
  refine inv.setMutex ran nofun nofun ?_ (.inl nofun) fun m' mem => ?_
  · refine (inv.owned.set nobody (fun t => ?_)).congr fun u => ?_
    · nofun
    · by_cases here : u = t
      · rw [here, held_self]
        exact code_held ran
      · exact held_other here
  · exact (code_live ran m' mem).imp (fun same => ⟨same, nofun⟩) fun before => ⟨before, .inr nofun⟩

theorem destroy (ran : code h s (s.pc t) = .ok (.destroy m pc)) (unlocked : s.mutexes m = .unlocked) :
    Invariant h ((s.setMutex m .uninitialized).move t pc) := by
  obtain ⟨used, further⟩ := code_live ran
  have nobody (u : ℕ) : m ∉ held h (s.pc u) := fun mem => by
    cases unlocked.symm.trans ((inv.owned.locked_iff m u).mpr mem)
  refine inv.setMutex ran nofun nofun ?_ (.inr (live_own used)) fun m' mem =>
    .inr ⟨(further m' mem).1, .inl (further m' mem).2⟩
  refine (inv.owned.set nobody (fun t => ?_)).congr fun u => ?_
  · nofun
  · by_cases here : u = t
    · rw [here, held_self]
      exact code_held ran
    · exact held_other here

/-- Neither a mutex nor a pointer changes. -/
theorem goOn (count : ℤ) (ran : code h s (s.pc t) = .ok instr) (stays : ∀ eltp elt pc, instr ≠ .store eltp elt pc)
    (kept : ∀ elt pc, instr ≠ .free elt pc) (same : held h instr.after = held h (s.pc t))
    (usable : ∀ m ∈ live instr.after, m ∈ live (s.pc t)) : Invariant h ({ s with count }.move t instr.after) := by
  refine inv.quiet count (inv.owned.congr fun u => ?_) (fun _ good => .inl good)
    (fun m mem => inv.usable t m (usable m mem)) (inv.knows_after ran stays) (code_own ran stays kept)
  by_cases here : u = t
  · rw [here, held_self, same]
  · exact held_other here

/-- An element is freed. -/
theorem free (ran : code h s (s.pc t) = .ok (.free elt pc)) :
    Invariant h ({ s with allocated := Function.update s.allocated elt false }.move t pc) := by
  obtain ⟨mine, nothing, unused⟩ := code_free ran
  obtain ⟨unlinked, only⟩ := inv.apart t elt mine
  refine ⟨inv.chains, inv.owned.congr fun u => ?_, inv.shared, inv.linked, fun u m mem => ?_, fun u => ?_,
    fun u elt2 own => ?_, fun elt2 used => ?_⟩
  · by_cases here : u = t
    · rw [here]
      exact held_self.trans (code_held ran)
    · exact held_other here
  · by_cases here : u = t
    · subst here
      simp only [System.move, Function.update_self, unused] at mem
      cases mem
    · simp only [System.move, Function.update_of_ne here] at mem
      exact inv.usable u m mem
  · by_cases here : u = t
    · subst here
      simp only [System.move, Function.update_self]
      exact inv.knows_after ran nofun
    · simp only [System.move, Function.update_of_ne here]
      exact inv.knows u
  · refine inv.apart_update (t := t) (fun elt own => ?_) (fun u _ elt own => (inv.apart u elt own).1) u elt2 own
    cases nothing.symm.trans own
  · have other : elt2 ≠ elt := by
      rintro rfl
      rcases used with linked | ⟨u, owns⟩
      · exact unlinked linked
      · by_cases here : u = t
        · subst here
          simp only [System.move, Function.update_self, nothing] at owns
          cases owns
        · simp only [System.move, Function.update_of_ne here] at owns
          exact here (only u owns)
    refine (Function.update_of_ne other _ _).trans (inv.allocated elt2 (used.imp id ?_))
    rintro ⟨u, owns⟩
    by_cases here : u = t
    · subst here
      simp only [System.move, Function.update_self, nothing] at owns
      cases owns
    · simp only [System.move, Function.update_of_ne here] at owns
      exact ⟨u, owns⟩

/-! ## Steps that change a pointer -/

variable {next' : Cell κ → Option (Elt κ)} {chain' : ℕ → List (Elt κ)}

/-- Pointers change, but not for the other threads. A new element in the lists is the thread's own, and if it
takes an element for its own that it had not, the element was linked. -/
theorem stored (chains' : Chains h next' chain')
    (keeps : ∀ u, u ≠ t → Keeps (held h (s.pc u)) (own (s.pc u)) s.next next') (knows : Knows h next' pc)
    (same : held h pc = held h (s.pc t)) (usable : ∀ m ∈ live pc, m ∈ live (s.pc t))
    (linked : ∀ elt, IsLinked h next' elt → IsLinked h s.next elt ∨
      own (s.pc t) = some elt ∧ ∀ m : Mutex κ, m.OfElt elt → m ∈ live (s.pc t))
    (owns : ∀ elt, own pc = some elt →
      (own (s.pc t) = some elt ∨ IsLinked h s.next elt) ∧ ¬ IsLinked h next' elt) :
    Invariant h ({ s with next := next' }.move t pc) := by
  refine ⟨⟨chain', chains'⟩, inv.owned.congr fun u => ?_, inv.shared, fun elt isLinked m of => ?_, fun u m mem => ?_,
    fun u => ?_, fun u elt mine => ?_, fun elt used => ?_⟩
  · by_cases here : u = t
    · rw [here]
      exact held_self.trans same
    · exact held_other here
  · rcases linked elt isLinked with before | ⟨-, live⟩
    · exact inv.linked elt before m of
    · exact inv.usable t m (live m of)
  · by_cases here : u = t
    · subst here
      simp only [System.move, Function.update_self] at mem
      exact inv.usable u m (usable m mem)
    · simp only [System.move, Function.update_of_ne here] at mem
      exact inv.usable u m mem
  · by_cases here : u = t
    · subst here
      simpa only [System.move, Function.update_self] using knows
    · simpa only [System.move, Function.update_of_ne here] using (inv.knows u).frame (keeps u here)
  · refine inv.apart_update (fun elt mine => ⟨(owns elt mine).2, fun u other theirs => ?_⟩) (fun u other elt theirs => ?_)
      u elt mine
    · rcases (owns elt mine).1 with before | before
      · exact other ((inv.apart t elt before).2 u theirs)
      · exact (inv.apart u elt theirs).1 before
    · intro isLinked
      rcases linked elt isLinked with before | ⟨before, -⟩
      · exact (inv.apart u elt theirs).1 before
      · exact other ((inv.apart t elt before).2 u theirs)
  · refine inv.allocated elt ?_
    rcases used with isLinked | ⟨u, mine⟩
    · exact (linked elt isLinked).imp id fun before => ⟨t, before.1⟩
    · by_cases here : u = t
      · subst here
        simp only [System.move, Function.update_self] at mine
        exact (owns elt mine).1.symm.imp id fun before => ⟨u, before⟩
      · simp only [System.move, Function.update_of_ne here] at mine
        exact .inr ⟨u, mine⟩

theorem knows_at (here : s.pc t = pc) : Knows h s.next pc := here ▸ inv.knows t

/-- Another thread does not hold a mutex that the thread holds. -/
theorem not_held {m : Mutex κ} (mem : m ∈ held h (s.pc t)) (other : u ≠ t) : m ∉ held h (s.pc u) :=
  fun mem' => other (inv.owned.exclusive mem' mem)

theorem addNext (here : s.pc t = .addNext elt) :
    Invariant h ({ s with next := Function.update s.next (.elt elt) (s.next (.bucket (h.getBucket elt.key))) }.move t
      (.addFirst elt)) := by
  obtain ⟨chain, chains⟩ := inv.chains
  have mine : own (s.pc t) = some elt := by rw [here]; rfl
  obtain ⟨unlinked, only⟩ := inv.apart t elt mine
  have absent : Absent h s.next elt.key := inv.knows_at here
  refine inv.stored (chains.prepare unlinked) (fun u other => chains.keeps_prepare unlinked (fun mem => ?_) (fun own => ?_) _)
    ⟨fun elt2 reach => absent elt2 ((chains.reach_prepare_iff unlinked).mp reach), ?_⟩ (by rw [here]; rfl) ?_
    (fun elt2 linked => .inl ((chains.reach_prepare_iff unlinked).mp linked)) ?_
  · exact other (inv.unheld mine (.inl rfl) mem)
  · exact other (only u own)
  · refine (Function.update_self ..).trans (Function.update_of_ne ?_ _ _).symm
    nofun
  · rw [here]
    exact fun _ mem => mem
  · rintro elt2 ⟨⟩
    exact ⟨.inl mine, fun linked => unlinked ((chains.reach_prepare_iff unlinked).mp linked)⟩

theorem addFirst (here : s.pc t = .addFirst elt) :
    Invariant h ({ s with next := Function.update s.next (.bucket (h.getBucket elt.key)) (some elt) }.move t
      (.addData elt)) := by
  obtain ⟨chain, chains⟩ := inv.chains
  obtain ⟨absent, ready⟩ := inv.knows_at here
  have holds : .ptr (.bucket (h.getBucket elt.key)) ∈ held h (s.pc t) ∧ .uniq (h.getBucket elt.key) ∈ held h (s.pc t) := by
    rw [here]
    simp [held]
  refine inv.stored (chains.insert absent ready)
    (fun u other => chains.keeps_insert absent ready (inv.not_held holds.1 other) (inv.not_held holds.2 other))
    ⟨.inl rfl, Function.update_self ..⟩ (by rw [here]; rfl) (fun m mem => absurd mem List.not_mem_nil)
    (fun elt2 linked => ?_) (fun elt2 mine => absurd mine (by simp [own]))
  rcases (chains.reach_insert_iff absent ready).mp linked with before | ⟨rfl, -⟩
  · exact .inl before
  · rw [here]
    refine .inr ⟨rfl, fun m of => ?_⟩
    rcases of with rfl | rfl <;> simp [live]

theorem unlink {deleter : Deleter κ} (here : s.pc t = .unlink deleter elt) :
    Invariant h ({ s with next := Function.update s.next deleter.eltp (s.next (.elt elt)) }.move t
      (.unlockPtr deleter elt)) := by
  obtain ⟨chain, chains⟩ := inv.chains
  have pointsTo : PointsTo h s.next deleter.eltp elt := inv.knows_at here
  have linked := (chains.isLinked_of_next pointsTo.inBucket pointsTo.points).2
  have holds : .ptr deleter.eltp ∈ held h (s.pc t) ∧ ∀ m : Mutex κ, m = .data elt ∨ m = .ptr (.elt elt) → m ∈ held h (s.pc t) := by
    rw [here]
    cases deleter <;> simp [held, Deleter.held, Deleter.eltp]
  refine inv.stored (chains.remove pointsTo) (fun u other => chains.keeps_remove pointsTo (inv.not_held holds.1 other)
      (fun m of => inv.not_held (holds.2 m of) other) fun elt2 own => (inv.apart u elt2 own).1)
    ⟨h.getBucket elt.key, ?_⟩ (by rw [here]; rfl) (fun m mem => absurd mem List.not_mem_nil)
    (fun elt2 linked => .inl ((chains.reach_remove_iff pointsTo).mp linked).1) ?_
  · rcases pointsTo.inBucket with first | ⟨elt2, reach, same⟩
    · exact .inl first
    · refine .inr ⟨elt2, (chains.reach_remove_iff pointsTo).mpr ⟨reach, ?_⟩, same⟩
      rintro rfl
      exact chains.elt_ne pointsTo same.symm
  · rintro elt2 ⟨⟩
    exact ⟨.inr linked, fun after => ((chains.reach_remove_iff pointsTo).mp after).2 rfl⟩

/-- Every instruction keeps the invariant. -/
theorem exec (ran : code h s (s.pc t) = .ok instr) (done : Hashtbl.exec s t instr = .ok s') : Invariant h s' := by
  cases instr with
  | lock m pc =>
    rw [Hashtbl.exec] at done
    split at done <;> cases done
    next unlocked => exact inv.lock ran unlocked
  | unlock m pc =>
    rw [Hashtbl.exec] at done
    split at done
    · cases done
    · cases done
    · split at done <;> cases done
      exact inv.unlock ran
  | init m pc =>
    cases done
    exact inv.init ran
  | destroy m pc =>
    rw [Hashtbl.exec] at done
    split at done <;> cases done
    next unlocked => exact inv.destroy ran unlocked
  | store eltp elt' pc =>
    cases done
    rcases code_store ran with ⟨elt, here, rfl, rfl, rfl⟩ | ⟨elt, here, rfl, rfl, rfl⟩ | ⟨deleter, elt, here, rfl, rfl, rfl⟩
    · exact inv.addNext here
    · exact inv.addFirst here
    · exact inv.unlink here
  | setCount count pc =>
    cases done
    exact inv.goOn count ran nofun nofun (code_held ran) (code_live ran)
  | free elt pc =>
    cases done
    exact inv.free ran
  | goto pc =>
    cases done
    exact inv.goOn s.count ran nofun nofun (code_held ran) (code_live ran)

/-- An element that is added is new, so it is the thread's own. -/
theorem addElement (idle : s.pc t = .idle) (new : s.allocated elt = false) :
    Invariant h ({ s with allocated := Function.update s.allocated elt true }.move t (.addCount elt)) := by
  have unused (used : IsLinked h s.next elt ∨ ∃ u, own (s.pc u) = some elt) : False := by
    rw [inv.allocated elt used] at new
    cases new
  refine ⟨inv.chains, inv.owned.congr fun u => ?_, inv.shared, inv.linked, fun u m mem => ?_, fun u => ?_,
    fun u elt2 own => ?_, fun elt2 used => ?_⟩
  · by_cases here : u = t
    · rw [here]
      exact held_self.trans (by rw [idle]; rfl)
    · exact held_other here
  · by_cases here : u = t
    · subst here
      simp only [System.move, Function.update_self] at mem
      cases mem
    · simp only [System.move, Function.update_of_ne here] at mem
      exact inv.usable u m mem
  · by_cases here : u = t
    · subst here
      simp only [System.move, Function.update_self]
      exact True.intro
    · simp only [System.move, Function.update_of_ne here]
      exact inv.knows u
  · refine inv.apart_update (t := t) (fun elt2 own => ?_) (fun u _ elt own => (inv.apart u elt own).1) u elt2 own
    cases own
    exact ⟨fun linked => unused (.inl linked), fun u _ owns => unused (.inr ⟨u, owns⟩)⟩
  · by_cases same : elt2 = elt
    · rw [same]
      exact Function.update_self ..
    · refine (Function.update_of_ne same _ _).trans (inv.allocated elt2 (used.imp id ?_))
      rintro ⟨u, owns⟩
      by_cases here : u = t
      · subst here
        simp only [System.move, Function.update_self] at owns
        cases owns
        exact absurd rfl same
      · simp only [System.move, Function.update_of_ne here] at owns
        exact ⟨u, owns⟩

/-- A thread calls another function. -/
theorem entered (same : held h pc = held h (s.pc t)) (knows : Knows h s.next pc) (owns : own pc = own (s.pc t))
    (unused : live pc = []) : Invariant h (s.move t pc) := by
  refine inv.quiet s.count (inv.owned.congr fun u => ?_) (fun _ good => .inl good) (fun m mem => ?_) knows owns
  · by_cases here : u = t
    · rw [here, held_self, same]
    · exact held_other here
  · rw [unused] at mem
    cases mem

theorem call (c : Call κ) (enabled : enabled h s (.call t c) = true) :
    Invariant h ({ s with allocated := c.allocate s.allocated }.move t (c.entry h (s.pc t))) := by
  have admits := admits_of_enabled enabled
  rcases Pc.admits_cases admits with idle | ⟨elt, here, rfl | rfl⟩
  · cases c with
    | addElement elt => exact inv.addElement idle (by simpa using (Bool.and_eq_true_iff.mp enabled).2)
    | nextElementByptr | unlockElementByptr =>
      rw [idle] at admits
      cases admits
    | findElementBykey | deleteElementBykey | firstElement =>
      exact inv.entered (by rw [idle]; rfl) nofun (by rw [idle]; rfl) rfl
    | empty | getCount => exact inv.entered (by rw [idle]; rfl) True.intro (by rw [idle]; rfl) rfl
  · have linked : IsLinked h s.next elt := inv.knows_at here
    rw [here]
    exact inv.entered (by rw [here]; rfl) linked (by rw [here]; rfl) rfl
  · have linked : IsLinked h s.next elt := inv.knows_at here
    rw [here]
    exact inv.entered (by rw [here]; rfl) linked (by rw [here]; rfl) rfl

/-- Every step of every thread keeps the invariant. -/
theorem step {action : Action κ} (enabled : Hashtbl.enabled h s action = true) (ran : Hashtbl.step h s action = .ok s') :
    Invariant h s' := by
  cases action with
  | call t c =>
    cases ran
    exact inv.call c enabled
  | step t =>
    obtain ⟨instr, next, done⟩ := Except.bind_eq_ok_iff.mp ran
    exact inv.exec next done

end Invariant

end Scubed3.Hashtbl
