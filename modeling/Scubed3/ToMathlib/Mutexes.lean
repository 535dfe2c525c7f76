import Mathlib.Data.List.Nodup
import Mathlib.Logic.Function.Basic
import Mathlib.Logic.Relation
import Mathlib.Order.Basic

/-! # Mutexes

Which mutexes a thread holds follows from where it is. `Owned` says that this is what the mutexes themselves say;
it is kept when a thread locks and unlocks as its points say. A thread that wants a mutex waits for the thread that
holds it. When every mutex has a rank, and a thread only wants a mutex whose rank is above those of all that it
holds, then no thread waits for itself, not even through others.
-/

/-- The state of a mutex, for threads that have numbers. -/
inductive MutexState where
  /-- It was not initialised yet, or it was destroyed. -/
  | uninitialized
  | unlocked
  | locked (thread : ℕ)
deriving DecidableEq

namespace Mutexes

variable {τ μ ρ : Type}

/-- The mutexes are locked by the threads that hold them. -/
structure Owned (mutexes : μ → MutexState) (held : ℕ → List μ) : Prop where
  locked_iff : ∀ m t, mutexes m = .locked t ↔ m ∈ held t
  nodup : ∀ t, (held t).Nodup

namespace Owned

variable {mutexes : μ → MutexState} {held held' : ℕ → List μ} {m : μ} {t u : ℕ}

theorem exclusive (owned : Owned mutexes held) (mem : m ∈ held t) (mem' : m ∈ held u) : t = u := by
  have first := (owned.locked_iff m t).mpr mem
  have second := (owned.locked_iff m u).mpr mem'
  exact MutexState.locked.inj (first.symm.trans second)

theorem congr (owned : Owned mutexes held) (same : ∀ t, held' t = held t) : Owned mutexes held' := by
  rwa [funext same]

variable [DecidableEq μ]

theorem lock (owned : Owned mutexes held) (unlocked : mutexes m = .unlocked) (self : held' t = m :: held t)
    (others : ∀ u, u ≠ t → held' u = held u) : Owned (Function.update mutexes m (.locked t)) held' := by
  have nobody : ∀ u, m ∉ held u := fun u mem => by
    have locked := (owned.locked_iff m u).mpr mem
    rw [unlocked] at locked
    cases locked
  refine ⟨fun m' u => ?_, fun u => ?_⟩
  · by_cases same : m' = m
    · subst same
      rw [Function.update_self]
      by_cases own : u = t
      · subst own
        rw [self]
        exact ⟨fun _ => List.mem_cons_self, fun _ => rfl⟩
      · rw [others u own]
        exact ⟨fun locked => absurd (MutexState.locked.inj locked).symm own, fun mem => absurd mem (nobody u)⟩
    · rw [Function.update_of_ne same, owned.locked_iff]
      by_cases own : u = t
      · subst own
        rw [self, List.mem_cons, or_iff_right same]
      · rw [others u own]
  · by_cases own : u = t
    · subst own
      rw [self]
      exact List.nodup_cons.mpr ⟨nobody u, owned.nodup u⟩
    · rw [others u own]
      exact owned.nodup u

theorem unlock (owned : Owned mutexes held) (self : (held t).Perm (m :: held' t))
    (others : ∀ u, u ≠ t → held' u = held u) : Owned (Function.update mutexes m .unlocked) held' := by
  have nodup : (m :: held' t).Nodup := self.nodup_iff.mp (owned.nodup t)
  obtain ⟨gone, rest⟩ := List.nodup_cons.mp nodup
  have mine : m ∈ held t := self.mem_iff.mpr List.mem_cons_self
  refine ⟨fun m' u => ?_, fun u => ?_⟩
  · by_cases same : m' = m
    · subst same
      rw [Function.update_self]
      refine ⟨nofun, fun mem => ?_⟩
      by_cases own : u = t
      · subst own
        exact absurd mem gone
      · rw [others u own] at mem
        exact absurd (owned.exclusive mem mine) own
    · rw [Function.update_of_ne same, owned.locked_iff]
      by_cases own : u = t
      · subst own
        rw [self.mem_iff, List.mem_cons, or_iff_right same]
      · rw [others u own]
  · by_cases own : u = t
    · subst own
      exact rest
    · rw [others u own]
      exact owned.nodup u

/-- A mutex that nobody holds is initialised or destroyed. -/
theorem set {state : MutexState} (owned : Owned mutexes held) (nobody : ∀ t, m ∉ held t)
    (free : ∀ t, state ≠ .locked t) : Owned (Function.update mutexes m state) held := by
  refine ⟨fun m' u => ?_, owned.nodup⟩
  by_cases same : m' = m
  · subst same
    rw [Function.update_self]
    exact ⟨fun locked => absurd locked (free u), fun mem => absurd mem (nobody u)⟩
  · rw [Function.update_of_ne same, owned.locked_iff]

end Owned

variable {wants holds : τ → μ → Prop}

/-- The first thread wants a mutex that the second one holds. -/
def WaitsFor (wants holds : τ → μ → Prop) (t u : τ) : Prop := ∃ m, wants t m ∧ holds u m

/-- Along a path of waits the rank of the mutexes does not fall. -/
theorem exists_rank_le [Preorder ρ] {rank : μ → ρ} {t u : τ}
    (ordered : ∀ t m m', wants t m → holds t m' → rank m' < rank m)
    (path : Relation.TransGen (WaitsFor wants holds) t u) :
    ∃ m m', wants t m ∧ holds u m' ∧ rank m ≤ rank m' := by
  induction path with
  | single edge =>
    obtain ⟨m, wanted, held⟩ := edge
    exact ⟨m, m, wanted, held, le_rfl⟩
  | tail _ edge ih =>
    obtain ⟨m, m', wanted, held, le⟩ := ih
    obtain ⟨m'', wanted', held'⟩ := edge
    exact ⟨m, m'', wanted, held', le.trans (ordered _ _ _ wanted' held).le⟩

/-- Threads that lock in the order of the ranks do not wait in a circle. -/
theorem acyclic_of_rank [Preorder ρ] {rank : μ → ρ}
    (ordered : ∀ t m m', wants t m → holds t m' → rank m' < rank m) (t : τ) :
    ¬ Relation.TransGen (WaitsFor wants holds) t t := by
  intro cycle
  obtain ⟨m, m', wanted, held, le⟩ := exists_rank_le ordered cycle
  exact absurd (ordered t m m' wanted held) (not_lt_of_ge le)

end Mutexes
