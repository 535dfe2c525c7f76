import Mathlib.Tactic.Common

/-! # The mutexes of one thread

What a thread does with mutexes, as far as it can tell by itself: the mutexes that it holds, and those that it
unlocked although it did not hold them.
-/

structure Holding (μ : Type) where
  held : List μ := []
  strays : List μ := []

namespace Holding

variable {μ : Type} [DecidableEq μ]

/-- The thread locks a mutex; it cannot if it holds it already. -/
def lock (h : Holding μ) (m : μ) : Option (Holding μ) :=
  if m ∈ h.held then none else some { h with held := m :: h.held }

/-- The thread unlocks a mutex. -/
def unlock (h : Holding μ) (m : μ) : Holding μ :=
  if m ∈ h.held then { h with held := h.held.erase m } else { h with strays := m :: h.strays }

variable {h h' : Holding μ} {m : μ}

theorem lock_eq_some_iff : h.lock m = some h' ↔ m ∉ h.held ∧ h' = { h with held := m :: h.held } := by
  rw [lock]
  split
  · next own => exact iff_of_false nofun fun free => free.1 own
  · next free => exact ⟨fun same => ⟨free, (Option.some.inj same).symm⟩, fun same => congrArg some same.2.symm⟩

/-- What was locked last is unlocked. -/
theorem unlock_of_lock (locked : h.lock m = some h') : h'.unlock m = h := by
  obtain ⟨-, rfl⟩ := lock_eq_some_iff.mp locked
  rw [unlock, if_pos List.mem_cons_self, List.erase_cons_head]

theorem unlock_of_not_mem (free : m ∉ h.held) : h.unlock m = { h with strays := m :: h.strays } := if_neg free

end Holding
