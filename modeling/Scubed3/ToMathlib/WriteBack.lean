import Mathlib.Data.List.Basic

/-! # Stores that write back

A store changes in memory, and now and then all changes so far reach the disk at once. The log has the changes, the
newest first. The disk lags behind by the changes that did not reach it yet: it has the value of the log without them.
-/

namespace WriteBack

variable {Change Value : Type*} (apply : Change → Value → Value) (start : Value)

/-- The value after all changes of the log. -/
def value (log : List Change) : Value := log.foldr apply start

/-- The disk has the value before the last `count` changes. -/
def LagsBy (count : ℕ) (log : List Change) (disk : Value) : Prop := value apply start (log.drop count) = disk

variable {apply start} {count : ℕ} {log : List Change} {disk : Value}

@[simp] theorem value_nil : value apply start [] = start := rfl

@[simp] theorem value_cons (change : Change) (log : List Change) :
    value apply start (change :: log) = apply change (value apply start log) := rfl

theorem value_append (newer older : List Change) :
    value apply start (newer ++ older) = newer.foldr apply (value apply start older) := List.foldr_append

namespace LagsBy

/-- Everything reached the disk. -/
theorem flushed (log : List Change) : LagsBy apply start 0 log (value apply start log) := rfl

theorem value_eq (lags : LagsBy apply start 0 log disk) : value apply start log = disk := lags

/-- A change in memory. -/
theorem change (lags : LagsBy apply start count log disk) (change : Change) :
    LagsBy apply start (count + 1) (change :: log) disk := lags

/-- After a crash the store goes on with what is on the disk. -/
theorem restart (lags : LagsBy apply start count log disk) : LagsBy apply start 0 (log.drop count) disk := lags

/-- What is lost is the end of the log. -/
theorem exists_append (lags : LagsBy apply start count log disk) :
    ∃ lost kept, lost ++ kept = log ∧ lost.length ≤ count ∧ value apply start kept = disk :=
  ⟨log.take count, log.drop count, List.take_append_drop .., List.length_take_le .., lags⟩

end LagsBy

end WriteBack
