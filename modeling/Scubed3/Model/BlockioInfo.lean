import Scubed3.ToMathlib.Draw

/-! # Macroblock records and the ways a call can end badly

`blockio_infos[id]` is what the program keeps in memory about macroblock `id` of the base file;
pointers to these records are macroblock numbers here. A failing `assert`, a `FATAL` exit, an
exception, a `NULL` dereference, an access outside an allocated array and an operation C leaves
undefined are kept apart, so that a statement can say which of them a call excludes.
-/

namespace Scubed3

/-- A call that does not return to its caller. -/
inductive Failure where
  | assertion (expr : String)
  | fatal (message : String)
  | thrown (message : String)
  | null (expr : String)
  | outOfBounds (expr : String)
  | undefined (expr : String)
deriving DecidableEq, Repr

/-- `assert(expr)`. -/
def check (holds : Prop) [Decidable holds] (expr : String) : Except Failure Unit :=
  if holds then .ok () else .error (.assertion expr)

@[simp] theorem check_ok_iff (holds : Prop) [Decidable holds] (expr : String) :
    check holds expr = .ok () ↔ holds := by
  unfold check
  split <;> simp_all

theorem check_eq_ok_iff {holds : Prop} [Decidable holds] {expr : String} {u : Unit} :
    check holds expr = .ok u ↔ holds := check_ok_iff holds expr

@[simp] theorem check_of (holds : Prop) [Decidable holds] (expr : String) (h : holds) :
    check holds expr = .ok () := if_pos h

/-- A SHA256 digest. -/
abbrev Hash := Fin 32 → UInt8

/-- `blockio_info_t`. The list pointers `next` and `ur` are represented by the lists themselves. -/
structure BlockioInfo where
  seqno : ℕ := 0
  nextSeqno : ℕ := 0
  dataHash : Hash := fun _ => 0
  noIndices : ℕ := 0
  noNonobsolete : ℕ := 0
  indices : ℕ → ℕ := fun _ => 0
  /-- The partition this block belongs to, if any. -/
  dev : Option ℕ := none

abbrev BlockioInfos := ℕ → BlockioInfo

/-- Store a new record for one macroblock. -/
def BlockioInfos.set (infos : BlockioInfos) (id : ℕ) (info : BlockioInfo) : BlockioInfos :=
  fun other => if other = id then info else infos other

@[simp] theorem BlockioInfos.set_same (infos : BlockioInfos) (id : ℕ) (info : BlockioInfo) :
    infos.set id info id = info := if_pos rfl

theorem BlockioInfos.set_of_ne (infos : BlockioInfos) {id other : ℕ} (info : BlockioInfo)
    (different : other ≠ id) : infos.set id info other = infos other := if_neg different

/-- `random_custom(r, count)`: one of the numbers below `count`, which must not be zero. -/
def randomCustom (count : ℕ) : Draw Failure ℕ :=
  if count = 0 then .raise (.assertion "count") else .draw count

theorem randomCustom_ensures {count : ℕ} {q : ℕ → Prop} {onFail : Failure → Prop}
    (positive : 0 < count) (holds : ∀ outcome < count, q outcome) :
    Draw.Ensures (randomCustom count) q onFail := by
  rw [randomCustom, if_neg (by omega)]
  exact .draw positive holds

end Scubed3
