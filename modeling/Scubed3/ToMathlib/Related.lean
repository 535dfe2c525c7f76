import Scubed3.ToMathlib.Draw

/-! # Programs that do the same

Two programs are related if they draw the same outcomes, fail with the same errors, and return related values. So
whoever only sees the related part of a value cannot tell them apart, whatever the source delivers. The rules follow
the two programs side by side.
-/

variable {ε α α' β β' γ : Type}

/-- Both return related values, or both fail with the same error. -/
inductive Except.Related (r : α → α' → Prop) : Except ε α → Except ε α' → Prop
  | ok {a : α} {a' : α'} (related : r a a') : Related r (.ok a) (.ok a')
  | error (e : ε) : Related r (.error e) (.error e)

/-- Both programs draw the same outcomes, and then return related values, or fail with the same error. -/
inductive Draw.Related (r : α → α' → Prop) : Draw ε α → Draw ε α' → Prop
  | ret {a : α} {a' : α'} (related : r a a') : Related r (.ret a) (.ret a')
  | raise (e : ε) : Related r (.raise e) (.raise e)
  | starve : Related r .starve .starve
  | choose (count : ℕ) {next : ℕ → Draw ε α} {next' : ℕ → Draw ε α'} (each : ∀ outcome, Related r (next outcome) (next' outcome)) :
      Related r (.choose count next) (.choose count next')

variable {r : α → α' → Prop} {q : β → β' → Prop}

namespace Except.Related

theorem pure {a : α} {a' : α'} (related : r a a') : Related r (Pure.pure a : Except ε α) (Pure.pure a') := .ok related

theorem throw (e : ε) : Related r (MonadExcept.throw e : Except ε α) (MonadExcept.throw e) := .error e

theorem refl (x : Except ε α) : Related Eq x x := by
  cases x with
  | ok a => exact .ok rfl
  | error e => exact .error e

theorem bind {x : Except ε α} {x' : Except ε α'} {f : α → Except ε β} {f' : α' → Except ε β'} (first : Related r x x')
    (others : ∀ a a', r a a' → Related q (f a) (f' a')) : Related q (x >>= f) (x' >>= f') := by
  cases first with
  | ok related => exact others _ _ related
  | error e => exact .error e

/-- Both begin in the same way. -/
theorem bind_same (x : Except ε α) {f : α → Except ε β} {f' : α → Except ε β'} (others : ∀ a, Related q (f a) (f' a)) :
    Related q (x >>= f) (x >>= f') :=
  (refl x).bind fun a _ same => same ▸ others a

/-- Both take the same branch. -/
theorem ite {c : Prop} [Decidable c] {x y : Except ε α} {x' y' : Except ε α'} (whenTrue : Related r x x')
    (whenFalse : Related r y y') : Related r (if c then x else y) (if c then x' else y') := by
  split
  · exact whenTrue
  · exact whenFalse

end Except.Related

namespace Draw.Related

theorem pure {a : α} {a' : α'} (related : r a a') : Related r (Pure.pure a : Draw ε α) (Pure.pure a') := .ret related

theorem refl (x : Draw ε α) : Related Eq x x := by
  induction x with
  | ret a => exact .ret rfl
  | raise e => exact .raise e
  | starve => exact .starve
  | choose count next ih => exact .choose count ih

theorem lift {x : Except ε α} {x' : Except ε α'} (related : Except.Related r x x') :
    Related r (liftM x : Draw ε α) (liftM x') := by
  cases related with
  | ok related => exact .ret related
  | error e => exact .raise e

theorem bind {x : Draw ε α} {x' : Draw ε α'} {f : α → Draw ε β} {f' : α' → Draw ε β'} (first : Related r x x')
    (others : ∀ a a', r a a' → Related q (f a) (f' a')) : Related q (x >>= f) (x' >>= f') := by
  induction first with
  | ret related => exact others _ _ related
  | raise e => exact .raise e
  | starve => exact .starve
  | choose count _ ih => exact .choose count ih

theorem bind_same (x : Draw ε α) {f : α → Draw ε β} {f' : α → Draw ε β'} (others : ∀ a, Related q (f a) (f' a)) :
    Related q (x >>= f) (x >>= f') :=
  (refl x).bind fun a _ same => same ▸ others a

theorem ite {c : Prop} [Decidable c] {x y : Draw ε α} {x' y' : Draw ε α'} (whenTrue : Related r x x')
    (whenFalse : Related r y y') : Related r (if c then x else y) (if c then x' else y') := by
  split
  · exact whenTrue
  · exact whenFalse

/-- Related requests, one after the other. -/
theorem foldlM {f : α → γ → Draw ε α} {g : α' → γ → Draw ε α'} {s : γ → γ → Prop}
    (once : ∀ a a' c c', r a a' → s c c' → Related r (f a c) (g a' c')) {turns turns' : List γ}
    (shape : List.Forall₂ s turns turns') {a : α} {a' : α'} (start : r a a') :
    Related r (turns.foldlM f a) (turns'.foldlM g a') := by
  induction shape generalizing a a' with
  | nil => exact .ret start
  | cons same _ ih => exact (once _ _ _ _ start same).bind fun _ _ related => ih related

theorem mono {r' : α → α' → Prop} {x : Draw ε α} {x' : Draw ε α'} (related : Related r x x') (weaker : ∀ a a', r a a' → r' a a') :
    Related r' x x' := by
  induction related with
  | ret related => exact .ret (weaker _ _ related)
  | raise e => exact .raise e
  | starve => exact .starve
  | choose count _ ih => exact .choose count ih

/-- What both show is the same program. -/
theorem map_eq {f : α → β} {f' : α' → β} {x : Draw ε α} {x' : Draw ε α'} (related : Related (fun a a' => f a = f' a') x x') :
    f <$> x = f' <$> x' := by
  induction related with
  | ret same => exact congrArg Draw.ret same
  | raise e => rfl
  | starve => rfl
  | choose count _ ih => exact congrArg (Draw.choose count) (funext ih)

end Draw.Related
