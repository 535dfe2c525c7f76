import Scubed3.ToMathlib.Draw

/-! # Rules for computations that may fail

`Except.Ensures` has one predicate for the value a computation returns and one for the error it fails
with, as `Draw.Ensures` has for programs that draw. Its rules follow the structure of a `do` block;
a fold over a list is handled by an invariant over the part of the list that was already visited.
-/

namespace Except

variable {ε α β : Type}

/-- A returned value satisfies `q` and an error `onFail`. -/
structure Ensures (x : Except ε α) (q : α → Prop) (onFail : ε → Prop) : Prop where
  value : ∀ a, x = .ok a → q a
  error : ∀ e, x = .error e → onFail e

/-- If a value is returned, it satisfies `q`. -/
abbrev Yields (x : Except ε α) (q : α → Prop) : Prop := Ensures x q fun _ => True

/-- A value is returned, and it satisfies `q`. -/
abbrev Returns (x : Except ε α) (q : α → Prop) : Prop := Ensures x q fun _ => False

@[simp] theorem bind_eq_ok_iff {x : Except ε α} {f : α → Except ε β} {b : β} :
    x >>= f = .ok b ↔ ∃ a, x = .ok a ∧ f a = .ok b := by
  cases x with
  | ok a =>
    constructor
    · exact fun ran => ⟨a, rfl, ran⟩
    · rintro ⟨_, ⟨⟩, ran⟩
      exact ran
  | error e =>
    constructor
    · exact fun ran => nomatch ran
    · rintro ⟨_, same, -⟩
      cases same

theorem ok_bind (a : α) (f : α → Except ε β) : (.ok a : Except ε α) >>= f = f a := rfl

@[simp] theorem pure_eq_ok_iff {a b : α} : (pure a : Except ε α) = .ok b ↔ a = b :=
  ⟨fun same => by cases same; rfl, fun same => by rw [same]; rfl⟩

/-- A test that throws when it holds, in the middle of a `do` block. -/
theorem ite_throw_eq_ok_iff {c : Prop} [Decidable c] {e : ε} {f : α → Except ε β} {x : Except ε β} {b : β} :
    (if c then MonadExcept.throw e >>= f else x) = .ok b ↔ ¬ c ∧ x = .ok b := by
  split
  · next holds =>
    constructor
    · exact fun ran => nomatch ran
    · exact fun ran => absurd holds ran.1
  · next fails => exact ⟨fun ran => ⟨fails, ran⟩, fun ran => ran.2⟩

theorem bind_eq_error_iff {x : Except ε α} {f : α → Except ε β} {e : ε} :
    x >>= f = .error e ↔ x = .error e ∨ ∃ a, x = .ok a ∧ f a = .error e := by
  cases x with
  | ok a =>
    constructor
    · exact fun ran => .inr ⟨a, rfl, ran⟩
    · rintro (failed | ⟨_, ⟨⟩, ran⟩)
      · cases failed
      · exact ran
  | error e' =>
    constructor
    · intro failed
      cases failed
      exact .inl rfl
    · rintro (failed | ⟨_, same, -⟩)
      · cases failed
        rfl
      · cases same

namespace Ensures

variable {q m : α → Prop} {onFail : ε → Prop}

theorem yields {x : Except ε α} (spec : ∀ a, x = .ok a → q a) : Yields x q :=
  ⟨spec, fun _ _ => True.intro⟩

theorem of_ok {x : Except ε α} {a : α} (ran : x = .ok a) (holds : q a) : Ensures x q onFail := by
  refine ⟨fun b same => ?_, fun e failed => ?_⟩
  · cases ran.symm.trans same
    exact holds
  · cases ran.symm.trans failed

theorem pure {a : α} (holds : q a) : Ensures (Pure.pure a : Except ε α) q onFail := of_ok rfl holds

theorem throw {e : ε} (holds : onFail e) : Ensures (MonadExcept.throw e : Except ε α) q onFail := by
  refine ⟨fun a ran => ?_, fun e' failed => ?_⟩
  · cases ran
  · cases failed
    exact holds

theorem bind {x : Except ε α} {f : α → Except ε β} {q : β → Prop} (first : Ensures x m onFail)
    (next : ∀ a, m a → Ensures (f a) q onFail) : Ensures (x >>= f) q onFail := by
  refine ⟨fun b ran => ?_, fun e failed => ?_⟩
  · obtain ⟨a, left, right⟩ := bind_eq_ok_iff.mp ran
    exact (next a (first.value a left)).value b right
  · rcases bind_eq_error_iff.mp failed with left | ⟨a, left, right⟩
    · exact first.error e left
    · exact (next a (first.value a left)).error e right

theorem mono {x : Except ε α} {r : α → Prop} {onFail' : ε → Prop} (spec : Ensures x q onFail)
    (weaker : ∀ a, q a → r a) (weakerFail : ∀ e, onFail e → onFail' e) : Ensures x r onFail' :=
  ⟨fun a ran => weaker a (spec.value a ran), fun e failed => weakerFail e (spec.error e failed)⟩

theorem imp {x : Except ε α} {r : α → Prop} (spec : Ensures x q onFail)
    (weaker : ∀ a, q a → r a) : Ensures x r onFail := spec.mono weaker fun _ failed => failed

/-- What holds of every returned value may be added. -/
theorem and_yields {x : Except ε α} {r : α → Prop} (spec : Ensures x q onFail)
    (also : Yields x r) : Ensures x (fun a => q a ∧ r a) onFail :=
  ⟨fun a ran => ⟨spec.value a ran, also.value a ran⟩, spec.error⟩

theorem exists_ok {x : Except ε α} (spec : Returns x q) : ∃ a, x = .ok a ∧ q a := by
  cases ran : x with
  | ok a => exact ⟨a, rfl, spec.value a ran⟩
  | error e => exact (spec.error e ran).elim

theorem foldlM {f : β → α → Except ε β} {I : List α → β → Prop} {l : List α} {b : β} (start : I [] b)
    (step : ∀ visited a rest b, l = visited ++ a :: rest → I visited b →
      Ensures (f b a) (I (visited ++ [a])) onFail) : Ensures (l.foldlM f b) (I l) onFail := by
  suffices general : ∀ rest visited b, l = visited ++ rest → I visited b →
      Ensures (rest.foldlM f b) (I (visited ++ rest)) onFail from general l [] b rfl start
  intro rest
  induction rest with
  | nil => exact fun visited b _ holds => pure (by simpa using holds)
  | cons a rest ih =>
    intro visited b whole holds
    rw [List.foldlM_cons]
    refine bind (step visited a rest b whole holds) fun b' holds' => ?_
    simpa using ih (visited ++ [a]) b' (by simpa using whole) holds'

/-- The same inside a program that draws. -/
theorem lift {x : Except ε α} (spec : Ensures x q onFail) :
    Draw.Ensures (liftM x : Draw ε α) q onFail := .lift spec.value spec.error

end Ensures

end Except
