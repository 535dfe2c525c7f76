import Mathlib.Data.Nat.Notation
import Mathlib.Tactic.Common

/-! # Programs that draw random outcomes

A program asks its source for one of `count` equally likely outcomes, may fail with an error, and
may give up because it used all the loop turns it was given. It is the tree of what it does for each
outcome. `Draw.run` reads the outcomes from a finite tape, so a statement about every tape is a
statement about every behaviour of the source. Running out, of turns or of tape, is kept apart from
failing: it says that the program has not returned yet, not that it went wrong.

`Draw.Ensures` is the rule system for such programs: one predicate for the value a program returns
and one for the error it fails with.
-/

/-- A program that returns an `α`, fails with an `ε`, or has not finished. -/
inductive Draw (ε α : Type) where
  | ret (value : α)
  | raise (error : ε)
  | starve
  /-- Continue with one of the outcomes `0, …, count - 1`. -/
  | choose (count : ℕ) (next : ℕ → Draw ε α)

/-- What is left when a program stops: its value with the unread tape, its error, or neither. -/
inductive Outcome (ε α : Type) where
  | done (value : α) (rest : List ℕ)
  | failed (error : ε)
  | starved
deriving Repr, DecidableEq

namespace Draw

variable {ε α β : Type}

/-- Read the outcomes from a tape. -/
def run : Draw ε α → (tape : List ℕ) → Outcome ε α
  | ret a, tape => .done a tape
  | raise e, _ => .failed e
  | starve, _ => .starved
  | choose _ _, [] => .starved
  | choose count next, outcome :: tape => (next (outcome % count)).run tape

protected def bind : Draw ε α → (α → Draw ε β) → Draw ε β
  | ret a, f => f a
  | raise e, _ => raise e
  | starve, _ => starve
  | choose count next, f => choose count fun outcome => (next outcome).bind f

instance : Monad (Draw ε) where
  pure := ret
  bind := Draw.bind

/-- One draw. -/
def draw (count : ℕ) : Draw ε ℕ := choose count ret

/-- A pure computation that may fail. -/
def ofExcept : Except ε α → Draw ε α
  | .ok a => ret a
  | .error e => raise e

instance : MonadLift (Except ε) (Draw ε) := ⟨ofExcept⟩

@[simp] theorem ret_bind (a : α) (f : α → Draw ε β) : ret a >>= f = f a := rfl

@[simp] theorem pure_bind' (a : α) (f : α → Draw ε β) : pure a >>= f = f a := rfl

@[simp] theorem raise_bind (e : ε) (f : α → Draw ε β) : raise e >>= f = raise e := rfl

@[simp] theorem starve_bind (f : α → Draw ε β) : starve >>= f = starve := rfl

@[simp] theorem choose_bind (count : ℕ) (next : ℕ → Draw ε α) (f : α → Draw ε β) :
    choose count next >>= f = choose count fun outcome => next outcome >>= f := rfl

theorem bind_ret (x : Draw ε α) : x >>= ret = x := by
  induction x with
  | ret a => rfl
  | raise e => rfl
  | starve => rfl
  | choose count next ih => exact congrArg (choose count) (funext ih)

theorem bind_bind {γ : Type} (x : Draw ε α) (f : α → Draw ε β) (g : β → Draw ε γ) :
    x >>= f >>= g = x >>= fun a => f a >>= g := by
  induction x with
  | ret a => rfl
  | raise e => rfl
  | starve => rfl
  | choose count next ih => exact congrArg (choose count) (funext ih)

@[simp] theorem lift_ok (a : α) : (liftM (Except.ok a : Except ε α) : Draw ε α) = ret a := rfl

@[simp] theorem lift_error (e : ε) : (liftM (Except.error e : Except ε α) : Draw ε α) = raise e := rfl

@[simp] theorem run_ret (a : α) (tape : List ℕ) : (ret a : Draw ε α).run tape = .done a tape := rfl

@[simp] theorem run_pure (a : α) (tape : List ℕ) : (pure a : Draw ε α).run tape = .done a tape := rfl

theorem run_bind (x : Draw ε α) (f : α → Draw ε β) (tape : List ℕ) :
    (x >>= f).run tape = match x.run tape with
      | .done a rest => (f a).run rest
      | .failed e => .failed e
      | .starved => .starved := by
  induction x generalizing tape with
  | ret a => rfl
  | raise e => rfl
  | starve => rfl
  | choose count next ih =>
    cases tape with
    | nil => rfl
    | cons outcome rest => exact ih _ rest

@[simp] theorem run_draw_cons (count outcome : ℕ) (rest : List ℕ) :
    (draw count : Draw ε ℕ).run (outcome :: rest) = .done (outcome % count) rest := rfl

@[simp] theorem bind_done_iff {x : Draw ε α} {f : α → Draw ε β} {tape rest : List ℕ} {b : β} :
    (x >>= f).run tape = .done b rest ↔ ∃ a mid, x.run tape = .done a mid ∧ (f a).run mid = .done b rest := by
  rw [run_bind]
  cases x.run tape <;> simp

@[simp] theorem lift_done_iff {x : Except ε α} {tape rest : List ℕ} {a : α} :
    (liftM x : Draw ε α).run tape = .done a rest ↔ x = .ok a ∧ rest = tape := by
  cases x with
  | ok b => simp [eq_comm]
  | error e => simp [run]

/-- A program that returns does not look at what comes later on the tape. -/
theorem run_append {x : Draw ε α} {tape rest : List ℕ} {a : α} (ran : x.run tape = .done a rest) (later : List ℕ) :
    x.run (tape ++ later) = .done a (rest ++ later) := by
  induction x generalizing tape with
  | ret b =>
    cases ran
    rfl
  | raise e => cases ran
  | starve => cases ran
  | choose count next ih =>
    cases tape with
    | nil => cases ran
    | cons outcome tape => exact ih _ ran

/-- A loop whose turns draw nothing draws nothing. -/
theorem foldlM_pure {γ : Type} {act : α → γ → Draw ε α} {turns : List γ}
    (once : ∀ c ∈ turns, ∀ s, ∃ s', act s c = pure s') (s : α) : ∃ s', turns.foldlM act s = pure s' := by
  induction turns generalizing s with
  | nil => exact ⟨s, rfl⟩
  | cons c turns ih =>
    obtain ⟨mid, first⟩ := once c (List.mem_cons_self ..) s
    rw [List.foldlM_cons, first]
    exact ih (fun c' member => once c' (List.mem_cons_of_mem _ member)) mid

/-- Whatever the source delivers, a returned value satisfies `q` and an error `onFail`. -/
structure Ensures (x : Draw ε α) (q : α → Prop) (onFail : ε → Prop) : Prop where
  result (tape : List ℕ) : match x.run tape with
    | .done a _ => q a
    | .failed e => onFail e
    | .starved => True

/-- Never fails, and a returned value satisfies `q`. -/
abbrev Safe (x : Draw ε α) (q : α → Prop) : Prop := Ensures x q fun _ => False

/-- If a value is returned, it satisfies `q`. -/
abbrev Yields (x : Draw ε α) (q : α → Prop) : Prop := Ensures x q fun _ => True

namespace Ensures

variable {q m : α → Prop} {onFail : ε → Prop}

theorem of_done {x : Draw ε α} {tape rest : List ℕ} {a : α} (spec : Ensures x q onFail)
    (ran : x.run tape = .done a rest) : q a := by
  have result := spec.result tape
  rwa [ran] at result

theorem of_failed {x : Draw ε α} {tape : List ℕ} {e : ε} (spec : Ensures x q onFail)
    (ran : x.run tape = .failed e) : onFail e := by
  have result := spec.result tape
  rwa [ran] at result

theorem mono {x : Draw ε α} {r : α → Prop} {onFail' : ε → Prop} (spec : Ensures x q onFail)
    (weaker : ∀ a, q a → r a) (weakerFail : ∀ e, onFail e → onFail' e) :
    Ensures x r onFail' := by
  refine ⟨fun tape => ?_⟩
  have result := spec.result tape
  cases ran : x.run tape with
  | done a rest => rw [ran] at result; exact weaker a result
  | failed e => rw [ran] at result; exact weakerFail e result
  | starved => trivial

theorem imp {x : Draw ε α} {r : α → Prop} (spec : Ensures x q onFail)
    (weaker : ∀ a, q a → r a) : Ensures x r onFail := spec.mono weaker fun _ h => h

theorem pure {a : α} (holds : q a) : Ensures (Pure.pure a : Draw ε α) q onFail := ⟨fun _ => holds⟩

theorem bind {x : Draw ε α} {f : α → Draw ε β} {q : β → Prop} (first : Ensures x m onFail)
    (next : ∀ a, m a → Ensures (f a) q onFail) : Ensures (x >>= f) q onFail := by
  refine ⟨fun tape => ?_⟩
  have result := first.result tape
  rw [run_bind]
  cases ran : x.run tape with
  | done a rest => rw [ran] at result; exact (next a result).result rest
  | failed e => rw [ran] at result; exact result
  | starved => trivial

theorem raise {e : ε} (holds : onFail e) : Ensures (Draw.raise e : Draw ε α) q onFail :=
  ⟨fun _ => holds⟩

theorem starve : Ensures (Draw.starve : Draw ε α) q onFail := ⟨fun _ => trivial⟩

theorem choose {count : ℕ} {next : ℕ → Draw ε α} (positive : 0 < count)
    (holds : ∀ outcome < count, Ensures (next outcome) q onFail) :
    Ensures (Draw.choose count next) q onFail := by
  refine ⟨fun tape => ?_⟩
  cases tape with
  | nil => trivial
  | cons outcome rest => exact (holds _ (Nat.mod_lt _ positive)).result rest

theorem of_choose {count outcome : ℕ} {next : ℕ → Draw ε α}
    (spec : Ensures (Draw.choose count next) q onFail) (bound : outcome < count) :
    Ensures (next outcome) q onFail := by
  refine ⟨fun tape => ?_⟩
  have result := spec.result (outcome :: tape)
  rwa [run, Nat.mod_eq_of_lt bound] at result

theorem draw {count : ℕ} {q : ℕ → Prop} (positive : 0 < count)
    (holds : ∀ outcome < count, q outcome) : Ensures (Draw.draw count : Draw ε ℕ) q onFail :=
  choose positive fun outcome bound => pure (holds outcome bound)

theorem lift {x : Except ε α} (ok : ∀ a, x = .ok a → q a) (error : ∀ e, x = .error e → onFail e) :
    Ensures (liftM x : Draw ε α) q onFail := by
  cases x with
  | ok a => exact pure (ok a rfl)
  | error e => exact raise (error e rfl)

theorem lift_ok {x : Except ε α} {a : α} (ok : x = .ok a) (holds : q a) :
    Ensures (liftM x : Draw ε α) q onFail :=
  lift (fun b same => by cases ok.symm.trans same; exact holds)
    (fun e same => by cases ok.symm.trans same)

theorem and {x : Draw ε α} {r : α → Prop} {onFail' : ε → Prop} (left : Ensures x q onFail)
    (right : Ensures x r onFail') :
    Ensures x (fun a => q a ∧ r a) (fun e => onFail e ∧ onFail' e) := by
  refine ⟨fun tape => ?_⟩
  have first := left.result tape
  have second := right.result tape
  cases ran : x.run tape with
  | done a rest => rw [ran] at first second; exact ⟨first, second⟩
  | failed e => rw [ran] at first second; exact ⟨first, second⟩
  | starved => trivial

/-- The invariant is about the part of the list that was already visited. -/
theorem foldlM {γ : Type} {act : α → γ → Draw ε α} {I : List γ → α → Prop} {turns : List γ} {a : α} (start : I [] a)
    (step : ∀ visited c, c ∈ turns → ∀ a, I visited a → Ensures (act a c) (I (visited ++ [c])) onFail) :
    Ensures (turns.foldlM act a) (I turns) onFail := by
  suffices general : ∀ rest visited a, visited ++ rest = turns → I visited a →
      Ensures (rest.foldlM act a) (I (visited ++ rest)) onFail from general turns [] a rfl start
  intro rest
  induction rest with
  | nil =>
    intro visited a _ holds
    rw [List.append_nil]
    exact pure holds
  | cons c rest ih =>
    intro visited a whole holds
    rw [List.foldlM_cons]
    have member : c ∈ turns := whole ▸ List.mem_append_right _ (List.mem_cons_self ..)
    refine (step visited c member a holds).bind fun a' holds' => ?_
    have rest' := ih (visited ++ [c]) a' (by rw [List.append_assoc]; exact whole) holds'
    rwa [List.append_assoc] at rest'

/-- The returned value is one the program returns on some tape. -/
theorem reached {x : Draw ε α} (spec : Ensures x q onFail) :
    Ensures x (fun a => q a ∧ ∃ tape rest, x.run tape = .done a rest) onFail := by
  refine ⟨fun tape => ?_⟩
  have result := spec.result tape
  cases ran : x.run tape with
  | done a rest => rw [ran] at result; exact ⟨result, tape, rest, ran⟩
  | failed e => rw [ran] at result; exact result
  | starved => trivial

/-- A partial specification only has to be checked at returned values. -/
theorem of_forall_done {x : Draw ε α}
    (spec : ∀ tape a rest, x.run tape = .done a rest → q a) : Yields x q := by
  refine ⟨fun tape => ?_⟩
  cases ran : x.run tape with
  | done a rest => exact spec tape a rest ran
  | failed e => trivial
  | starved => trivial

end Ensures

end Draw
