import Scubed3.ToMathlib.Except

/-! # Interleaved steps that can fail

Several threads share one state. Each label stands for an atomic step of one of them; some steps are only taken
in certain states, and a step that is taken can fail. A run is any sequence of steps. When steps of a run are
restricted by `allowed`, an invariant needs to be preserved by these only.
-/

/-- Threads that share a state. -/
structure StepSystem (σ l ε : Type) where
  start : σ
  /-- Some thread is about to do this. -/
  enabled : σ → l → Prop
  step : σ → l → Except ε σ

namespace StepSystem

variable {σ l ε : Type} {sys : StepSystem σ l ε} {allowed : σ → l → Prop} {inv : σ → Prop}

/-- The states that are reached with allowed steps. -/
inductive Reaches (sys : StepSystem σ l ε) (allowed : σ → l → Prop) : σ → Prop
  | start : Reaches sys allowed sys.start
  | step {s s' : σ} {label : l} (before : Reaches sys allowed s) (enabled : sys.enabled s label)
      (good : allowed s label) (ran : sys.step s label = .ok s') : Reaches sys allowed s'

/-- What holds at the start and is kept by every allowed step holds in the states that are reached. -/
theorem Reaches.invariant {s : σ} (reaches : sys.Reaches allowed s) (start : inv sys.start)
    (step : ∀ s s' label, inv s → sys.enabled s label → allowed s label → sys.step s label = .ok s' → inv s') :
    inv s := by
  induction reaches with
  | start => exact start
  | step _ enabled good ran ih => exact step _ _ _ ih enabled good ran

theorem Reaches.mono {allowed' : σ → l → Prop} {s : σ} (reaches : sys.Reaches allowed s)
    (weaker : ∀ s label, allowed s label → allowed' s label) : sys.Reaches allowed' s := by
  induction reaches with
  | start => exact .start
  | step _ enabled good ran ih => exact .step ih enabled (weaker _ _ good) ran

/-- Take these steps, as long as a test holds that says that they can be taken. -/
def attempt (sys : StepSystem σ l ε) (test : σ → l → Bool) : σ → List l → Option σ
  | s, [] => some s
  | s, label :: rest =>
    if test s label then
      match sys.step s label with
      | .ok s' => sys.attempt test s' rest
      | .error _ => none
    else none

/-- A sequence of steps that can be computed reaches a state. -/
theorem Reaches.of_attempt {test : σ → l → Bool} {s s' : σ} {labels : List l} (reaches : sys.Reaches allowed s)
    (sound : ∀ s label, test s label = true → sys.enabled s label ∧ allowed s label)
    (ran : sys.attempt test s labels = some s') : sys.Reaches allowed s' := by
  induction labels generalizing s with
  | nil =>
    cases ran
    exact reaches
  | cons label rest ih =>
    rw [attempt] at ran
    split at ran
    · next good =>
      split at ran
      · next next stepped => exact ih (.step reaches (sound s label good).1 (sound s label good).2 stepped) ran
      · cases ran
    · cases ran

/-- The allowed steps keep the invariant and do not fail. -/
structure Preserves (sys : StepSystem σ l ε) (allowed : σ → l → Prop) (inv : σ → Prop) : Prop where
  start : inv sys.start
  step : ∀ s label, inv s → sys.enabled s label → allowed s label → (sys.step s label).Returns inv

theorem Preserves.invariant (preserves : sys.Preserves allowed inv) {s : σ} (reaches : sys.Reaches allowed s) :
    inv s :=
  reaches.invariant preserves.start fun s s' label holds enabled good ran =>
    (preserves.step s label holds enabled good).value s' ran

/-- No allowed step fails in a reachable state. -/
theorem Preserves.returns (preserves : sys.Preserves allowed inv) {s : σ} {label : l}
    (reaches : sys.Reaches allowed s) (enabled : sys.enabled s label) (good : allowed s label) :
    ∃ s', sys.step s label = .ok s' := by
  obtain ⟨s', ran, -⟩ := (preserves.step s label (preserves.invariant reaches) enabled good).exists_ok
  exact ⟨s', ran⟩

end StepSystem
