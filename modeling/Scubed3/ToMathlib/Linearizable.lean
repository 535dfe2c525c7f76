import Scubed3.ToMathlib.Interleaving
import Mathlib.Logic.Function.Basic

/-! # Linearizable objects

Threads call operations of an object that they share. In an atomic object every operation takes effect at one moment between
the call and the answer; operations that change nothing may do so at the same moment. An operation can have parts, each of
which has an effect of its own. A system of threads is linearizable if what is seen of it from outside is always what an
atomic object does.
-/

namespace AtomicObject

/-- What is seen from outside. -/
inductive Event (ι o r : Type) where
  | call (thread : ι) (op : o)
  | answer (thread : ι) (result : r)

/-- How far the operation of a thread is. -/
inductive Progress (o r : Type) where
  | idle
  | pending (op : o)
  | done (result : r)

end AtomicObject

/-- What operations do to the contents `α`, and what they answer. -/
structure AtomicObject (α o r : Type) where
  start : α
  effect : o → α → r → α → Prop
  /-- A part of an operation that is not atomic. -/
  part : o → α → α → Prop

/-- The contents, and the threads. -/
structure AtomicObject.State (ι α o r : Type) where
  contents : α
  progress : ι → AtomicObject.Progress o r

namespace AtomicObject

variable {ι α o r : Type} (object : AtomicObject α o r)

/-- A thread looks at the contents, or it does not. -/
def Reads (a : α) (before after : Progress o r) : Prop :=
  after = before ∨ ∃ op result, before = .pending op ∧ after = .done result ∧ object.effect op a result a

variable [DecidableEq ι]

inductive Step : State ι α o r → Option (Event ι o r) → State ι α o r → Prop
  | call {a : α} {progress : ι → Progress o r} {t : ι} {op : o} (idle : progress t = .idle) :
      Step ⟨a, progress⟩ (some (.call t op)) ⟨a, Function.update progress t (.pending op)⟩
  | effect {a a' : α} {progress : ι → Progress o r} {t : ι} {op : o} {result : r} (pending : progress t = .pending op)
      (takes : object.effect op a result a') :
      Step ⟨a, progress⟩ none ⟨a', Function.update progress t (.done result)⟩
  | part {a a' : α} {progress : ι → Progress o r} {t : ι} {op : o} (pending : progress t = .pending op)
      (takes : object.part op a a') : Step ⟨a, progress⟩ none ⟨a', progress⟩
  /-- Some threads look at the contents at the same moment. -/
  | reads {a : α} {progress progress' : ι → Progress o r}
      (legal : ∀ t, Reads object a (progress t) (progress' t)) : Step ⟨a, progress⟩ none ⟨a, progress'⟩
  | answer {a : α} {progress : ι → Progress o r} {t : ι} {result : r} (done : progress t = .done result) :
      Step ⟨a, progress⟩ (some (.answer t result)) ⟨a, Function.update progress t .idle⟩

/-- Some steps, with what is seen of them, the newest first. -/
inductive Steps : State ι α o r → List (Event ι o r) → State ι α o r → Prop
  | refl {s : State ι α o r} : Steps s [] s
  | tail {s s' s'' : State ι α o r} {events : List (Event ι o r)} {event : Option (Event ι o r)} (before : Steps s events s')
      (step : Step object s' event s'') : Steps s (event.toList ++ events) s''

variable {object} {s s' s'' : State ι α o r} {events events' : List (Event ι o r)}

theorem Steps.trans (before : Steps object s events s') (after : Steps object s' events' s'') :
    Steps object s (events' ++ events) s'' := by
  induction after with
  | refl => exact before
  | tail _ step ih =>
    rw [List.append_assoc]
    exact .tail ih step

theorem Step.steps {event : Option (Event ι o r)} (step : Step object s event s') : Steps object s event.toList s' := by
  have steps := Steps.tail .refl step
  rwa [List.append_nil] at steps

/-! ## One thread -/

/-- What a thread does that leaves the contents as they are. -/
inductive Moves (object : AtomicObject α o r) (a : α) : Progress o r → Option r → Progress o r → Prop
  | stay {progress : Progress o r} : Moves object a progress none progress
  | read {op : o} {result : r} (takes : object.effect op a result a) : Moves object a (.pending op) none (.done result)
  | answer {result : r} : Moves object a (.done result) (some result) .idle
  /-- The operation takes effect with its answer. -/
  | finish {op : o} {result : r} (takes : object.effect op a result a) : Moves object a (.pending op) (some result) .idle

theorem Moves.steps {a : α} {progress : ι → Progress o r} {t : ι} {result : Option r} {p : Progress o r}
    (moves : Moves object a (progress t) result p) :
    Steps object ⟨a, progress⟩ (result.map (.answer t)).toList ⟨a, Function.update progress t p⟩ := by
  generalize here : progress t = before at moves
  cases moves with
  | stay =>
    rw [← here, Function.update_eq_self]
    exact .refl
  | read takes => exact (Step.effect here takes).steps
  | answer => exact (Step.answer here).steps
  | @finish op result takes =>
    rw [← Function.update_idem (.done result) .idle progress]
    exact (Step.effect here takes).steps.trans (Step.answer (Function.update_self ..)).steps

end AtomicObject

/-! ## Systems of threads -/

namespace StepSystem

open AtomicObject

variable {ι σ l ε α o r : Type} [DecidableEq ι] {sys : StepSystem σ l ε}

/-- A run, with what is seen of it, the newest first. -/
inductive Shows (sys : StepSystem σ l ε) (observe : σ → l → Option (Event ι o r)) : List (Event ι o r) → σ → Prop
  | start : Shows sys observe [] sys.start
  | step {s s' : σ} {label : l} {events : List (Event ι o r)} (before : Shows sys observe events s)
      (enabled : sys.enabled s label) (ran : sys.step s label = .ok s') :
      Shows sys observe ((observe s label).toList ++ events) s'

/-- What is seen of any run is what the object does, and then it has the contents of the state. -/
def Linearizable (sys : StepSystem σ l ε) (observe : σ → l → Option (Event ι o r)) (contents : σ → α)
    (object : AtomicObject α o r) : Prop :=
  ∀ events s, sys.Shows observe events s → ∃ progress, Steps object ⟨object.start, fun _ => .idle⟩ events ⟨contents s, progress⟩

variable {observe : σ → l → Option (Event ι o r)} {contents : σ → α} {object : AtomicObject α o r}

omit [DecidableEq ι] in
theorem Shows.reaches {events : List (Event ι o r)} {s : σ} (shows : sys.Shows observe events s) :
    sys.Reaches (fun _ _ => True) s := by
  induction shows with
  | start => exact .start
  | step _ enabled ran ih => exact .step ih enabled True.intro ran

/-- A system is linearizable if the object can follow every step from every state that is reached. -/
theorem Linearizable.of_simulation {fits : σ → (ι → Progress o r) → Prop} (start : contents sys.start = object.start)
    (idle : fits sys.start fun _ => .idle)
    (step : ∀ s s' label progress, sys.Reaches (fun _ _ => True) s → fits s progress → sys.enabled s label →
      sys.step s label = .ok s' → ∃ progress', fits s' progress' ∧
        Steps object ⟨contents s, progress⟩ (observe s label).toList ⟨contents s', progress'⟩) :
    sys.Linearizable observe contents object := by
  intro events s shows
  suffices simulated : ∃ progress, fits s progress ∧
      Steps object ⟨object.start, fun _ => .idle⟩ events ⟨contents s, progress⟩ by
    obtain ⟨progress, -, steps⟩ := simulated
    exact ⟨progress, steps⟩
  induction shows with
  | start => exact ⟨_, idle, start ▸ .refl⟩
  | @step s s' label events before enabled ran ih =>
    obtain ⟨progress, here, steps⟩ := ih
    obtain ⟨progress', there, further⟩ := step s s' label progress before.reaches here enabled ran
    exact ⟨progress', there, steps.trans further⟩

end StepSystem
