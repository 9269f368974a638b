import RecedingHorizon.Error

/-!
What an operation tells its user besides its result. Notices are kept in order, and those made
before a failure are kept with it.
-/

namespace RecedingHorizon

inductive ExitStatus where
  /-- Converged, or completed its single real-time iteration. -/
  | converged
  | maxIterations
  | qpFailure
  | numericalFailure
  deriving DecidableEq, Repr

def ExitStatus.name : ExitStatus → String
  | .converged => "Converged"
  | .maxIterations => "MaxIterations"
  | .qpFailure => "QpFailure"
  | .numericalFailure => "NumericalFailure"

inductive Notice (α : Type) where
  | intervalMismatch (interval samplingPeriod : α)
  | crossedBounds (input : Nat) (lower upper : α)
  | built (model : String) (states inputs parameters intervals : Nat) (horizon : α)
  | compiled (model : String)
  | unconverged (cycle : Nat) (exit : ExitStatus)
  deriving DecidableEq, Repr

inductive Severity where
  | warning
  | information
  deriving DecidableEq, Repr

def Notice.severity {α : Type} : Notice α → Severity
  | .intervalMismatch _ _ | .crossedBounds _ _ _ | .unconverged _ _ => .warning
  | .built _ _ _ _ _ _ | .compiled _ => .information

def Notice.message : Notice Float → String
  | .intervalMismatch interval samplingPeriod =>
    "shooting interval Tf/N = " ++ Decimal.display interval
      ++ " differs from sampling period dt = " ++ Decimal.display samplingPeriod
  | .crossedBounds input lower upper =>
    s!"input {input} has lbu = " ++ Decimal.display lower
      ++ " above ubu = " ++ Decimal.display upper
  | .built model states inputs parameters intervals horizon =>
    s!"built OCP for `{model}`: nx = {states}, nu = {inputs}, np = {parameters}, "
      ++ s!"N = {intervals}, tf = " ++ Decimal.display horizon
  | .compiled model => s!"compiled solver for `{model}`"
  | .unconverged cycle exit => s!"cycle {cycle}: solver exited with " ++ exit.name

/-- A result and the notices made on the way to it. -/
structure Reported (α ε β : Type) where
  notices : List (Notice α)
  result : Except ε β

namespace Reported

variable {α ε β γ : Type}

def silent (result : Except ε β) : Reported α ε β := ⟨[], result⟩

def note (notices : List (Notice α)) : Reported α ε Unit := ⟨notices, .ok ()⟩

def mapError {ε' : Type} (f : ε → ε') (r : Reported α ε β) : Reported α ε' β :=
  ⟨r.notices, r.result.mapError f⟩

/-- Goes on with the value, unless there was none. -/
protected def bind (r : Reported α ε β) (f : β → Reported α ε γ) : Reported α ε γ :=
  match r.result with
  | .ok value => ⟨r.notices ++ (f value).notices, (f value).result⟩
  | .error e => ⟨r.notices, .error e⟩

instance : Monad (Reported α ε) where
  pure value := ⟨[], .ok value⟩
  bind := Reported.bind

@[simp] theorem result_silent (result : Except ε β) :
    (silent result : Reported α ε β).result = result := rfl

@[simp] theorem result_note (notices : List (Notice α)) :
    (note notices : Reported α ε Unit).result = .ok () := rfl

@[simp] theorem result_pure (value : β) :
    (pure value : Reported α ε β).result = .ok value := rfl

@[simp] theorem result_bind (r : Reported α ε β) (f : β → Reported α ε γ) :
    (r >>= f).result = r.result.bind fun value => (f value).result := by
  cases r with
  | mk notices result => cases result <;> rfl

@[simp] theorem result_mapError {ε' : Type} (f : ε → ε') (r : Reported α ε β) :
    (r.mapError f).result = r.result.mapError f := rfl

end Reported

end RecedingHorizon
