import RecedingHorizon.Problem.Validate

/-!
Assembly of a problem from a plant, a design, an operating point and a setup. The residuals are
all states and all inputs, weighted by the two weights of the design side by side, with zero
targets. Set-points enter through a profile only, which shifts both cost maps.
-/

namespace RecedingHorizon.Problem

variable {α : Type}

section Scalars

variable [Scalar α]

/-- Plant, design and operating point agree in their dimensions. -/
def checkIngredients (plant : Plant) (design : Design α) (point : OperatingPoint α) :
    Checked α Unit := do
  checkLength "xs" plant.states point.state
  checkLength "us" plant.inputs point.input
  checkFinite "xs" point.state
  checkLength "parameters" plant.parameters point.parameters
  checkFinite "parameters" point.parameters
  checkDimension "Q" plant.states design.states
  checkDimension "R" plant.inputs design.inputs
  checkDimension "P" plant.states design.terminalWeight.rows
  checkLength "umin" plant.inputs design.lowerBounds
  checkLength "umax" plant.inputs design.upperBounds

/-- The cost maps and runtime parameters, recentred around the profile if there is one. -/
def recentre (plant : Plant) (point : OperatingPoint α) (profile : Option (Profile α)) :
    Checked α (CostMap × CostMap × List α × Option (Binding α)) :=
  match profile with
  | some profile => do
    let r ← profile.recentre plant.states plant.inputs point.parameters
    pure (r.stage, r.terminal, r.parameters, some r.binding)
  | none =>
    pure (.stage plant.states plant.inputs, .terminal plant.states, point.parameters, none)

def assemble (plant : Plant) (design : Design α) (point : OperatingPoint α)
    (options : SolverOptions α) (stageMap terminalMap : CostMap) (parameters : List α)
    (reference : Option (Binding α)) : Problem α where
  model := plant.name
  dimensions := {
    states := plant.states
    inputs := plant.inputs
    parameters := parameters.length
    stageResiduals := stageMap.length
    terminalResiduals := terminalMap.length
    boundedInputs := plant.inputs
    intervals := design.intervals }
  cost := {
    stageKind := .nonlinearLeastSquares
    terminalKind := .nonlinearLeastSquares
    stageMap
    terminalMap
    stageWeight := .blockDiagonal design.stateWeight design.inputWeight
    terminalWeight := design.terminalWeight
    stageTarget := List.replicate stageMap.length 0
    terminalTarget := List.replicate terminalMap.length 0 }
  constraints := {
    lowerBounds := design.lowerBounds
    upperBounds := design.upperBounds
    boundedInputs := List.range plant.inputs
    initialState := some point.state }
  parameters
  reference
  options

/-- The problem before its last validation. -/
def draft (plant : Plant) (design : Design α) (point : OperatingPoint α) (setup : Setup α) :
    Except (ProblemError α) (Problem α) := do
  (checkIngredients plant design point).mapError .validation
  let options ← (configure plant design setup).mapError .configuration
  let (stage, terminal, parameters, reference) ←
    (recentre plant point setup.profile).mapError .validation
  pure (assemble plant design point options stage terminal parameters reference)

/-- A warning for every input whose lower bound is above its upper bound. -/
def boundNotices (p : Problem α) : List (Notice α) :=
  (p.constraints.lowerBounds.zip p.constraints.upperBounds).zipIdx.filterMap
    fun ((lower, upper), input) =>
      if upper < lower then some (.crossedBounds input lower upper) else none

def builtNotice (p : Problem α) : Notice α :=
  .built p.model p.dimensions.states p.dimensions.inputs p.dimensions.parameters
    p.dimensions.intervals p.options.horizon

end Scalars

variable [Scalar α] [Spectral α]

def build (plant : Plant) (design : Design α) (point : OperatingPoint α) (setup : Setup α) :
    Except (ProblemError α) (Problem α) := do
  let p ← draft plant design point setup
  p.validate.mapError .validation
  pure p

/-- Building with its notices: crossed bounds are reported before the last validation, success
after it. -/
def buildReported (plant : Plant) (design : Design α) (point : OperatingPoint α)
    (setup : Setup α) : Reported α (ProblemError α) (Problem α) := do
  let p ← .silent (draft plant design point setup)
  .note p.boundNotices
  .silent (p.validate.mapError .validation)
  .note [p.builtNotice]
  pure p

@[simp] theorem result_buildReported (plant : Plant) (design : Design α)
    (point : OperatingPoint α) (setup : Setup α) :
    (buildReported plant design point setup).result = build plant design point setup := by
  simp only [buildReported, build, Reported.result_bind, Reported.result_silent,
    Reported.result_note, Reported.result_pure]
  rfl

end RecedingHorizon.Problem
