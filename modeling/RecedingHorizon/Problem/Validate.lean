import RecedingHorizon.Problem.Basic

/-!
A problem is valid if every block of it agrees with its dimensions. The checks run in a fixed
order, and the first one that fails gives the error.
-/

namespace RecedingHorizon

namespace CostMap

/-- Signals and target components that a residual may name. -/
def checkResidual {α : Type} (field : String) (states inputs targets : Nat) (r : Residual) :
    Checked α Unit := do
  let (index, length) := match r.signal with
    | .state index => (index, states)
    | .input index => (index, inputs)
  if length ≤ index then .error (.outOfRange field index length)
  match r.target with
  | some index => if targets ≤ index then .error (.outOfRange field index targets) else .ok ()
  | none => .ok ()

def check {α : Type} (field : String) (residuals states inputs : Nat) (m : CostMap) :
    Checked α Unit := do
  checkDimension field residuals m.length
  m.residuals.forM (checkResidual field states inputs (sizeSum states inputs))

end CostMap

namespace Problem

variable {α : Type}

def isShifted (p : Problem α) : Bool := p.cost.stageMap.isShifted || p.cost.terminalMap.isShifted

section Scalars

variable [Scalar α]

/-- The horizon is positive, and the condensed one fits into it. -/
def checkHorizon (p : Problem α) : Checked α Unit := do
  let intervals := p.dimensions.intervals
  if intervals = 0 ∨ p.options.intervals = 0 then .error (.notPositive "N" 0)
  checkDimension "n_horizon" intervals p.options.intervals
  checkPositive "tf" p.options.horizon
  let condensed := p.options.condensedIntervals
  if p.options.qpSolver.isPartialCondensing = true ∧ ¬ (1 ≤ condensed ∧ condensed ≤ intervals) then
    .error (.outOfRange "qp_solver_cond_n" condensed (sizeSum intervals 1))

def checkConstraints (p : Problem α) : Checked α Unit := do
  let d := p.dimensions
  let c := p.constraints
  checkLength "lbu" d.boundedInputs c.lowerBounds
  checkLength "ubu" d.boundedInputs c.upperBounds
  checkFinite "lbu" c.lowerBounds
  checkFinite "ubu" c.upperBounds
  checkDimension "idxbu" d.boundedInputs c.boundedInputs.length
  match c.boundedInputs.find? fun index => d.inputs ≤ index with
  | some index => .error (.outOfRange "idxbu" index d.inputs)
  | none => .ok ()
  match c.initialState with
  | some x0 => checkLength "x0" d.states x0
  | none => .error .missingInitialState

/-- A bound profile fits the problem; without one no cost map is shifted. -/
def checkReference (p : Problem α) : Checked α Unit := do
  let d := p.dimensions
  checkLength "parameter_values" d.parameters p.parameters
  match p.reference with
  | some binding => do
    if d.parameters ≤ binding.selector then
      .error (.outOfRange "reference selector" binding.selector d.parameters)
    binding.profile.check (sizeSum d.states d.inputs)
  | none => if p.isShifted then .error .noReference else .ok ()

end Scalars

variable [Scalar α] [Spectral α]

/-- The terminal cost depends on no input. -/
def checkCost (p : Problem α) : Checked α Unit := do
  let d := p.dimensions
  let c := p.cost
  c.stageMap.check "y_expr" d.stageResiduals d.states d.inputs
  c.terminalMap.check "y_expr_e" d.terminalResiduals d.states 0
  checkWeight "W" d.stageResiduals c.stageWeight
  checkWeight "W_e" d.terminalResiduals c.terminalWeight
  checkLength "yref" d.stageResiduals c.stageTarget
  checkLength "yref_e" d.terminalResiduals c.terminalTarget

def validate (p : Problem α) : Checked α Unit := do
  p.checkHorizon
  p.checkCost
  p.checkConstraints
  p.checkReference

end Problem

end RecedingHorizon
