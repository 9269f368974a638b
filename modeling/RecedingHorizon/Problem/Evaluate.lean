import RecedingHorizon.Problem.Basic

/-!
Residuals and costs of a problem at a point. They can be asked of any problem, valid or not; one
whose parts do not fit each other answers with the first misfit that is met.
-/

namespace RecedingHorizon.Problem

variable {α : Type} [Scalar α]

/-- The target that is active under the given runtime parameters, if a profile is bound. -/
def activeTarget (p : Problem α) (parameters : List α) : Checked α (Option (List α)) :=
  match p.reference with
  | some binding => do
    let target ← binding.target parameters
    pure (some target)
  | none => pure none

/-- The value of a cost map less the target that is kept with the cost. -/
def residual (p : Problem α) (field : String) (map : CostMap) (fixedTarget : List α)
    (x : List α) (u : Option (List α)) (parameters : List α) : Checked α (List α) := do
  let target ← p.activeTarget parameters
  let y ← map.evaluate x u target
  checkLength field y.length fixedTarget
  defined "difference of two vectors" (sub? y fixedTarget)

def stageResidual (p : Problem α) (x u parameters : List α) : Checked α (List α) := do
  checkLength "x" p.dimensions.states x
  checkLength "u" p.dimensions.inputs u
  checkLength "p" p.dimensions.parameters parameters
  p.residual "yref" p.cost.stageMap p.cost.stageTarget x (some u) parameters

def terminalResidual (p : Problem α) (x parameters : List α) : Checked α (List α) := do
  checkLength "x" p.dimensions.states x
  checkLength "p" p.dimensions.parameters parameters
  p.residual "yref_e" p.cost.terminalMap p.cost.terminalTarget x none parameters

/-- Half the quadratic form of a weight at a residual. -/
def halfQuadratic (field : String) (weight : Matrix α) (r : List α) : Checked α α := do
  checkDimension field r.length weight.rows
  checkDimension field r.length weight.cols
  let weighted ← defined "product of a matrix and a vector" (weight.mulVec? r)
  let product ← defined "product of two vectors" (dot? r weighted)
  pure (0.5 * product)

def stageCost (p : Problem α) (x u parameters : List α) : Checked α α := do
  let r ← p.stageResidual x u parameters
  halfQuadratic "W" p.cost.stageWeight r

def terminalCost (p : Problem α) (x parameters : List α) : Checked α α := do
  let r ← p.terminalResidual x parameters
  halfQuadratic "W_e" p.cost.terminalWeight r

end RecedingHorizon.Problem
