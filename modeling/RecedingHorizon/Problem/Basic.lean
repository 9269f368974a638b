import RecedingHorizon.Options

/-!
A complete optimal control problem over a finite horizon,

    minimise    Σ 1/2 ‖y (x k) (u k) p - yref‖² + 1/2 ‖yₑ (x N) p - yrefₑ‖²
    subject to  x 0 = x0,  x (k + 1) = F (x k) (u k) p,  lbu ≤ u k ≤ ubu,

with the first norm weighted by `w` and the second by `wₑ`.
-/

namespace RecedingHorizon

structure Dimensions where
  states : Nat
  inputs : Nat
  /-- Runtime parameters, a reference selector included. -/
  parameters : Nat
  stageResiduals : Nat
  terminalResiduals : Nat
  boundedInputs : Nat
  /-- Number of shooting intervals. -/
  intervals : Nat
  deriving DecidableEq, Repr

structure Cost (α : Type) where
  stageKind : CostKind
  terminalKind : CostKind
  stageMap : CostMap
  terminalMap : CostMap
  stageWeight : Matrix α
  terminalWeight : Matrix α
  stageTarget : List α
  terminalTarget : List α
  deriving DecidableEq

structure Constraints (α : Type) where
  lowerBounds : List α
  upperBounds : List α
  /-- The inputs that the bounds apply to. -/
  boundedInputs : List Nat
  /-- The initial state, which is overwritten before every solve. -/
  initialState : Option (List α)
  deriving DecidableEq

structure Problem (α : Type) where
  model : String
  dimensions : Dimensions
  cost : Cost α
  constraints : Constraints α
  /-- Nominal values of the runtime parameters. -/
  parameters : List α
  reference : Option (Binding α)
  options : SolverOptions α
  deriving DecidableEq

end RecedingHorizon
