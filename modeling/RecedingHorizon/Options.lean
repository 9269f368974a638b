import RecedingHorizon.Design
import RecedingHorizon.Reference

/-!
The controlled process, as far as it matters here, which is its dimensions and the forms in which its
dynamics are available; the options of a solver for it, and how they follow from a design and a
setup. A linear design steps the discrete-time model as it is; any other is integrated by an implicit
Runge-Kutta scheme. The quadratic program is condensed over the whole horizon.
-/

namespace RecedingHorizon

structure Plant where
  name : String
  states : Nat
  inputs : Nat
  /-- Exogenous parameters that the dynamics depend on. -/
  parameters : Nat
  /-- The right-hand side of `dx/dt = f x u p` is available. -/
  continuous : Bool := true
  /-- A discrete-time map `x⁺ = f x u p` is available. -/
  discrete : Bool := false
  deriving DecidableEq, Repr

/-- How the dynamics are carried over one shooting interval. -/
inductive Integrator where
  /-- The model is a discrete-time map already. -/
  | discrete
  | implicitRungeKutta (stages steps : Nat)
  deriving DecidableEq, Repr

def Integrator.name : Integrator → String
  | .discrete => "DISCRETE"
  | .implicitRungeKutta _ _ => "IRK"

/-- Solver of the quadratic program in each iteration. The choice affects speed only. -/
inductive QpSolver where
  | partialCondensingHpipm
  | fullCondensingHpipm
  | fullCondensingQpoases
  | partialCondensingQpdunes
  | partialCondensingOsqp
  deriving DecidableEq, Repr

def QpSolver.isPartialCondensing : QpSolver → Bool
  | .partialCondensingHpipm | .partialCondensingQpdunes | .partialCondensingOsqp => true
  | .fullCondensingHpipm | .fullCondensingQpoases => false

inductive HessianApproximation where
  | gaussNewton
  | exact
  deriving DecidableEq, Repr

inductive NlpSolver where
  /-- Sequential quadratic programming, iterated until it converges. -/
  | sqp
  /-- One iteration for every call. -/
  | sqpRealTime
  deriving DecidableEq, Repr

/-- Where in a shooting interval the stage cost is taken. -/
inductive CostDiscretization where
  /-- Once, at the start. -/
  | euler
  /-- Integrated along with the dynamics. -/
  | integrator
  deriving DecidableEq, Repr

inductive CostKind where
  | nonlinearLeastSquares
  deriving DecidableEq, Repr

structure SolverOptions (α : Type) where
  /-- Number of shooting intervals. -/
  intervals : Nat
  /-- Length of the horizon in seconds. -/
  horizon : α
  integrator : Integrator
  qpSolver : QpSolver
  /-- Intervals of the partially condensed quadratic program. -/
  condensedIntervals : Nat
  hessian : HessianApproximation
  levenbergMarquardt : α
  nlpSolver : NlpSolver
  maxIterations : Nat
  tolerance : α
  costDiscretization : CostDiscretization
  deriving DecidableEq

/-- Choices that are made when a problem is assembled. -/
structure Setup (α : Type) where
  /-- Take a single iteration per solve. -/
  realTime : Bool
  /-- Recentre the cost around this profile. -/
  profile : Option (Profile α)
  costIntegration : Bool
  qpSolver : QpSolver
  levenbergMarquardt : α
  maxIterations : Nat
  tolerance : α
  deriving DecidableEq

def Setup.standard {α : Type} [Scalar α] : Setup α where
  realTime := false
  profile := none
  costIntegration := false
  qpSolver := .partialCondensingHpipm
  levenbergMarquardt := 1e-5
  maxIterations := 100
  tolerance := 1e-6

/-- Collocation stages of the implicit integrator. -/
def collocationStages : Nat := 4

/-- Integration steps in a shooting interval. -/
def integrationSteps : Nat := 1

variable {α : Type} [Scalar α]

/-- The integrator for a plant, if the plant has the form of dynamics it needs. -/
def chooseIntegrator (plant : Plant) (linear costIntegration : Bool) :
    Except (ConfigurationError α) Integrator :=
  if linear then
    if costIntegration then .error .discreteCostIntegration
    else if plant.discrete then .ok .discrete
    else .error (.missingDiscreteDynamics plant.name)
  else if plant.continuous then .ok (.implicitRungeKutta collocationStages integrationSteps)
  else .error (.missingContinuousDynamics plant.name)

def configure (plant : Plant) (design : Design α) (setup : Setup α) :
    Except (ConfigurationError α) (SolverOptions α) := do
  let integrator ← chooseIntegrator plant design.linear setup.costIntegration
  let damping := setup.levenbergMarquardt
  if Scalar.isFinite damping = false ∨ damping < 0 then .error (.regularization damping)
  if setup.maxIterations = 0 then .error .iterationLimit
  if Scalar.isFinite setup.tolerance = false ∨ setup.tolerance ≤ 0 then
    .error (.tolerance setup.tolerance)
  pure {
    intervals := design.intervals
    horizon := design.horizon
    integrator
    qpSolver := setup.qpSolver
    condensedIntervals := design.intervals
    hessian := .gaussNewton
    levenbergMarquardt := damping
    nlpSolver := if setup.realTime then .sqpRealTime else .sqp
    maxIterations := setup.maxIterations
    tolerance := setup.tolerance
    costDiscretization := if setup.costIntegration then .integrator else .euler }

end RecedingHorizon
