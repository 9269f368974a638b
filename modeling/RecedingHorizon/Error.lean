import RecedingHorizon.Decimal

/-!
What can be wrong with a control problem, by cause. The wording of every cause is in one function
per type, and numbers in it are written with the fewest digits that read back.
-/

namespace RecedingHorizon

/-- Problem data that fails a dimension, sign or shape check. -/
inductive ValidationError (α : Type) where
  | dimension (field : String) (expected actual : Nat)
  | zeroEntry (field : String) (index : Nat)
  | notFinite (field : String) (index : Nat)
  | notFiniteEntry (field : String) (row col : Nat)
  | notPositive (field : String) (value : α)
  | notSymmetric (field : String)
  | notPositiveSemidefinite (field : String) (eigenvalue : α)
  | emptyProfile
  | noReference
  | missingInitialState
  | outOfRange (field : String) (index length : Nat)
  /-- An operation met operands outside its domain. -/
  | undefined (operation : String)
  deriving DecidableEq, Repr

/-- Solver options that do not go together, or that no solver can take. -/
inductive ConfigurationError (α : Type) where
  | discreteCostIntegration
  | missingDiscreteDynamics (model : String)
  | missingContinuousDynamics (model : String)
  | regularization (value : α)
  | iterationLimit
  | tolerance (value : α)
  deriving DecidableEq, Repr

/-- Why a compilation or a solve failed: the data given to it, or the engine itself. -/
inductive Cause (α : Type) where
  | validation (error : ValidationError α)
  | engine (text : String)
  deriving DecidableEq, Repr

/-- What can go wrong while a problem is built, filed, compiled or solved. -/
inductive ProblemError (α : Type) where
  | validation (error : ValidationError α)
  | configuration (error : ConfigurationError α)
  | compilation (model : String) (cause : Cause α)
  | solver (cause : Cause α)
  /-- The file cannot be opened or written. -/
  | file
  /-- The file does not hold a problem. -/
  | format
  deriving DecidableEq, Repr

inductive ErrorKind where
  | validation
  | configuration
  | compilation
  | solver
  | file
  deriving DecidableEq, Repr

def ProblemError.kind {α : Type} : ProblemError α → ErrorKind
  | .validation _ => .validation
  | .configuration _ => .configuration
  | .compilation _ _ => .compilation
  | .solver _ => .solver
  | .file | .format => .file

def ValidationError.message : ValidationError Float → String
  | .dimension field expected actual => s!"{field}: expected dimension {expected}, got {actual}"
  | .zeroEntry field index => s!"{field}[{index}] is zero and cannot be used for normalization"
  | .notFinite field index => s!"{field}[{index}] is not finite"
  | .notFiniteEntry field row col => s!"{field}[({row}, {col})] is not finite"
  | .notPositive field value => field ++ " must be positive, got " ++ Decimal.display value
  | .notSymmetric field => s!"{field} must be symmetric"
  | .notPositiveSemidefinite field eigenvalue =>
    field ++ " must be positive semi-definite (smallest eigenvalue "
      ++ Decimal.display eigenvalue ++ ")"
  | .emptyProfile => "reference profile has no segments"
  | .noReference => "no reference profile is bound to this problem"
  | .missingInitialState => "initial state constraint x0 is missing"
  | .outOfRange field index length => s!"{field}: index {index} out of range 0..{length}"
  | .undefined operation => s!"{operation} is not defined for its operands"

def ConfigurationError.message : ConfigurationError Float → String
  | .discreteCostIntegration =>
    "cost integration needs an integrator, but linear MPC uses discrete dynamics"
  | .missingDiscreteDynamics model =>
    s!"model `{model}` has no discrete-time dynamics for linear MPC"
  | .missingContinuousDynamics model =>
    s!"model `{model}` has no continuous-time dynamics to integrate"
  | .regularization value =>
    "levenberg_marquardt must be finite and non-negative, got " ++ Decimal.display value
  | .iterationLimit => "nlp_max_iter must be positive"
  | .tolerance value => "tol must be finite and positive, got " ++ Decimal.display value

def Cause.message : Cause Float → String
  | .validation error => error.message
  | .engine text => text

def ProblemError.message : ProblemError Float → String
  | .validation error => "invalid problem data: " ++ error.message
  | .configuration error => "inconsistent solver options: " ++ error.message
  | .compilation model _ => s!"failed to compile solver for model `{model}`"
  | .solver _ => "solver failed"
  | .file => "descriptor file i/o"
  | .format => "descriptor file format"

end RecedingHorizon
