import RecedingHorizon.Check
import RecedingHorizon.Notice

/-!
A design fixes the weights, input bounds and horizon of one controller. It is derived from the
steady state of the process, so that every state and every input has unit cost at a deviation
equal to its nominal value. The terminal weight is taken as given and only checked.
-/

namespace RecedingHorizon

/-- Steady state and exogenous parameters of the controlled process. -/
structure OperatingPoint (α : Type) where
  state : List α
  input : List α
  parameters : List α
  deriving DecidableEq

structure Tuning (α : Type) where
  samplingPeriod : α
  /-- Use a model that is discrete in time already. -/
  linear : Bool
  /-- Number of shooting intervals. -/
  intervals : Nat
  /-- Length of the horizon in seconds. -/
  horizon : α
  /-- Lower input bound as a multiple of the steady-state input. -/
  lowerScale : α
  /-- Upper input bound as a multiple of the steady-state input, for every channel. -/
  upperScales : List α
  deriving DecidableEq

structure Design (α : Type) where
  lowerBounds : List α
  upperBounds : List α
  stateWeight : Matrix α
  inputWeight : Matrix α
  terminalWeight : Matrix α
  horizon : α
  intervals : Nat
  samplingPeriod : α
  linear : Bool
  deriving DecidableEq

namespace Tuning

variable {α : Type} [Scalar α]

def standard : Tuning α where
  samplingPeriod := 0.25
  linear := false
  intervals := 16
  horizon := 4.0
  lowerScale := 0.95
  upperScales := [1.05, 1.15]

def interval (tuning : Tuning α) : α := tuning.horizon / Scalar.ofNat tuning.intervals

/-- A warning if the loop is not sampled once per shooting interval. -/
def notices (tuning : Tuning α) : List (Notice α) :=
  let mismatch := Scalar.abs (tuning.interval - tuning.samplingPeriod)
  if 1e-9 * tuning.samplingPeriod < mismatch then
    [.intervalMismatch tuning.interval tuning.samplingPeriod]
  else []

end Tuning

namespace Design

variable {α : Type}

def states (design : Design α) : Nat := design.stateWeight.rows

def inputs (design : Design α) : Nat := design.inputWeight.rows

variable [Scalar α] [Spectral α]

def derive (state input : List α) (terminalWeight : Matrix α) (tuning : Tuning α) :
    Checked α (Design α) := do
  if tuning.intervals = 0 then .error (.notPositive "N" 0)
  checkPositive "Tf" tuning.horizon
  checkPositive "dt" tuning.samplingPeriod
  let stateWeight ← inverseSquares "xs" state
  let inputWeight ← inverseSquares "us" input
  checkWeight "P" state.length terminalWeight
  checkDimension "input_upper_scale" input.length tuning.upperScales.length
  checkFinite "input_lower_scale" (input.map fun _ => tuning.lowerScale)
  checkFinite "input_upper_scale" tuning.upperScales
  pure {
    lowerBounds := input.map fun u => tuning.lowerScale * u
    upperBounds := List.zipWith (fun scale u => scale * u) tuning.upperScales input
    stateWeight, inputWeight, terminalWeight
    horizon := tuning.horizon
    intervals := tuning.intervals
    samplingPeriod := tuning.samplingPeriod
    linear := tuning.linear }

/-- The derivation with its warning, which only a design that was derived brings. -/
def deriveReported (state input : List α) (terminalWeight : Matrix α) (tuning : Tuning α) :
    Reported α (ValidationError α) (Design α) := do
  let design ← Reported.silent (derive state input terminalWeight tuning)
  Reported.note tuning.notices
  pure design

@[simp] theorem result_deriveReported (state input : List α) (terminalWeight : Matrix α)
    (tuning : Tuning α) :
    (deriveReported state input terminalWeight tuning).result =
      derive state input terminalWeight tuning := by
  cases h : derive state input terminalWeight tuning <;> simp [deriveReported, h, Except.bind]

end Design

end RecedingHorizon
