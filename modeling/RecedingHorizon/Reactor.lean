import RecedingHorizon.Problem.Build

/-!
A continuous stirred-tank reactor, the standard example of a process for this kind of control.
Its states are the outlet concentration `c`, the temperature `T` and the liquid level `h`; its
inputs are the coolant temperature `Tc` and the outlet flow `F`. The inlet flow `F0` is a runtime
parameter.
-/

namespace RecedingHorizon.Reactor

def stateNames : List String := ["c", "T", "h"]

def inputNames : List String := ["Tc", "F"]

def parameterNames : List String := ["F0"]

/-- Nonlinear dynamics in continuous time. -/
def nonlinear : Plant where
  name := "cstr"
  states := stateNames.length
  inputs := inputNames.length
  parameters := parameterNames.length

/-- Dynamics in discrete time, linearized about the steady state. -/
def linearized : Plant :=
  { nonlinear with name := "cstr_linearized", continuous := false, discrete := true }

section Scalars

variable {α : Type} [Scalar α]

/-- Nominal inlet flow. -/
def inletFlow : α := 0.1

/-- The steady state at the nominal inlet flow. -/
def nominal : OperatingPoint α where
  state := [0.878, 324.5, 0.659]
  input := [300.0, 0.1]
  parameters := [inletFlow]

/-- Weight of an infinite-horizon regulator for the linearized reactor at its steady state. -/
def terminalWeight : Matrix α where
  rows := 3
  cols := 3
  entries := [
    5.92981953e-01, -8.40033347e-04, -1.54536980e-02,
    -8.40033347e-04, 7.75225208e-06, 2.30677411e-05,
    -1.54536980e-02, 2.30677411e-05, 2.59450075]
  length_entries := rfl

end Scalars

/-- The problem about the nominal steady state, with the notices of its design and its building. -/
def problem {α : Type} [Scalar α] [Spectral α] (plant : Plant) (tuning : Tuning α) (setup : Setup α) :
    Reported α (ProblemError α) (Problem α) := do
  let point := nominal
  let design ← (Design.deriveReported point.state point.input terminalWeight tuning).mapError
    .validation
  Problem.buildReported plant design point setup

end RecedingHorizon.Reactor
