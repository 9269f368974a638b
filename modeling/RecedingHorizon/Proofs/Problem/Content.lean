import Mathlib
import RecedingHorizon.Json.Numeral
import RecedingHorizon.Problem.Validate

/-!
The numbers that a problem holds: all its scalars, and all its sizes, which are the dimensions,
indices, counts and lengths that its file names. A problem is finite if its scalars are, and its
sizes are words of the machine.
-/

namespace RecedingHorizon

variable {α : Type}

/-- What is optional has its elements only if it is there. -/
theorem forall_mem_getD {β : Type} {o : Option (List β)} {P : β → Prop} :
    (∀ x ∈ o.getD [], P x) ↔ ∀ xs ∈ o, ∀ x ∈ xs, P x := by
  cases o <;> simp

def Signal.index : Signal → Nat
  | .state index => index
  | .input index => index

def Residual.sizes (r : Residual) : List Nat := r.signal.index :: r.target.toList

def CostMap.sizes (m : CostMap) : List Nat := m.residuals.flatMap Residual.sizes

def Profile.scalars (p : Profile α) : List α := p.segments.flatten

def Profile.sizes (p : Profile α) : List Nat := p.segments.map List.length

def Binding.sizes (b : Binding α) : List Nat := b.selector :: b.profile.sizes

def Integrator.sizes : Integrator → List Nat
  | .discrete => []
  | .implicitRungeKutta stages steps => [stages, steps]

namespace SolverOptions

def scalars (o : SolverOptions α) : List α := [o.horizon, o.levenbergMarquardt, o.tolerance]

def sizes (o : SolverOptions α) : List Nat :=
  [o.intervals, o.condensedIntervals, o.maxIterations] ++ o.integrator.sizes

end SolverOptions

def Dimensions.sizes (d : Dimensions) : List Nat :=
  [d.states, d.inputs, d.parameters, d.stageResiduals, d.terminalResiduals, d.boundedInputs,
    d.intervals]

namespace Cost

def scalars (c : Cost α) : List α :=
  c.stageWeight.entries ++ c.terminalWeight.entries ++ c.stageTarget ++ c.terminalTarget

def sizes (c : Cost α) : List Nat :=
  c.stageMap.sizes ++ c.terminalMap.sizes
    ++ [c.stageWeight.rows, c.stageWeight.cols, c.terminalWeight.rows, c.terminalWeight.cols,
      c.stageTarget.length, c.terminalTarget.length]

end Cost

namespace Constraints

def scalars (c : Constraints α) : List α :=
  c.lowerBounds ++ c.upperBounds ++ c.initialState.getD []

def sizes (c : Constraints α) : List Nat :=
  [c.lowerBounds.length, c.upperBounds.length] ++ c.boundedInputs
    ++ (c.initialState.map List.length).toList

end Constraints

namespace Problem

def scalars (p : Problem α) : List α :=
  p.cost.scalars ++ p.constraints.scalars ++ p.parameters
    ++ (p.reference.map fun b => b.profile.scalars).getD [] ++ p.options.scalars

def sizes (p : Problem α) : List Nat :=
  p.dimensions.sizes ++ p.cost.sizes ++ p.constraints.sizes ++ [p.parameters.length]
    ++ (p.reference.map Binding.sizes).getD [] ++ p.options.sizes

def IsFinite [Scalar α] (p : Problem α) : Prop := ∀ x ∈ p.scalars, Scalar.isFinite x = true

/-- Every size is a word of 64 bits, as it is in the memory of a machine. -/
def FitsWords (p : Problem α) : Prop := ∀ n ∈ p.sizes, n < Json.Numeral.sizeBound

instance [Scalar α] (p : Problem α) : Decidable p.IsFinite :=
  inferInstanceAs (Decidable (∀ x ∈ p.scalars, Scalar.isFinite x = true))

instance (p : Problem α) : Decidable p.FitsWords :=
  inferInstanceAs (Decidable (∀ n ∈ p.sizes, n < Json.Numeral.sizeBound))

/-- A problem is finite if its blocks are. -/
theorem isFinite_iff [Scalar α] {p : Problem α} :
    p.IsFinite ↔
      (∀ x ∈ p.cost.scalars, Scalar.isFinite x = true) ∧
      (∀ x ∈ p.constraints.scalars, Scalar.isFinite x = true) ∧
      (∀ x ∈ p.parameters, Scalar.isFinite x = true) ∧
      (∀ b ∈ p.reference, ∀ x ∈ b.profile.scalars, Scalar.isFinite x = true) ∧
      ∀ x ∈ p.options.scalars, Scalar.isFinite x = true := by
  simp only [IsFinite, scalars, List.forall_mem_append, forall_mem_getD, Option.forall_mem_map,
    and_assoc]

end Problem

/-! ### A tank with one level and one inflow -/

namespace Tank

/-- The level, followed by the inflow that keeps it. -/
def setPoints : Profile Float := ⟨[[1, 0.25], [2, 0.5]]⟩

/-- The level is kept at one of two set-points. -/
def problem : Problem Float where
  model := "tank"
  dimensions := {
    states := 1
    inputs := 1
    parameters := 1
    stageResiduals := 2
    terminalResiduals := 1
    boundedInputs := 1
    intervals := 2 }
  cost := {
    stageKind := .nonlinearLeastSquares
    terminalKind := .nonlinearLeastSquares
    stageMap := ⟨[⟨.state 0, some 0⟩, ⟨.input 0, some 1⟩]⟩
    terminalMap := ⟨[⟨.state 0, some 0⟩]⟩
    stageWeight := ⟨2, 2, [1, 0, 0, 16], rfl⟩
    terminalWeight := ⟨1, 1, [4], rfl⟩
    stageTarget := [0, 0]
    terminalTarget := [0] }
  constraints := {
    lowerBounds := [0]
    upperBounds := [1]
    boundedInputs := [0]
    initialState := some [1] }
  parameters := [0]
  reference := some ⟨setPoints, 0⟩
  options := {
    intervals := 2
    horizon := 4
    integrator := .discrete
    qpSolver := .partialCondensingHpipm
    condensedIntervals := 2
    hessian := .gaussNewton
    levenbergMarquardt := 1e-5
    nlpSolver := .sqp
    maxIterations := 100
    tolerance := 1e-6
    costDiscretization := .euler }

theorem validate_problem : problem.validate = .ok () := by decide +kernel

end Tank

end RecedingHorizon
