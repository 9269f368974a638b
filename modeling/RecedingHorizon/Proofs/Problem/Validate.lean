import Mathlib
import RecedingHorizon.Problem.Validate
import RecedingHorizon.Proofs.Check

/-!
Well-formed problems. Each block of a problem has a condition of its own, which says how it has to
agree with the dimensions, and a problem is valid exactly if all its blocks meet theirs. Later
results take from a validation what they need by the name of the condition.
-/

namespace RecedingHorizon

variable {α : Type}

/-! ### Cost maps and profiles -/

/-- A signal of a process with the given numbers of states and inputs. -/
def Signal.IsOf (states inputs : Nat) : Signal → Prop
  | .state index => index < states
  | .input index => index < inputs

structure CostMap.Fits (residuals states inputs : Nat) (m : CostMap) : Prop where
  length : m.residuals.length = residuals
  signal : ∀ r ∈ m.residuals, r.signal.IsOf states inputs
  target : ∀ r ∈ m.residuals, ∀ index ∈ r.target, index < sizeSum states inputs

structure Profile.Fits [Scalar α] (length : Nat) (p : Profile α) : Prop where
  nonempty : p.segments ≠ []
  length : ∀ segment ∈ p.segments, segment.length = length
  finite : ∀ segment ∈ p.segments, ∀ x ∈ segment, Scalar.isFinite x = true

theorem CostMap.checkResidual_eq_ok {field : String} {states inputs targets : Nat} {r : Residual} :
    (checkResidual field states inputs targets r : Checked α Unit) = .ok () ↔
      r.signal.IsOf states inputs ∧ ∀ index ∈ r.target, index < targets := by
  obtain ⟨signal, target⟩ := r
  cases signal <;> cases target <;>
    simp only [checkResidual, guard_eq_ok, Signal.IsOf, not_le] <;> simp

theorem CostMap.check_eq_ok {field : String} {residuals states inputs : Nat} {m : CostMap} :
    (m.check field residuals states inputs : Checked α Unit) = .ok () ↔
      m.Fits residuals states inputs := by
  simp only [check, bind_unit_eq_ok, checkDimension_eq_ok, forM_eq_ok, checkResidual_eq_ok]
  constructor
  · rintro ⟨rfl, hresiduals⟩
    exact ⟨rfl, fun r hr => (hresiduals r hr).1, fun r hr => (hresiduals r hr).2⟩
  · intro h
    exact ⟨h.length.symm, fun r hr => ⟨h.signal r hr, h.target r hr⟩⟩

theorem Profile.check_eq_ok [Scalar α] {length : Nat} {p : Profile α} :
    p.check length = .ok () ↔ p.Fits length := by
  have hsegments : p.checkSegments length = .ok () ↔ ∀ segment ∈ p.segments,
      segment.length = length ∧ ∀ x ∈ segment, Scalar.isFinite x = true := by
    simp only [checkSegments, forM_eq_ok, bind_unit_eq_ok, checkLength_eq_ok, checkFinite_eq_ok]
  have hempty : p.check length = .ok () ↔ p.segments ≠ [] ∧ p.checkSegments length = .ok () := by
    simp [check, guard_eq_ok]
  rw [hempty, hsegments]
  constructor
  · rintro ⟨hnonempty, hfits⟩
    exact ⟨hnonempty, fun s hs => (hfits s hs).1, fun s hs => (hfits s hs).2⟩
  · intro h
    exact ⟨h.nonempty, fun s hs => ⟨h.length s hs, h.finite s hs⟩⟩

/-! ### The blocks of a problem -/

namespace Problem

/-- The sum of states and inputs is a word, if a profile has to have segments of that length. -/
def SumFits (p : Problem α) : Prop :=
  p.reference = none ∨ p.dimensions.states + p.dimensions.inputs < 2 ^ 64

section Scalars

variable [Scalar α]

structure HorizonFits (p : Problem α) : Prop where
  pos : 0 < p.dimensions.intervals
  intervals : p.options.intervals = p.dimensions.intervals
  finite : Scalar.isFinite p.options.horizon = true
  positive : ¬ p.options.horizon ≤ 0
  condensed : p.options.qpSolver.isPartialCondensing = true →
    1 ≤ p.options.condensedIntervals ∧ p.options.condensedIntervals ≤ p.dimensions.intervals

structure ConstraintsFit (p : Problem α) : Prop where
  lower : p.constraints.lowerBounds.length = p.dimensions.boundedInputs
  upper : p.constraints.upperBounds.length = p.dimensions.boundedInputs
  lowerFinite : ∀ x ∈ p.constraints.lowerBounds, Scalar.isFinite x = true
  upperFinite : ∀ x ∈ p.constraints.upperBounds, Scalar.isFinite x = true
  bounded : p.constraints.boundedInputs.length = p.dimensions.boundedInputs
  input : ∀ index ∈ p.constraints.boundedInputs, index < p.dimensions.inputs
  initialState : ∃ x0, p.constraints.initialState = some x0 ∧ x0.length = p.dimensions.states

structure ReferenceFits (p : Problem α) : Prop where
  parameters : p.parameters.length = p.dimensions.parameters
  selector : ∀ binding ∈ p.reference, binding.selector < p.dimensions.parameters
  profile : ∀ binding ∈ p.reference,
    binding.profile.Fits (sizeSum p.dimensions.states p.dimensions.inputs)
  unshifted : p.reference = none → p.isShifted = false

theorem checkHorizon_eq_ok {p : Problem α} : p.checkHorizon = .ok () ↔ p.HorizonFits := by
  simp only [checkHorizon, bind_unit_eq_ok, guard_eq_ok, checkDimension_eq_ok, checkPositive_eq_ok]
  constructor
  · rintro ⟨hpos, hintervals, ⟨hfinite, hpositive⟩, hcondensed⟩
    refine ⟨by omega, hintervals.symm, hfinite, hpositive, fun hpartial => ?_⟩
    -- the last check fails on a partial condensing solver out of range, and only there
    by_contra hrange
    simp [hpartial, hrange] at hcondensed
  · rintro ⟨hpos, hintervals, hfinite, hpositive, hcondensed⟩
    refine ⟨by omega, hintervals.symm, ⟨hfinite, hpositive⟩, ?_⟩
    rw [if_neg]
    · rfl
    · rintro ⟨hpartial, hrange⟩
      exact hrange (hcondensed hpartial)

theorem checkConstraints_eq_ok {p : Problem α} : p.checkConstraints = .ok () ↔ p.ConstraintsFit := by
  simp only [checkConstraints, bind_unit_eq_ok, checkLength_eq_ok, checkFinite_eq_ok,
    checkDimension_eq_ok]
  constructor
  · rintro ⟨hlower, hupper, hlowerFinite, hupperFinite, hbounded, h⟩
    split at h
    · cases h
    next hindex =>
      rw [bind_unit_eq_ok] at h
      refine ⟨hlower, hupper, hlowerFinite, hupperFinite, hbounded.symm, ?_, ?_⟩
      · simpa using hindex
      · cases hstate : p.constraints.initialState with
        | none => simp [hstate] at h
        | some x0 => exact ⟨x0, rfl, by simpa [hstate] using h⟩
  · rintro ⟨hlower, hupper, hlowerFinite, hupperFinite, hbounded, hindex, x0, hstate, hx0⟩
    have hnone : p.constraints.boundedInputs.find? (fun i => p.dimensions.inputs ≤ i) = none := by
      simpa using hindex
    refine ⟨hlower, hupper, hlowerFinite, hupperFinite, hbounded.symm, ?_⟩
    simp only [hnone, hstate, bind_unit_eq_ok, checkLength_eq_ok, hx0, true_and]

theorem checkReference_eq_ok {p : Problem α} : p.checkReference = .ok () ↔ p.ReferenceFits := by
  simp only [checkReference, bind_unit_eq_ok, checkLength_eq_ok]
  cases hreference : p.reference with
  | none =>
      constructor
      · rintro ⟨hparameters, h⟩
        refine ⟨hparameters, ?_, ?_, ?_⟩
        · simp [hreference]
        · simp [hreference]
        · simpa [hreference] using h
      · intro h
        exact ⟨h.parameters, by simp [h.unshifted hreference]⟩
  | some binding =>
      simp only [guard_eq_ok, Profile.check_eq_ok, not_le]
      constructor
      · rintro ⟨hparameters, hselector, hprofile⟩
        refine ⟨hparameters, ?_, ?_, ?_⟩
        · simpa [hreference] using hselector
        · simpa [hreference] using hprofile
        · simp [hreference]
      · intro h
        exact ⟨h.parameters, h.selector _ hreference, h.profile _ hreference⟩

end Scalars

variable [Scalar α] [Spectral α]

structure CostFits (p : Problem α) : Prop where
  stageMap : p.cost.stageMap.Fits p.dimensions.stageResiduals p.dimensions.states p.dimensions.inputs
  terminalMap : p.cost.terminalMap.Fits p.dimensions.terminalResiduals p.dimensions.states 0
  stageWeight : checkWeight "W" p.dimensions.stageResiduals p.cost.stageWeight = .ok ()
  terminalWeight : checkWeight "W_e" p.dimensions.terminalResiduals p.cost.terminalWeight = .ok ()
  stageTarget : p.cost.stageTarget.length = p.dimensions.stageResiduals
  terminalTarget : p.cost.terminalTarget.length = p.dimensions.terminalResiduals

structure WellFormed (p : Problem α) : Prop where
  horizon : p.HorizonFits
  cost : p.CostFits
  constraints : p.ConstraintsFit
  reference : p.ReferenceFits

theorem checkCost_eq_ok {p : Problem α} : p.checkCost = .ok () ↔ p.CostFits := by
  simp only [checkCost, bind_unit_eq_ok, CostMap.check_eq_ok, checkLength_eq_ok]
  constructor
  · rintro ⟨hstage, hterminal, hw, hwe, hyref, hyrefe⟩
    exact ⟨hstage, hterminal, hw, hwe, hyref, hyrefe⟩
  · rintro ⟨hstage, hterminal, hw, hwe, hyref, hyrefe⟩
    exact ⟨hstage, hterminal, hw, hwe, hyref, hyrefe⟩

/-- The checks of a validation succeed one after the other exactly on the well-formed problems. -/
theorem validate_eq_ok {p : Problem α} : p.validate = .ok () ↔ p.WellFormed := by
  simp only [validate, bind_unit_eq_ok, checkHorizon_eq_ok, checkCost_eq_ok,
    checkConstraints_eq_ok, checkReference_eq_ok]
  constructor
  · rintro ⟨hhorizon, hcost, hconstraints, hreference⟩
    exact ⟨hhorizon, hcost, hconstraints, hreference⟩
  · rintro ⟨hhorizon, hcost, hconstraints, hreference⟩
    exact ⟨hhorizon, hcost, hconstraints, hreference⟩

end Problem

end RecedingHorizon
