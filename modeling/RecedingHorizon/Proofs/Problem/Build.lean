import Mathlib
import RecedingHorizon.Problem.Build
import RecedingHorizon.Proofs.Problem.Content
import RecedingHorizon.Proofs.Problem.Validate

/-!
Built problems. What a builder has checked before it assembles a problem, and what the validation
of the assembled problem adds to it: a problem that was built is valid and finite.
-/

namespace RecedingHorizon

variable {α : Type}

section Scalars

variable [Scalar α] {plant : Plant} {design : Design α} {point : OperatingPoint α} {setup : Setup α}

/-! ### Options -/

theorem isFinite_of_configure {options : SolverOptions α}
    (h : configure plant design setup = .ok options) :
    Scalar.isFinite options.levenbergMarquardt = true ∧ Scalar.isFinite options.tolerance = true := by
  obtain ⟨integrator, -, h⟩ := bind_eq_ok.1 h
  simp only [guard_eq_ok, pure_eq_ok, not_or, Bool.not_eq_false] at h
  obtain ⟨⟨hdamping, -⟩, -, ⟨htolerance, -⟩, rfl⟩ := h
  exact ⟨hdamping, htolerance⟩

namespace Problem

/-! ### Drafts -/

/-- Plant, design and operating point fit each other. -/
structure Ingredients (plant : Plant) (design : Design α) (point : OperatingPoint α) : Prop where
  state : point.state.length = plant.states
  input : point.input.length = plant.inputs
  stateFinite : ∀ x ∈ point.state, Scalar.isFinite x = true
  parameters : point.parameters.length = plant.parameters
  parametersFinite : ∀ x ∈ point.parameters, Scalar.isFinite x = true
  stateWeight : design.states = plant.states
  inputWeight : design.inputs = plant.inputs
  terminalWeight : design.terminalWeight.rows = plant.states
  lower : design.lowerBounds.length = plant.inputs
  upper : design.upperBounds.length = plant.inputs

theorem checkIngredients_eq_ok :
    checkIngredients plant design point = .ok () ↔ Ingredients plant design point := by
  simp only [checkIngredients, bind_unit_eq_ok, checkLength_eq_ok, checkFinite_eq_ok,
    checkDimension_eq_ok]
  constructor
  · rintro ⟨hx, hu, hfinite, hp, hpfinite, hq, hr, hw, hlower, hupper⟩
    exact ⟨hx, hu, hfinite, hp, hpfinite, hq.symm, hr.symm, hw.symm, hlower, hupper⟩
  · rintro ⟨hx, hu, hfinite, hp, hpfinite, hq, hr, hw, hlower, hupper⟩
    exact ⟨hx, hu, hfinite, hp, hpfinite, hq.symm, hr.symm, hw.symm, hlower, hupper⟩

theorem draft_eq_ok {p : Problem α} :
    draft plant design point setup = .ok p ↔
      Ingredients plant design point ∧
        ∃ options, configure plant design setup = .ok options ∧
          ∃ stage terminal parameters reference,
            recentre plant point setup.profile = .ok (stage, terminal, parameters, reference) ∧
            assemble plant design point options stage terminal parameters reference = p := by
  rw [draft, bind_unit_eq_ok, mapError_eq_ok, checkIngredients_eq_ok]
  simp only [bind_eq_ok, mapError_eq_ok, pure_eq_ok, Prod.exists]

/-- The selector that a profile appends is zero at first. -/
theorem isFinite_of_recentre [LawfulScalar α] {profile : Option (Profile α)}
    {stage terminal : CostMap} {parameters : List α} {reference : Option (Binding α)}
    (hpoint : ∀ x ∈ point.parameters, Scalar.isFinite x = true)
    (h : recentre plant point profile = .ok (stage, terminal, parameters, reference)) :
    ∀ x ∈ parameters, Scalar.isFinite x = true := by
  cases profile with
  | none =>
      cases h
      exact hpoint
  | some profile =>
      simp only [recentre, Profile.recentre, bind_eq_ok, pure_eq_ok] at h
      obtain ⟨_, ⟨_, -, rfl⟩, heq⟩ := h
      cases heq
      rw [List.forall_mem_append, List.forall_mem_singleton]
      exact ⟨hpoint, LawfulScalar.isFinite_zero⟩

end Problem

end Scalars

namespace Problem

variable [Scalar α] [Spectral α] {plant : Plant} {design : Design α} {point : OperatingPoint α}
  {setup : Setup α} {p : Problem α}

theorem build_eq_ok :
    build plant design point setup = .ok p ↔
      draft plant design point setup = .ok p ∧ p.validate = .ok () := by
  rw [build, bind_eq_ok]
  simp only [bind_unit_eq_ok, mapError_eq_ok, pure_eq_ok]
  constructor
  · rintro ⟨_, hdraft, hvalid, rfl⟩
    exact ⟨hdraft, hvalid⟩
  · rintro ⟨hdraft, hvalid⟩
    exact ⟨p, hdraft, hvalid, rfl⟩

theorem isFinite_of_build [LawfulScalar α] (h : build plant design point setup = .ok p) :
    p.IsFinite := by
  obtain ⟨hdraft, hvalid⟩ := build_eq_ok.1 h
  obtain ⟨hingredients, options, hoptions, stage, terminal, parameters, reference, hrecentre, rfl⟩ :=
    draft_eq_ok.1 hdraft
  obtain ⟨hhorizon, hcost, hconstraints, hreference⟩ := validate_eq_ok.1 hvalid
  have hzeros (n : Nat) : ∀ x ∈ List.replicate n (0 : α), Scalar.isFinite x = true := by
    intro x hx
    rw [List.eq_of_mem_replicate hx]
    exact LawfulScalar.isFinite_zero
  refine isFinite_iff.2 ⟨?_, ?_, ?_, ?_, ?_⟩
  · simp only [Cost.scalars, List.forall_mem_append]
    exact ⟨⟨⟨isFinite_of_checkWeight hcost.stageWeight, isFinite_of_checkWeight hcost.terminalWeight⟩,
      hzeros _⟩, hzeros _⟩
  · simp only [Constraints.scalars, List.forall_mem_append]
    exact ⟨⟨hconstraints.lowerFinite, hconstraints.upperFinite⟩, hingredients.stateFinite⟩
  · exact isFinite_of_recentre hingredients.parametersFinite hrecentre
  · intro b hb x hx
    obtain ⟨segment, hsegment, hx⟩ := List.mem_flatten.1 hx
    exact (hreference.profile b hb).finite segment hsegment x hx
  · simp only [SolverOptions.scalars, List.forall_mem_cons]
    obtain ⟨hdamping, htolerance⟩ := isFinite_of_configure hoptions
    exact ⟨hhorizon.finite, hdamping, htolerance, nofun⟩

end Problem

end RecedingHorizon
