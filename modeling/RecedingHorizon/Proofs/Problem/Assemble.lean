import Mathlib
import RecedingHorizon.Proofs.Design
import RecedingHorizon.Proofs.Problem.Build

/-!
What a validation has left to say about an assembled problem. Design, options, recentring and
assembly fit each other, so the horizon, the cost maps, the terminal weight, the selector and all
lengths are right, and the stage weight is a diagonal matrix of squares. Only a number that was
rounded to infinity, in that weight or in a bound, can be found.
-/

namespace RecedingHorizon

variable {α : Type}

/-! ### Cost maps -/

namespace CostMap

theorem fits_stage (states inputs : Nat) :
    (stage states inputs).Fits (states + inputs) states inputs where
  length := length_stage states inputs
  signal r hr := by
    simp only [stage, List.mem_append, List.mem_map, List.mem_range] at hr
    rcases hr with ⟨index, hindex, rfl⟩ | ⟨index, hindex, rfl⟩ <;> exact hindex
  target r hr index hindex := by
    simp only [stage, List.mem_append, List.mem_map] at hr
    rcases hr with ⟨_, -, rfl⟩ | ⟨_, -, rfl⟩ <;> cases hindex

theorem Fits.shifted {m : CostMap} {residuals states inputs : Nat}
    (hm : m.Fits residuals states inputs) (hle : residuals ≤ sizeSum states inputs) :
    m.shifted.Fits residuals states inputs where
  length := (length_shifted m).trans hm.length
  signal r hr := by
    obtain ⟨index, hindex, rfl⟩ := List.mem_mapIdx.1 hr
    exact hm.signal m.residuals[index] (List.getElem_mem hindex)
  target r hr target htarget := by
    obtain ⟨index, hindex, rfl⟩ := List.mem_mapIdx.1 hr
    cases htarget
    exact (hm.length ▸ hindex).trans_le hle

end CostMap

/-- The lengths of the two vectors add up to a word, as those of all vectors in memory do. -/
def OperatingPoint.FitsWords (point : OperatingPoint α) : Prop :=
  point.state.length + point.input.length < 2 ^ 64

namespace Problem

section Scalars

variable [Scalar α] {plant : Plant} {design : Design α} {point : OperatingPoint α} {setup : Setup α}

/-! ### Recentring -/

/-- Cost maps, runtime parameters and binding of an assembled problem. -/
def recentred (plant : Plant) (point : OperatingPoint α) :
    Option (Profile α) → CostMap × CostMap × List α × Option (Binding α)
  | none => (.stage plant.states plant.inputs, .terminal plant.states, point.parameters, none)
  | some profile =>
    ((CostMap.stage plant.states plant.inputs).shifted, (CostMap.terminal plant.states).shifted,
      point.parameters ++ [0], some ⟨profile, point.parameters.length⟩)

theorem recentre_eq_ok {profile : Option (Profile α)}
    {result : CostMap × CostMap × List α × Option (Binding α)} :
    recentre plant point profile = .ok result ↔
      (∀ q ∈ profile, q.Fits (sizeSum plant.states plant.inputs)) ∧
        recentred plant point profile = result := by
  cases profile with
  | none => simp [recentre, recentred, pure_eq_ok]
  | some profile =>
      simp only [recentre, Profile.recentre, bind_eq_ok (β := Recentred α), bind_unit_eq_ok,
        Profile.check_eq_ok, pure_eq_ok, recentred, Option.mem_some_iff, forall_eq']
      constructor
      · rintro ⟨_, ⟨hprofile, rfl⟩, hresult⟩
        exact ⟨hprofile, hresult⟩
      · rintro ⟨hprofile, hresult⟩
        exact ⟨_, ⟨hprofile, rfl⟩, hresult⟩

/-- The configuration takes over the horizon of the design and condenses all of it. -/
theorem horizon_of_configure {options : SolverOptions α}
    (h : configure plant design setup = .ok options) :
    options.intervals = design.intervals ∧ options.horizon = design.horizon ∧
      options.condensedIntervals = design.intervals := by
  obtain ⟨integrator, -, h⟩ := bind_eq_ok.1 h
  simp only [guard_eq_ok, pure_eq_ok] at h
  obtain ⟨-, -, -, rfl⟩ := h
  exact ⟨rfl, rfl, rfl⟩

/-! ### Assembly -/

/-- The assembled problem. -/
def assembled (plant : Plant) (design : Design α) (point : OperatingPoint α)
    (options : SolverOptions α) (profile : Option (Profile α)) : Problem α :=
  let (stage, terminal, parameters, reference) := recentred plant point profile
  assemble plant design point options stage terminal parameters reference

theorem draft_eq_ok_iff {p : Problem α} :
    draft plant design point setup = .ok p ↔
      Ingredients plant design point ∧
        (∃ options, configure plant design setup = .ok options ∧
          assembled plant design point options setup.profile = p) ∧
        ∀ q ∈ setup.profile, q.Fits (sizeSum plant.states plant.inputs) := by
  rw [draft_eq_ok]
  simp only [recentre_eq_ok]
  constructor
  · rintro ⟨hingredients, options, hoptions, stage, terminal, parameters, reference,
      ⟨hprofile, hrecentred⟩, rfl⟩
    refine ⟨hingredients, ⟨options, hoptions, ?_⟩, hprofile⟩
    rw [assembled, hrecentred]
  · rintro ⟨hingredients, ⟨options, hoptions, rfl⟩, hprofile⟩
    exact ⟨hingredients, options, hoptions, _, _, _, _, ⟨hprofile, rfl⟩, rfl⟩

section Fields

variable (options : SolverOptions α) (profile : Option (Profile α))

theorem stageResiduals_assembled :
    (assembled plant design point options profile).dimensions.stageResiduals =
      plant.states + plant.inputs := by
  cases profile <;> simp [assembled, recentred, assemble]

theorem terminalResiduals_assembled :
    (assembled plant design point options profile).dimensions.terminalResiduals = plant.states := by
  cases profile <;> simp [assembled, recentred, assemble]

end Fields

variable {options : SolverOptions α} {profile : Option (Profile α)}

theorem horizonFits_assembled (hintervals : design.intervals ≠ 0)
    (hhorizon : Scalar.isFinite design.horizon = true ∧ ¬ design.horizon ≤ 0)
    (hoptions : configure plant design setup = .ok options) :
    (assembled plant design point options profile).HorizonFits := by
  obtain ⟨hsame, hlength, hcondensed⟩ := horizon_of_configure hoptions
  exact {
    pos := Nat.pos_of_ne_zero hintervals
    intervals := hsame
    finite := hlength.symm ▸ hhorizon.1
    positive := hlength.symm ▸ hhorizon.2
    condensed := fun _ => ⟨hcondensed.symm ▸ Nat.pos_of_ne_zero hintervals, hcondensed.le⟩ }

theorem referenceFits_assembled
    (hprofile : ∀ q ∈ profile, q.Fits (sizeSum plant.states plant.inputs)) :
    (assembled plant design point options profile).ReferenceFits := by
  cases profile with
  | none =>
      have hreference : (assembled plant design point options none).reference = none := rfl
      have hunshifted : (assembled plant design point options none).isShifted = false := by
        simp [isShifted, CostMap.isShifted, assembled, recentred, assemble, CostMap.stage,
          CostMap.terminal]
      refine ⟨rfl, ?_, ?_, fun _ => hunshifted⟩ <;> simp [hreference]
  | some profile =>
      have hreference : (assembled plant design point options (some profile)).reference =
        some ⟨profile, point.parameters.length⟩ := rfl
      refine ⟨rfl, ?_, ?_, fun h => absurd (hreference.symm.trans h) (Option.some_ne_none _)⟩
      · simp only [hreference, Option.mem_some_iff, forall_eq']
        simp [assembled, recentred, assemble]
      · simp only [hreference, Option.mem_some_iff, forall_eq']
        exact hprofile profile rfl

theorem fits_stageMap_assembled (hwords : plant.states + plant.inputs < 2 ^ 64) :
    (assembled plant design point options profile).cost.stageMap.Fits
      (plant.states + plant.inputs) plant.states plant.inputs := by
  have hstage := CostMap.fits_stage plant.states plant.inputs
  cases profile with
  | none => exact hstage
  | some profile => exact hstage.shifted (sizeSum_of_lt hwords).ge

theorem fits_terminalMap_assembled (hwords : plant.states < 2 ^ 64) :
    (assembled plant design point options profile).cost.terminalMap.Fits plant.states
      plant.states 0 := by
  have hterminal := CostMap.fits_stage plant.states 0
  cases profile with
  | none => exact hterminal
  | some profile => exact hterminal.shifted (sizeSum_of_lt hwords).ge

end Scalars

/-! ### Validation of an assembled problem -/

variable [Scalar α] [Spectral α] {plant : Plant} {design : Design α} {point : OperatingPoint α}
  {setup : Setup α} {options : SolverOptions α} {profile : Option (Profile α)}

/-- Weight and bounds of a problem, which are all that a validation of an assembled one looks at. -/
def checkRounded (p : Problem α) : Checked α Unit := do
  checkWeight "W" p.dimensions.stageResiduals p.cost.stageWeight
  checkFinite "lbu" p.constraints.lowerBounds
  checkFinite "ubu" p.constraints.upperBounds

/-- Everything about a problem that does not depend on how its numbers were rounded. -/
structure Shaped (p : Problem α) : Prop where
  horizon : p.HorizonFits
  stageMap : p.cost.stageMap.Fits p.dimensions.stageResiduals p.dimensions.states p.dimensions.inputs
  terminalMap : p.cost.terminalMap.Fits p.dimensions.terminalResiduals p.dimensions.states 0
  terminalWeight : p.cost.terminalWeight.IsWeight p.dimensions.terminalResiduals
  stageTarget : p.cost.stageTarget.length = p.dimensions.stageResiduals
  terminalTarget : p.cost.terminalTarget.length = p.dimensions.terminalResiduals
  lower : p.constraints.lowerBounds.length = p.dimensions.boundedInputs
  upper : p.constraints.upperBounds.length = p.dimensions.boundedInputs
  bounded : p.constraints.boundedInputs.length = p.dimensions.boundedInputs
  input : ∀ index ∈ p.constraints.boundedInputs, index < p.dimensions.inputs
  initialState : ∃ x0, p.constraints.initialState = some x0 ∧ x0.length = p.dimensions.states
  reference : p.ReferenceFits

theorem Shaped.checkCost {p : Problem α} (hp : p.Shaped) :
    p.checkCost = checkWeight "W" p.dimensions.stageResiduals p.cost.stageWeight := by
  simp only [Problem.checkCost, CostMap.check_eq_ok.2 hp.stageMap,
    CostMap.check_eq_ok.2 hp.terminalMap, checkWeight_eq_ok.2 hp.terminalWeight,
    checkLength_eq_ok.2 hp.stageTarget, checkLength_eq_ok.2 hp.terminalTarget, ok_bind, bind_ok]

theorem Shaped.checkConstraints {p : Problem α} (hp : p.Shaped) :
    p.checkConstraints = (do
      checkFinite "lbu" p.constraints.lowerBounds
      checkFinite "ubu" p.constraints.upperBounds) := by
  obtain ⟨x0, hx0, hlength⟩ := hp.initialState
  have hindex : p.constraints.boundedInputs.find? (fun i => p.dimensions.inputs ≤ i) = none := by
    simpa using hp.input
  simp only [Problem.checkConstraints, checkLength_eq_ok.2 hp.lower, checkLength_eq_ok.2 hp.upper,
    checkDimension_eq_ok.2 hp.bounded.symm, hindex, hx0, checkLength_eq_ok.2 hlength, ok_bind,
    bind_ok]

theorem Shaped.validate {p : Problem α} (hp : p.Shaped) : p.validate = p.checkRounded := by
  simp only [Problem.validate, checkHorizon_eq_ok.2 hp.horizon, hp.checkCost, hp.checkConstraints,
    checkReference_eq_ok.2 hp.reference, ok_bind, bind_ok, checkRounded]

/-- Of an assembled problem, the shape is right, as long as its dimensions add up to a word. -/
theorem shaped_assembled (hwords : plant.states + plant.inputs < 2 ^ 64) (hdesign : design.Derived)
    (hingredients : Ingredients plant design point)
    (hoptions : configure plant design setup = .ok options)
    (hprofile : ∀ q ∈ profile, q.Fits (sizeSum plant.states plant.inputs)) :
    (assembled plant design point options profile).Shaped := by
  have hterminal : design.terminalWeight.IsWeight plant.states :=
    hingredients.stateWeight ▸ hdesign.terminalWeight
  exact {
    horizon := horizonFits_assembled hdesign.intervals hdesign.horizon hoptions
    stageMap := by
      rw [stageResiduals_assembled]
      exact fits_stageMap_assembled hwords
    terminalMap := by
      rw [terminalResiduals_assembled]
      exact fits_terminalMap_assembled (by omega)
    terminalWeight := by
      rw [terminalResiduals_assembled]
      exact hterminal
    stageTarget := List.length_replicate
    terminalTarget := List.length_replicate
    lower := hingredients.lower
    upper := hingredients.upper
    bounded := List.length_range
    input := fun index hindex => List.mem_range.1 hindex
    initialState := ⟨point.state, rfl, hingredients.state⟩
    reference := referenceFits_assembled hprofile }

variable {p : Problem α}

theorem assembled_of_build (hbuild : build plant design point setup = .ok p) :
    p.WellFormed ∧ point.parameters.length = plant.parameters ∧
      ∃ options, p = assembled plant design point options setup.profile := by
  obtain ⟨hdraft, hvalid⟩ := build_eq_ok.1 hbuild
  obtain ⟨hingredients, ⟨options, -, hassembled⟩, -⟩ := draft_eq_ok_iff.1 hdraft
  exact ⟨validate_eq_ok.1 hvalid, hingredients.parameters, options, hassembled.symm⟩

/-! ### Rounding -/

/-- The only complaints about an assembled problem. -/
inductive Overflow : ValidationError α → Prop where
  | weight (row col : Nat) : Overflow (.notFiniteEntry "W" row col)
  | lower (index : Nat) : Overflow (.notFinite "lbu" index)
  | upper (index : Nat) : Overflow (.notFinite "ubu" index)

/-- Plant, design, operating point and setup go together, and nothing in the design overflowed. -/
structure Consistent (plant : Plant) (design : Design α) (point : OperatingPoint α)
    (setup : Setup α) : Prop where
  state : point.state.length = plant.states
  stateFinite : ∀ x ∈ point.state, Scalar.isFinite x = true
  input : point.input.length = plant.inputs
  parameters : point.parameters.length = plant.parameters
  parametersFinite : ∀ x ∈ point.parameters, Scalar.isFinite x = true
  states : design.states = plant.states
  inputs : design.inputs = plant.inputs
  options : ∃ options, configure plant design setup = .ok options
  profile : ∀ q ∈ setup.profile, q.Fits (plant.states + plant.inputs)
  stateWeight : ∀ x ∈ design.stateWeight.entries, Scalar.isFinite x = true
  inputWeight : ∀ x ∈ design.inputWeight.entries, Scalar.isFinite x = true
  lower : ∀ x ∈ design.lowerBounds, Scalar.isFinite x = true
  upper : ∀ x ∈ design.upperBounds, Scalar.isFinite x = true

theorem Consistent.ingredients (hdesign : design.Derived)
    (h : Consistent plant design point setup) : Ingredients plant design point where
  state := h.state
  input := h.input
  stateFinite := h.stateFinite
  parameters := h.parameters
  parametersFinite := h.parametersFinite
  stateWeight := h.states
  inputWeight := h.inputs
  terminalWeight := hdesign.terminalWeight.rows.trans h.states
  lower := hdesign.lower.trans h.inputs
  upper := hdesign.upper.trans h.inputs

section Lawful

variable [LawfulSigns α] [LawfulSpectral α]

theorem isWeight_blockDiagonal_iff (hdesign : design.Derived)
    (hingredients : Ingredients plant design point) :
    (Matrix.blockDiagonal design.stateWeight design.inputWeight).IsWeight
        (plant.states + plant.inputs) ↔
      (∀ x ∈ design.stateWeight.entries, Scalar.isFinite x = true) ∧
        ∀ x ∈ design.inputWeight.entries, Scalar.isFinite x = true := by
  rw [← Matrix.forall_mem_entries_blockDiagonal LawfulScalar.isFinite_zero]
  refine ⟨fun h => h.finite, fun hfinite => ?_⟩
  refine (hdesign.stateWeight.blockDiagonal hdesign.inputWeight).isWeight ?_ ?_ hfinite
  · exact congrArg₂ (· + ·) hingredients.stateWeight hingredients.inputWeight
  · exact (Matrix.forall_mem_entries_blockDiagonal LawfulSigns.zero_le_zero).2
      ⟨hdesign.stateNonneg, hdesign.inputNonneg⟩

theorem overflow_of_checkWeight (hdesign : design.Derived)
    (hingredients : Ingredients plant design point) {e : ValidationError α}
    (h : checkWeight "W" (plant.states + plant.inputs)
      (Matrix.blockDiagonal design.stateWeight design.inputWeight) = .error e) : Overflow e := by
  have hinfinite : ¬ ∀ x ∈ (Matrix.blockDiagonal design.stateWeight design.inputWeight).entries,
      Scalar.isFinite x = true := by
    rw [Matrix.forall_mem_entries_blockDiagonal LawfulScalar.isFinite_zero,
      ← isWeight_blockDiagonal_iff hdesign hingredients]
    intro hweight
    cases h.symm.trans (checkWeight_eq_ok.2 hweight)
  have hrows := congrArg₂ (· + ·) hingredients.stateWeight hingredients.inputWeight
  have hsquare := (hdesign.stateWeight.blockDiagonal hdesign.inputWeight).square
  obtain ⟨row, col, heq⟩ := checkWeight_of_not_finite "W" hrows hsquare hinfinite
  cases h.symm.trans heq
  exact .weight row col

theorem overflow_of_checkRounded (hdesign : design.Derived)
    (hingredients : Ingredients plant design point) {e : ValidationError α}
    (h : (assembled plant design point options profile).checkRounded = .error e) : Overflow e := by
  rw [checkRounded, stageResiduals_assembled] at h
  rcases bind_eq_error.1 h with hweight | ⟨-, -, h⟩
  · exact overflow_of_checkWeight hdesign hingredients hweight
  rcases bind_eq_error.1 h with hlower | ⟨-, -, hupper⟩
  · obtain ⟨index, rfl⟩ := exists_index_of_checkFinite hlower
    exact .lower index
  · obtain ⟨index, rfl⟩ := exists_index_of_checkFinite hupper
    exact .upper index

theorem consistent_of_build (hwords : plant.states + plant.inputs < 2 ^ 64)
    (hdesign : design.Derived) (hbuild : build plant design point setup = .ok p) :
    Consistent plant design point setup := by
  obtain ⟨hdraft, hvalid⟩ := build_eq_ok.1 hbuild
  obtain ⟨hingredients, ⟨options, hoptions, rfl⟩, hprofile⟩ := draft_eq_ok_iff.1 hdraft
  have hp := validate_eq_ok.1 hvalid
  have hweight := checkWeight_eq_ok.1 hp.cost.stageWeight
  rw [stageResiduals_assembled] at hweight
  obtain ⟨hstateWeight, hinputWeight⟩ := (isWeight_blockDiagonal_iff hdesign hingredients).1 hweight
  exact {
    state := hingredients.state
    stateFinite := hingredients.stateFinite
    input := hingredients.input
    parameters := hingredients.parameters
    parametersFinite := hingredients.parametersFinite
    states := hingredients.stateWeight
    inputs := hingredients.inputWeight
    options := ⟨options, hoptions⟩
    profile := sizeSum_of_lt hwords ▸ hprofile
    stateWeight := hstateWeight
    inputWeight := hinputWeight
    lower := hp.constraints.lowerFinite
    upper := hp.constraints.upperFinite }

theorem exists_build (hwords : plant.states + plant.inputs < 2 ^ 64)
    (hdesign : design.Derived) (h : Consistent plant design point setup) :
    ∃ p, build plant design point setup = .ok p := by
  have hingredients := h.ingredients hdesign
  obtain ⟨options, hoptions⟩ := h.options
  have hprofile := h.profile
  rw [← sizeSum_of_lt hwords] at hprofile
  have hdraft := draft_eq_ok_iff.2 ⟨hingredients, ⟨options, hoptions, rfl⟩, hprofile⟩
  have hweight := (isWeight_blockDiagonal_iff hdesign hingredients).2 ⟨h.stateWeight, h.inputWeight⟩
  refine ⟨_, build_eq_ok.2 ⟨hdraft, ?_⟩⟩
  rw [(shaped_assembled hwords hdesign hingredients hoptions hprofile).validate, checkRounded,
    stageResiduals_assembled]
  simp only [bind_unit_eq_ok, checkFinite_eq_ok]
  exact ⟨checkWeight_eq_ok.2 hweight, h.lower, h.upper⟩

theorem overflow_of_validate (hwords : plant.states + plant.inputs < 2 ^ 64)
    (hdesign : design.Derived) (hdraft : draft plant design point setup = .ok p)
    {e : ValidationError α} (herror : p.validate = .error e) : Overflow e := by
  obtain ⟨hingredients, ⟨options, hoptions, rfl⟩, hprofile⟩ := draft_eq_ok_iff.1 hdraft
  rw [(shaped_assembled hwords hdesign hingredients hoptions hprofile).validate] at herror
  exact overflow_of_checkRounded hdesign hingredients herror

/-- A problem can be built about every operating point that goes together with a derived design,
unless the design overflowed. Once it is assembled, the validation finds an overflow or nothing, and
what it lets pass is finite. -/
theorem build_of_derive {state input : List α} {terminalWeight : Matrix α} {tuning : Tuning α}
    (hderive : Design.derive state input terminalWeight tuning = .ok design) (plant : Plant)
    {point : OperatingPoint α} (hwords : point.FitsWords) (setup : Setup α) :
    ((∃ p, build plant design point setup = .ok p) ↔ Consistent plant design point setup) ∧
    (∀ p, draft plant design point setup = .ok p →
      ∀ e, p.validate = .error e → Overflow e) ∧
    ∀ p, build plant design point setup = .ok p → p.validate = .ok () ∧ p.IsFinite := by
  have hdesign := Design.derived_of_derive hderive
  refine ⟨⟨?_, fun h => exists_build (h.state ▸ h.input ▸ hwords) hdesign h⟩,
    fun p hdraft e herror => ?_, ?_⟩
  · rintro ⟨p, hbuild⟩
    obtain ⟨hingredients, -⟩ := draft_eq_ok_iff.1 (build_eq_ok.1 hbuild).1
    exact consistent_of_build (hingredients.state ▸ hingredients.input ▸ hwords) hdesign hbuild
  · obtain ⟨hingredients, -⟩ := draft_eq_ok_iff.1 hdraft
    exact overflow_of_validate (hingredients.state ▸ hingredients.input ▸ hwords) hdesign hdraft
      herror
  · exact fun p hbuild => ⟨(build_eq_ok.1 hbuild).2, isFinite_of_build hbuild⟩

end Lawful

end Problem

namespace Tank

def plant : Plant where
  name := "tank"
  states := 1
  inputs := 1
  parameters := 0

/-- The lower set-point. -/
def point : OperatingPoint Float where
  state := [1]
  input := [0.25]
  parameters := []

def tuning : Tuning Float where
  samplingPeriod := 2
  linear := false
  intervals := 2
  horizon := 4
  lowerScale := 0
  upperScales := [4]

def setup : Setup Float := { Setup.standard with profile := some setPoints }

def design : Design Float := .normalized point.state point.input problem.cost.terminalWeight tuning

theorem derive_design :
    Design.derive point.state point.input problem.cost.terminalWeight tuning = .ok design := by
  decide +kernel

theorem consistent_design : Problem.Consistent plant design point setup where
  state := rfl
  stateFinite := by decide +kernel
  input := rfl
  parameters := rfl
  parametersFinite := nofun
  states := rfl
  inputs := rfl
  options := ⟨_, rfl⟩
  profile := by
    rintro _ ⟨rfl⟩
    exact ⟨nofun, by decide, by decide +kernel⟩
  stateWeight := by decide +kernel
  inputWeight := by decide +kernel
  lower := by decide +kernel
  upper := by decide +kernel

end Tank

namespace Problem

theorem build_of_derive_tank :
    Design.derive Tank.point.state Tank.point.input Tank.problem.cost.terminalWeight Tank.tuning =
        .ok Tank.design ∧
      Tank.point.FitsWords ∧
      ∃ p, build Tank.plant Tank.design Tank.point Tank.setup = .ok p ∧ p.IsFinite := by
  have hwords : Tank.point.FitsWords := show 1 + 1 < 2 ^ 64 by decide
  obtain ⟨hbuild, -, hfinite⟩ := build_of_derive Tank.derive_design Tank.plant hwords Tank.setup
  obtain ⟨p, hp⟩ := hbuild.2 Tank.consistent_design
  exact ⟨Tank.derive_design, hwords, p, hp, (hfinite p hp).2⟩

end Problem

end RecedingHorizon
