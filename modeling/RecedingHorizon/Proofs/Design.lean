import Mathlib
import RecedingHorizon.Design
import RecedingHorizon.Proofs.Weight

/-!
Derived designs. A design can be derived exactly if every nominal value can be a unit, the terminal
weight fits the states, and the tuning is within its bounds; it then has diagonal weights with
entries that are not negative, and one lower and one upper bound for every input.
-/

namespace RecedingHorizon

variable {α : Type}

section Scalars

variable [Scalar α]

/-- A nominal value that deviations can be measured in. -/
structure Scalar.IsUnit (x : α) : Prop where
  finite : isFinite x = true
  nonzero : isZero x = false

theorem unitFault?_eq_none {field : String} {index : Nat} {x : α} :
    unitFault? field index x = none ↔ Scalar.IsUnit x := by
  unfold unitFault?
  split
  next hfinite => exact iff_of_false nofun fun h => absurd h.finite (by simp [hfinite])
  next hfinite =>
    split
    next hzero => exact iff_of_false nofun fun h => absurd h.nonzero (by simp [hzero])
    next hzero => exact iff_of_true rfl ⟨by simpa using hfinite, by simpa using hzero⟩

theorem inverseSquares_eq_ok {field : String} {v : List α} {m : Matrix α} :
    inverseSquares field v = .ok m ↔
      (∀ x ∈ v, Scalar.IsUnit x) ∧ Matrix.diagonal (v.map fun x => 1 / (x * x)) = m := by
  unfold inverseSquares
  split
  next fault hfault =>
    obtain ⟨entry, hentry, hfault⟩ := List.exists_of_findSome?_eq_some hfault
    refine iff_of_false nofun fun h => ?_
    have hunit := h.1 _ (List.fst_mem_of_mem_zipIdx hentry)
    cases hfault.symm.trans (unitFault?_eq_none.2 hunit)
  next hfault =>
    have hunits : ∀ x ∈ v, Scalar.IsUnit x := by
      intro x hx
      obtain ⟨index, hindex, rfl⟩ := List.mem_iff_getElem.1 hx
      have hentry : (v[index], index) ∈ v.zipIdx :=
        List.mem_zipIdx_iff_getElem?.2 (List.getElem?_eq_getElem hindex)
      exact unitFault?_eq_none.1 (List.findSome?_eq_none_iff.1 hfault _ hentry)
    exact ⟨fun h => ⟨hunits, Except.ok.inj h⟩, fun h => congrArg Except.ok h.2⟩

end Scalars

namespace Design

variable [Scalar α] [Spectral α] {state input : List α} {terminalWeight : Matrix α} {tuning : Tuning α}
  {design : Design α}

/-- What a design can be derived from. -/
structure Admissible (state input : List α) (terminalWeight : Matrix α) (tuning : Tuning α) :
    Prop where
  intervals : tuning.intervals ≠ 0
  horizon : Scalar.isFinite tuning.horizon = true ∧ ¬ tuning.horizon ≤ 0
  samplingPeriod : Scalar.isFinite tuning.samplingPeriod = true ∧ ¬ tuning.samplingPeriod ≤ 0
  stateUnits : ∀ x ∈ state, Scalar.IsUnit x
  inputUnits : ∀ u ∈ input, Scalar.IsUnit u
  weight : terminalWeight.IsWeight state.length
  scales : tuning.upperScales.length = input.length
  /-- Without inputs there is no lower bound to scale. -/
  lowerScale : input ≠ [] → Scalar.isFinite tuning.lowerScale = true
  upperScales : ∀ scale ∈ tuning.upperScales, Scalar.isFinite scale = true

/-- Unit cost for a deviation by a nominal value, and bounds that are multiples of the nominal
inputs. -/
def normalized (state input : List α) (terminalWeight : Matrix α) (tuning : Tuning α) :
    Design α where
  lowerBounds := input.map fun u => tuning.lowerScale * u
  upperBounds := List.zipWith (fun scale u => scale * u) tuning.upperScales input
  stateWeight := Matrix.diagonal (state.map fun x => 1 / (x * x))
  inputWeight := Matrix.diagonal (input.map fun u => 1 / (u * u))
  terminalWeight := terminalWeight
  horizon := tuning.horizon
  intervals := tuning.intervals
  samplingPeriod := tuning.samplingPeriod
  linear := tuning.linear

theorem derive_eq_ok :
    derive state input terminalWeight tuning = .ok design ↔
      Admissible state input terminalWeight tuning ∧
        normalized state input terminalWeight tuning = design := by
  have hlower : (∀ x ∈ input.map fun _ => tuning.lowerScale, Scalar.isFinite x = true) ↔
      (input ≠ [] → Scalar.isFinite tuning.lowerScale = true) := by
    rw [List.forall_mem_map]
    refine ⟨fun h hne => ?_, fun h u hu => h (List.ne_nil_of_mem hu)⟩
    exact h _ (List.getLast_mem hne)
  simp only [derive, guard_eq_ok, bind_unit_eq_ok, bind_eq_ok (β := Matrix α),
    checkPositive_eq_ok, inverseSquares_eq_ok, checkWeight_eq_ok, checkDimension_eq_ok,
    checkFinite_eq_ok, pure_eq_ok, hlower]
  constructor
  · rintro ⟨hintervals, hhorizon, hperiod, _, ⟨hstate, rfl⟩, _, ⟨hinput, rfl⟩, hweight, hscales,
      hlowerScale, hupperScales, rfl⟩
    exact ⟨⟨hintervals, hhorizon, hperiod, hstate, hinput, hweight, hscales.symm, hlowerScale,
      hupperScales⟩, rfl⟩
  · rintro ⟨h, rfl⟩
    exact ⟨h.intervals, h.horizon, h.samplingPeriod, _, ⟨h.stateUnits, rfl⟩, _,
      ⟨h.inputUnits, rfl⟩, h.weight, h.scales.symm, h.lowerScale, h.upperScales, rfl⟩

/-- What a later validation relies on. -/
structure Derived (design : Design α) : Prop where
  intervals : design.intervals ≠ 0
  horizon : Scalar.isFinite design.horizon = true ∧ ¬ design.horizon ≤ 0
  stateWeight : design.stateWeight.IsDiagonal
  stateNonneg : ∀ x ∈ design.stateWeight.entries, 0 ≤ x
  inputWeight : design.inputWeight.IsDiagonal
  inputNonneg : ∀ x ∈ design.inputWeight.entries, 0 ≤ x
  terminalWeight : design.terminalWeight.IsWeight design.states
  lower : design.lowerBounds.length = design.inputs
  upper : design.upperBounds.length = design.inputs

omit [Spectral α] in
theorem inverseSquares_nonneg [LawfulSigns α] {v : List α} (hv : ∀ x ∈ v, Scalar.IsUnit x) :
    ∀ w ∈ (Matrix.diagonal (v.map fun x => 1 / (x * x))).entries, 0 ≤ w := by
  refine Matrix.forall_mem_entries_diagonal LawfulSigns.zero_le_zero fun w hw => ?_
  obtain ⟨x, hx, rfl⟩ := List.mem_map.1 hw
  exact LawfulSigns.zero_le_inverse_square x (hv x hx).finite

theorem derived_of_derive [LawfulSigns α]
    (hderive : derive state input terminalWeight tuning = .ok design) : design.Derived := by
  obtain ⟨h, rfl⟩ := derive_eq_ok.1 hderive
  have hstates : (normalized state input terminalWeight tuning).states = state.length :=
    List.length_map _
  have hinputs : (normalized state input terminalWeight tuning).inputs = input.length :=
    List.length_map _
  exact {
    intervals := h.intervals
    horizon := h.horizon
    stateWeight := Matrix.isDiagonal_diagonal _
    stateNonneg := inverseSquares_nonneg h.stateUnits
    inputWeight := Matrix.isDiagonal_diagonal _
    inputNonneg := inverseSquares_nonneg h.inputUnits
    terminalWeight := hstates ▸ h.weight
    lower := (List.length_map _).trans hinputs.symm
    upper := by
      rw [hinputs, normalized, List.length_zipWith, h.scales, Nat.min_self] }

end Design

end RecedingHorizon
