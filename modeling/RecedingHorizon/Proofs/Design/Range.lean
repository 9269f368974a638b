import Mathlib
import RecedingHorizon.Proofs.Binary64.Range
import RecedingHorizon.Proofs.Design

/-!
The range of nominal values. A derivation checks the numbers that it is given and not those that it
computes from them: the reciprocal of a square overflows for a nominal value that is tiny, and a
bound overflows if it is a large multiple of a large value. Within the range in which neither does,
no later check of the weights and bounds can fail; outside it one of them has an infinite entry.
-/

namespace RecedingHorizon.Design

open Binary64 (number overflow)

/-- Weights and bounds that no later stage has to refuse. -/
structure Usable [Spectral Float] (states inputs : Nat) (design : Design Float) : Prop where
  stateWeight : ∀ field, checkWeight field states design.stateWeight = .ok ()
  inputWeight : ∀ field, checkWeight field inputs design.inputWeight = .ok ()
  terminalWeight : ∀ field, checkWeight field states design.terminalWeight = .ok ()
  lowerLength : design.lowerBounds.length = inputs
  lower : ∀ bound ∈ design.lowerBounds, bound.isFinite = true
  upperLength : design.upperBounds.length = inputs
  upper : ∀ bound ∈ design.upperBounds, bound.isFinite = true

/-- Nominal values whose squares have reciprocals, and scales whose multiples of them are not
rounded to infinity. -/
structure InRange (state input : List Float) (tuning : Tuning Float) : Prop where
  states : ∀ x ∈ state, 1 / 2 ^ 512 < |number x|
  inputs : ∀ u ∈ input, 1 / 2 ^ 512 < |number u|
  lower : ∀ u ∈ input, |number tuning.lowerScale * number u| < overflow
  upper : ∀ scale u, (scale, u) ∈ tuning.upperScales.zip input →
    |number scale * number u| < overflow

/-! ### Weights -/

theorem isFinite_inverseSquares_iff {v : List Float} (hv : ∀ x ∈ v, Scalar.IsUnit x) :
    (∀ w ∈ (Matrix.diagonal (v.map fun x => 1 / (x * x))).entries, Scalar.isFinite w = true) ↔
      ∀ x ∈ v, 1 / 2 ^ 512 < |number x| := by
  have hentry {x : Float} (hx : x ∈ v) :
      (1 / (x * x)).isFinite = true ↔ 1 / 2 ^ 512 < |number x| :=
    Binary64.isFinite_one_div_mul_self_iff_abs (hv x hx).finite
  constructor
  · intro h x hx
    exact (hentry hx).1 (h _ (Matrix.mem_entries_diagonal (List.mem_map_of_mem hx)))
  · intro h
    refine Matrix.forall_mem_entries_diagonal LawfulScalar.isFinite_zero fun w hw => ?_
    obtain ⟨x, hx, rfl⟩ := List.mem_map.1 hw
    exact (hentry hx).2 (h x hx)

/-- Reciprocals of squares are a weight as soon as they are finite. -/
theorem checkWeight_inverseSquares_iff [Spectral Float] [LawfulSpectral Float] {v : List Float}
    (hv : ∀ x ∈ v, Scalar.IsUnit x) (field : String) :
    checkWeight field v.length (Matrix.diagonal (v.map fun x => 1 / (x * x))) = .ok () ↔
      ∀ x ∈ v, 1 / 2 ^ 512 < |number x| := by
  rw [checkWeight_eq_ok, ← isFinite_inverseSquares_iff hv]
  refine ⟨fun h => h.finite, fun h => ?_⟩
  exact (Matrix.isDiagonal_diagonal _).isWeight (List.length_map _) (inverseSquares_nonneg hv) h

/-! ### Designs -/

variable {state input : List Float} {terminalWeight : Matrix Float} {tuning : Tuning Float}
  {design : Design Float}

/-- A derived design has weights and bounds of the right size, whose entries are not negative where
they have to be; whether all of them are usable depends on the range of the nominal values alone. -/
theorem usable_iff_inRange [Spectral Float] [LawfulSpectral Float]
    (hderive : derive state input terminalWeight tuning = .ok design) :
    design.Derived ∧ design.states = state.length ∧ design.inputs = input.length ∧
      (design.Usable state.length input.length ↔ InRange state input tuning) := by
  have hderived := derived_of_derive hderive
  obtain ⟨h, rfl⟩ := derive_eq_ok.1 hderive
  have hinputs : (normalized state input terminalWeight tuning).inputs = input.length :=
    List.length_map _
  have hlower : (∀ bound ∈ input.map fun u => tuning.lowerScale * u, bound.isFinite = true) ↔
      ∀ u ∈ input, |number tuning.lowerScale * number u| < overflow := by
    rw [List.forall_mem_map]
    refine forall₂_congr fun u hu => Binary64.isFinite_mul_iff_abs ?_ (h.inputUnits u hu).finite
    exact h.lowerScale (List.ne_nil_of_mem hu)
  have hupper : (∀ bound ∈ List.zipWith (fun scale u => scale * u) tuning.upperScales input,
      bound.isFinite = true) ↔ ∀ scale u, (scale, u) ∈ tuning.upperScales.zip input →
        |number scale * number u| < overflow := by
    rw [← List.map_uncurry_zip_eq_zipWith, List.forall_mem_map, Prod.forall]
    refine forall₃_congr fun scale u hmem => ?_
    obtain ⟨hscale, hu⟩ := List.of_mem_zip hmem
    exact Binary64.isFinite_mul_iff_abs (h.upperScales scale hscale) (h.inputUnits u hu).finite
  refine ⟨hderived, List.length_map _, hinputs, fun husable => ?_, fun hrange => ?_⟩
  · exact {
      states := (checkWeight_inverseSquares_iff h.stateUnits "Q").1 (husable.stateWeight "Q")
      inputs := (checkWeight_inverseSquares_iff h.inputUnits "R").1 (husable.inputWeight "R")
      lower := hlower.1 husable.lower
      upper := hupper.1 husable.upper }
  · exact {
      stateWeight := fun field =>
        (checkWeight_inverseSquares_iff h.stateUnits field).2 hrange.states
      inputWeight := fun field =>
        (checkWeight_inverseSquares_iff h.inputUnits field).2 hrange.inputs
      terminalWeight := fun field => checkWeight_eq_ok.2 h.weight
      lowerLength := hderived.lower.trans hinputs
      lower := hlower.2 hrange.lower
      upperLength := hderived.upper.trans hinputs
      upper := hupper.2 hrange.upper }

theorem number_two : number 2 = 2 := by
  have hunpack : (2 : Float).toModel.unpack = .finite .positive (2 ^ 52) (-51) (by decide) := rfl
  rw [number, hunpack]
  norm_num [Binary64.value, Float.Model.UnpackedFloat.Sign.apply]

/-- Bounds of four, a double of two. -/
def twofold : Tuning Float := { Tuning.standard with lowerScale := 2, upperScales := [2] }

theorem usable_iff_inRange_two :
    ∃ design, derive ([2] : List Float) [2] ⟨1, 1, [1], rfl⟩ twofold = .ok design ∧
      design.Usable 1 1 := by
  have hderive : derive ([2] : List Float) [2] ⟨1, 1, [1], rfl⟩ twofold =
      .ok (normalized [2] [2] ⟨1, 1, [1], rfl⟩ twofold) := by
    decide +kernel
  have hscaled {a b : ℚ} (n : ℕ) (hb : 0 ≤ b) (hlt : a < b) : a < b * 2 ^ n :=
    hlt.trans_le (le_mul_of_one_le_right hb (one_le_pow₀ one_le_two))
  have hunit : 1 / 2 ^ 512 < |number 2| := by
    rw [number_two, div_lt_iff₀ (pow_pos two_pos _)]
    exact hscaled 512 (abs_nonneg 2) (by norm_num)
  have hproduct : |number 2 * number 2| < overflow := by
    rw [number_two]
    exact hscaled 970 (by norm_num) (by norm_num)
  refine ⟨_, hderive, (usable_iff_inRange hderive).2.2.2.2 ?_⟩
  exact ⟨by simpa using hunit, by simpa using hunit, by simpa [twofold] using hproduct,
    by simpa [twofold] using hproduct⟩

/-- A nominal value that is so small that its square is rounded to zero is accepted, and the weight
that is derived from it is refused by any check. -/
theorem derive_infinite_weight :
    ∃ design, derive ([1e-200, 324.5, 0.659] : List Float) [2]
        ⟨3, 3, [1, 0, 0, 0, 1, 0, 0, 0, 1], rfl⟩ twofold = .ok design ∧
      checkWeight "Q" 3 design.stateWeight = .error (.notFiniteEntry "Q" 0 0) ∧
      ¬ design.Usable 3 1 := by
  have hrefused : checkWeight "Q" 3 (normalized ([1e-200, 324.5, 0.659] : List Float) [2]
      ⟨3, 3, [1, 0, 0, 0, 1, 0, 0, 0, 1], rfl⟩ twofold).stateWeight =
        .error (.notFiniteEntry "Q" 0 0) := by
    decide +kernel
  refine ⟨_, by decide +kernel, hrefused, fun husable => ?_⟩
  cases hrefused.symm.trans (husable.stateWeight "Q")

end RecedingHorizon.Design
