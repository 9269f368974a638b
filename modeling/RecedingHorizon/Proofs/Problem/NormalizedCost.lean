import Mathlib
import RecedingHorizon.Proofs.Exact
import RecedingHorizon.Proofs.Problem.Recentre

/-!
Costs of designed problems in exact arithmetic. The weights of a derived design are the inverse
squares of the nominal values, side by side, so the double sum of a quadratic form comes down to one
sum of squares: of the deviations from the centre of the problem, each measured in its nominal value.
The terminal cost is the quadratic form of the given weight at the deviation of the states.
-/

namespace RecedingHorizon

/-! ### Quadratic forms of the weights -/

theorem Matrix.quadraticForm_inverseSquares (v : List ℝ) (r : ℕ → ℝ) :
    (Matrix.diagonal (v.map fun x => 1 / (x * x))).quadraticForm r =
      ∑ i ∈ Finset.range v.length, (r i / v.getD i 0) ^ 2 := by
  rw [Matrix.quadraticForm_diagonal, Finset.sum_range]
  refine Fintype.sum_equiv (finCongr (List.length_map _)) _ _ fun i => ?_
  have hi : i.val < v.length := by simpa using i.isLt
  simp only [List.get_eq_getElem, List.getElem_map, finCongr_apply, Fin.val_cast,
    List.getD_eq_getElem _ _ hi]
  field_simp

namespace Problem

theorem halfQuadratic_eq {field : String} {m : Matrix ℝ} {r : List ℝ} (hrows : m.rows = r.length)
    (hcols : m.cols = r.length) :
    halfQuadratic field m r = .ok (m.quadraticForm (fun i => r.getD i 0) / 2) := by
  have hproduct : r.length = (List.ofFn fun i => dot (m.row i) r).length := by
    rw [List.length_ofFn, hrows]
  have hentry (i : Fin m.rows) : dot (m.row i) r = ∑ j : Fin m.cols, m.get i j * r.getD j 0 := by
    rw [dot_eq_sum (m.length_row i) hcols.symm]
    simp [Matrix.row]
  have hform : dot r (List.ofFn fun i => dot (m.row i) r) =
      m.quadraticForm fun i => r.getD i 0 := by
    rw [dot_eq_sum hrows.symm List.length_ofFn]
    refine Finset.sum_congr rfl fun i _ => ?_
    simp [hentry, Finset.mul_sum, mul_assoc]
  simp only [halfQuadratic, bind_eq_ok, defined_eq_ok, pure_eq_ok]
  refine ⟨(), checkDimension_eq_ok.2 hrows.symm, (), checkDimension_eq_ok.2 hcols.symm,
    _, if_pos hcols, _, if_pos hproduct, ?_⟩
  rw [hform]
  change (0.5 : ℝ) * _ = _
  ring

/-! ### The centre of a built problem -/

/-- The point that residuals are measured from: the segment that the last runtime parameter selects,
and zero if there is no profile. -/
structure IsCentre (plant : Plant) (profile : Option (Profile ℝ)) (q centre : List ℝ) : Prop where
  none : profile = none → centre = List.replicate (plant.states + plant.inputs) 0
  some : ∀ given, profile = some given → ∃ selector, q[plant.parameters]? = some selector ∧
    given.segments[min ⌊selector⌋₊ (given.segments.length - 1)]? = some centre

variable {plant : Plant} {design : Design ℝ} {point : OperatingPoint ℝ} {setup : Setup ℝ}
  {p : Problem ℝ} {x u q : List ℝ}

theorem zipWith_sub_replicate_zero {n : ℕ} {v : List ℝ} (h : v.length ≤ n) :
    List.zipWith (· - ·) v (List.replicate n 0) = v.map (· - 0) := by
  refine List.ext_getElem ?_ fun i _ _ => by simp
  rw [List.length_zipWith, List.length_replicate, List.length_map]
  exact min_eq_left h

theorem exists_centre (hbuild : build plant design point setup = .ok p)
    (hx : x.length = plant.states) (hu : u.length = plant.inputs)
    (hq : q.length = p.dimensions.parameters) :
    ∃ centre, IsCentre plant setup.profile q centre ∧
      centre.length = plant.states + plant.inputs ∧
      p.stageResidual x u q = .ok (List.zipWith (· - ·) (x ++ u) centre) ∧
      p.terminalResidual x q = .ok (List.zipWith (· - ·) x centre) := by
  obtain ⟨hp, hparameters, options, hassembled⟩ := assembled_of_build hbuild
  cases hprofile : setup.profile with
  | none =>
      rw [hprofile] at hassembled
      subst hassembled
      obtain ⟨hstage, hterminal⟩ := residuals_of_none hp hx hu hq
      refine ⟨List.replicate (plant.states + plant.inputs) 0, ⟨fun _ => rfl, nofun⟩,
        List.length_replicate, ?_, ?_⟩
      · rw [hstage, zipWith_sub_replicate_zero]
        rw [List.length_append, hx, hu]
      · rw [hterminal, zipWith_sub_replicate_zero]
        omega
  | some profile =>
      rw [hprofile] at hassembled
      subst hassembled
      obtain ⟨selector, segment, hselector, hselect, hlength, hstage, hterminal⟩ :=
        residuals_of_some hp hx hu hq
      rw [hparameters] at hselector
      have hsub : (fun y t : ℝ => y - t - 0) = (· - ·) := by
        funext y t
        exact sub_zero _
      rw [hsub] at hstage hterminal
      refine ⟨segment, ⟨nofun, ?_⟩, hlength, hstage, hterminal⟩
      rintro _ ⟨rfl⟩
      exact ⟨selector, hselector, hselect⟩

/-! ### Costs -/

section Costs

variable {state input : List ℝ} {terminalWeight : Matrix ℝ} {tuning : Tuning ℝ}
  {centre : List ℝ}

/-- A deviation from the centre, entry by entry. -/
theorem getD_zipWith_sub {v w : List ℝ} {i : ℕ} (hv : i < v.length) (hw : i < w.length) :
    (List.zipWith (· - ·) v w).getD i 0 = v.getD i 0 - w.getD i 0 := by
  simp [hv, hw]

theorem weights_of_build (hbuild : build plant design point setup = .ok p) :
    design.states = plant.states ∧ design.inputs = plant.inputs ∧
      p.cost.stageWeight = .blockDiagonal design.stateWeight design.inputWeight ∧
      p.cost.terminalWeight = design.terminalWeight := by
  obtain ⟨hdraft, -⟩ := build_eq_ok.1 hbuild
  obtain ⟨hingredients, ⟨options, -, rfl⟩, -⟩ := draft_eq_ok_iff.1 hdraft
  exact ⟨hingredients.stateWeight, hingredients.inputWeight, rfl, rfl⟩

theorem lengths_of_derive (hderive : Design.derive state input terminalWeight tuning = .ok design)
    (hbuild : build plant design point setup = .ok p) :
    state.length = plant.states ∧ input.length = plant.inputs := by
  obtain ⟨-, rfl⟩ := Design.derive_eq_ok.1 hderive
  obtain ⟨hstates, hinputs, -⟩ := weights_of_build hbuild
  exact ⟨(List.length_map _).symm.trans hstates, (List.length_map _).symm.trans hinputs⟩

/-- The sum of the squared deviations, each in the unit of its nominal value. -/
noncomputable def normalizedSquares (state input x u centre : List ℝ) : ℝ :=
  ∑ i ∈ Finset.range state.length, ((x.getD i 0 - centre.getD i 0) / state.getD i 0) ^ 2 +
    ∑ j ∈ Finset.range input.length,
      ((u.getD j 0 - centre.getD (state.length + j) 0) / input.getD j 0) ^ 2

theorem stageCost_of_residual
    (hderive : Design.derive state input terminalWeight tuning = .ok design)
    (hbuild : build plant design point setup = .ok p) (hx : x.length = plant.states)
    (hu : u.length = plant.inputs) (hcentre : centre.length = plant.states + plant.inputs)
    (hstage : p.stageResidual x u q = .ok (List.zipWith (· - ·) (x ++ u) centre)) :
    p.stageCost x u q = .ok (normalizedSquares state input x u centre / 2) := by
  obtain ⟨hstate, hinput⟩ := lengths_of_derive hderive hbuild
  obtain ⟨-, rfl⟩ := Design.derive_eq_ok.1 hderive
  obtain ⟨hstates, hinputs, hweight, -⟩ := weights_of_build hbuild
  have hpoint : (x ++ u).length = plant.states + plant.inputs := by
    rw [List.length_append, hx, hu]
  have hlength : (List.zipWith (· - ·) (x ++ u) centre).length = plant.states + plant.inputs := by
    rw [List.length_zipWith, hpoint, hcentre, min_self]
  have hrows : p.cost.stageWeight.rows = plant.states + plant.inputs := by
    rw [hweight]
    exact congrArg₂ (· + ·) hstates hinputs
  have hcols : p.cost.stageWeight.cols = plant.states + plant.inputs := by
    rw [hweight]
    exact congrArg₂ (· + ·) hstates hinputs
  rw [stageCost, hstage]
  refine (halfQuadratic_eq (hrows.trans hlength.symm) (hcols.trans hlength.symm)).trans ?_
  -- the form of the two diagonal blocks is a sum of squares over the states and one over the inputs
  have hform : p.cost.stageWeight.quadraticForm
      (fun i => (List.zipWith (· - ·) (x ++ u) centre).getD i 0) =
        normalizedSquares state input x u centre := by
    rw [hweight, Matrix.quadraticForm_blockDiagonal rfl, normalizedSquares]
    refine congrArg₂ (· + ·) ?_ ?_
    · refine (Matrix.quadraticForm_inverseSquares _ _).trans (Finset.sum_congr rfl fun i hi => ?_)
      have hlt : i < x.length := by
        rw [hx, ← hstate]
        exact Finset.mem_range.1 hi
      rw [getD_zipWith_sub (by omega) (by omega), List.getD_append _ _ _ _ hlt]
    · refine (Matrix.quadraticForm_inverseSquares _ _).trans (Finset.sum_congr rfl fun j hj => ?_)
      have hlt : j < u.length := by
        rw [hu, ← hinput]
        exact Finset.mem_range.1 hj
      have hoffset : (Design.normalized state input terminalWeight tuning).stateWeight.rows =
          state.length := List.length_map _
      have hright : x.length ≤ state.length + j := by omega
      have hindex : state.length + j - x.length = j := by omega
      rw [hoffset, getD_zipWith_sub (by omega) (by omega), List.getD_append_right _ _ _ _ hright,
        hindex]
  rw [hform]

theorem normalizedSquares_nonneg (state input x u centre : List ℝ) :
    0 ≤ normalizedSquares state input x u centre :=
  add_nonneg (Finset.sum_nonneg fun _ _ => sq_nonneg _) (Finset.sum_nonneg fun _ _ => sq_nonneg _)

/-- In units that are not zero, only the centre has no deviation. -/
theorem normalizedSquares_eq_zero_iff (hstate : ∀ s ∈ state, s ≠ 0) (hinput : ∀ s ∈ input, s ≠ 0)
    (hx : x.length = state.length) (hu : u.length = input.length)
    (hcentre : centre.length = state.length + input.length) :
    normalizedSquares state input x u centre = 0 ↔ x ++ u = centre := by
  have hquotient {units : List ℝ} (hunits : ∀ s ∈ units, s ≠ 0) {i : ℕ} (hi : i < units.length)
      (a b : ℝ) : ((a - b) / units.getD i 0) ^ 2 = 0 ↔ a = b := by
    have hne : units.getD i 0 ≠ 0 := by
      rw [List.getD_eq_getElem _ _ hi]
      exact hunits _ (List.getElem_mem hi)
    rw [sq_eq_zero_iff, div_eq_zero_iff, or_iff_left hne, sub_eq_zero]
  have hsum {n : ℕ} (f : ℕ → ℝ) :
      ∑ i ∈ Finset.range n, f i ^ 2 = 0 ↔ ∀ i < n, f i ^ 2 = 0 := by
    rw [Finset.sum_eq_zero_iff_of_nonneg fun _ _ => sq_nonneg _]
    simp only [Finset.mem_range]
  rw [normalizedSquares, add_eq_zero_iff_of_nonneg (Finset.sum_nonneg fun _ _ => sq_nonneg _)
    (Finset.sum_nonneg fun _ _ => sq_nonneg _), hsum, hsum]
  constructor
  · rintro ⟨hstates, hinputs⟩
    refine List.ext_getElem ?_ fun i hi hi' => ?_
    · rw [List.length_append, hx, hu, hcentre]
    · by_cases hlt : i < x.length
      · have hentry := (hquotient hstate (hx ▸ hlt) _ _).1 (hstates i (hx ▸ hlt))
        rw [List.getElem_append_left hlt]
        rwa [List.getD_eq_getElem _ _ hlt, List.getD_eq_getElem _ _ hi'] at hentry
      · have hj : i - x.length < u.length := by
          rw [List.length_append] at hi
          omega
        have hentry := (hquotient hinput (hu ▸ hj) _ _).1 (hinputs _ (hu ▸ hj))
        rw [List.getElem_append_right (Nat.le_of_not_lt hlt)]
        rw [← hx, Nat.add_sub_cancel' (Nat.le_of_not_lt hlt)] at hentry
        rwa [List.getD_eq_getElem _ _ hj, List.getD_eq_getElem _ _ hi'] at hentry
  · rintro rfl
    refine ⟨fun i hi => (hquotient hstate hi _ _).2 ?_, fun j hj => (hquotient hinput hj _ _).2 ?_⟩
    · rw [List.getD_append _ _ _ _ (hx.symm ▸ hi)]
    · rw [← hx, List.getD_append_right _ _ _ _ (Nat.le_add_right _ _), Nat.add_sub_cancel_left]

theorem terminalCost_of_residual
    (hderive : Design.derive state input terminalWeight tuning = .ok design)
    (hbuild : build plant design point setup = .ok p) (hx : x.length = plant.states)
    (hcentre : centre.length = plant.states + plant.inputs)
    (hterminal : p.terminalResidual x q = .ok (List.zipWith (· - ·) x centre)) :
    p.terminalCost x q =
      .ok (terminalWeight.quadraticForm (fun i => x.getD i 0 - centre.getD i 0) / 2) := by
  obtain ⟨hstate, -⟩ := lengths_of_derive hderive hbuild
  obtain ⟨hadmissible, rfl⟩ := Design.derive_eq_ok.1 hderive
  obtain ⟨-, -, -, hweight⟩ := weights_of_build hbuild
  have hlength : (List.zipWith (· - ·) x centre).length = x.length := by
    rw [List.length_zipWith]
    omega
  have hrows : terminalWeight.rows = x.length := by
    rw [hadmissible.weight.rows, hstate, hx]
  have hcols : terminalWeight.cols = x.length := hadmissible.weight.square.trans hrows
  rw [terminalCost, hterminal, hweight]
  refine (halfQuadratic_eq (hrows.trans hlength.symm) (hcols.trans hlength.symm)).trans ?_
  have hform : terminalWeight.quadraticForm (fun i => (List.zipWith (· - ·) x centre).getD i 0) =
      terminalWeight.quadraticForm fun i => x.getD i 0 - centre.getD i 0 := by
    refine Matrix.quadraticForm_congr hadmissible.weight.square fun i hi => ?_
    exact getD_zipWith_sub (by omega) (by omega)
  exact congrArg (fun form => Except.ok (form / 2)) hform

/-- At the nominal values every deviation from zero is one unit. -/
theorem normalizedSquares_nominal (hstate : ∀ s ∈ state, s ≠ 0) (hinput : ∀ s ∈ input, s ≠ 0) :
    normalizedSquares state input state input (List.replicate (state.length + input.length) 0) =
      (state.length + input.length : ℕ) := by
  have hunit {units : List ℝ} (hunits : ∀ s ∈ units, s ≠ 0) :
      ∑ i ∈ Finset.range units.length, ((units.getD i 0 - 0) / units.getD i 0) ^ 2 =
        (units.length : ℝ) := by
    have hone (i : ℕ) (hi : i ∈ Finset.range units.length) :
        ((units.getD i 0 - 0) / units.getD i 0) ^ 2 = 1 := by
      have hlt : i < units.length := Finset.mem_range.1 hi
      have hne : units[i] ≠ 0 := hunits _ (List.getElem_mem hlt)
      simp [hlt, hne]
    rw [Finset.sum_congr rfl hone, Finset.sum_const, Finset.card_range, nsmul_eq_mul, mul_one]
  have hzero (n i : ℕ) : (List.replicate n (0 : ℝ)).getD i 0 = 0 := by
    rw [List.getD_eq_getElem?_getD, List.getElem?_getD_replicate_default_eq]
  simp only [normalizedSquares, hzero, hunit hstate, hunit hinput, Nat.cast_add]

end Costs

/-- In exact arithmetic, the stage cost of a problem built from a derived design is half the sum of
the squared deviations from the centre, each in the unit of its nominal value, and the terminal cost
is half the quadratic form of the given weight at the deviation of the states. So a stage costs
nothing at the centre alone, and half a unit for every state and input at the nominal values if the
centre is zero. -/
theorem cost_of_derive {state input : List ℝ} {terminalWeight : Matrix ℝ} {tuning : Tuning ℝ}
    (hderive : Design.derive state input terminalWeight tuning = .ok design)
    (hbuild : build plant design point setup = .ok p) :
    state.length = plant.states ∧ input.length = plant.inputs ∧
    (∀ x u q, x.length = plant.states → u.length = plant.inputs →
      q.length = p.dimensions.parameters →
      ∃ centre cost, IsCentre plant setup.profile q centre ∧
        p.stageCost x u q = .ok cost ∧
        cost = normalizedSquares state input x u centre / 2 ∧
        p.terminalCost x q =
          .ok (terminalWeight.quadraticForm (fun i => x.getD i 0 - centre.getD i 0) / 2) ∧
        0 ≤ cost ∧ (cost = 0 ↔ x ++ u = centre)) ∧
    (setup.profile = none → ∀ q, q.length = p.dimensions.parameters →
      p.stageCost state input q = .ok ((plant.states + plant.inputs : ℕ) / 2)) := by
  obtain ⟨hadmissible, -⟩ := Design.derive_eq_ok.1 hderive
  have hsizes := lengths_of_derive hderive hbuild
  have hnonzero {units : List ℝ} (hunits : ∀ s ∈ units, Scalar.IsUnit s) : ∀ s ∈ units, s ≠ 0 := by
    rintro s hs rfl
    simpa [Scalar.isZero] using (hunits _ hs).nonzero
  have hstate := hnonzero hadmissible.stateUnits
  have hinput := hnonzero hadmissible.inputUnits
  refine ⟨hsizes.1, hsizes.2, fun x u q hx hu hq => ?_, fun hprofile q hq => ?_⟩
  · obtain ⟨centre, hcentre, hlength, hstage, hterminal⟩ := exists_centre hbuild hx hu hq
    refine ⟨centre, _, hcentre, stageCost_of_residual hderive hbuild hx hu hlength hstage, rfl,
      terminalCost_of_residual hderive hbuild hx hlength hterminal,
      div_nonneg (normalizedSquares_nonneg ..) zero_le_two, ?_⟩
    rw [div_eq_zero_iff, or_iff_left two_ne_zero]
    exact normalizedSquares_eq_zero_iff hstate hinput (hx.trans hsizes.1.symm)
      (hu.trans hsizes.2.symm) (by omega)
  · obtain ⟨centre, hcentre, hlength, hstage, -⟩ := exists_centre hbuild hsizes.1 hsizes.2 hq
    rw [stageCost_of_residual hderive hbuild hsizes.1 hsizes.2 hlength hstage,
      hcentre.none hprofile, ← hsizes.1, ← hsizes.2, normalizedSquares_nominal hstate hinput]

end Problem

/-! ### A tank in exact arithmetic -/

namespace Tank

noncomputable def exactTuning : Tuning ℝ where
  samplingPeriod := 2
  linear := false
  intervals := 2
  horizon := 4
  lowerScale := 0
  upperScales := [4]

/-- The tank at level two, with an inflow of a half, and a second set-point at twice of both. -/
noncomputable def exactSetup : Setup ℝ where
  realTime := false
  profile := some ⟨[[2, 1 / 2], [4, 1]]⟩
  costIntegration := false
  qpSolver := .partialCondensingHpipm
  levenbergMarquardt := 0
  maxIterations := 100
  tolerance := 1

noncomputable def exactWeight : Matrix ℝ := Matrix.diagonal [4]

noncomputable def exactDesign : Design ℝ := .normalized [2] [1 / 2] exactWeight exactTuning

noncomputable def exactPoint : OperatingPoint ℝ where
  state := [2]
  input := [1 / 2]
  parameters := []

theorem derive_exactDesign : Design.derive [2] [1 / 2] exactWeight exactTuning = .ok exactDesign := by
  have hunit {x : ℝ} (hx : 0 < x) : Scalar.IsUnit x :=
    ⟨rfl, by simp [Scalar.isZero, not_le.2 hx]⟩
  refine Design.derive_eq_ok.2 ⟨{
    intervals := by decide
    horizon := ⟨rfl, by norm_num [exactTuning]⟩
    samplingPeriod := ⟨rfl, by norm_num [exactTuning]⟩
    stateUnits := by simpa using hunit two_pos
    inputUnits := by simpa using hunit (show (0 : ℝ) < 2⁻¹ by norm_num)
    weight := ?_
    scales := rfl
    lowerScale := fun _ => rfl
    upperScales := fun _ _ => rfl }, rfl⟩
  have hnonneg : ∀ w ∈ exactWeight.entries, 0 ≤ w :=
    Matrix.forall_mem_entries_diagonal le_rfl (by norm_num)
  exact (Matrix.isDiagonal_diagonal [4]).isWeight rfl hnonneg fun _ _ => rfl

theorem consistent_exactDesign : Problem.Consistent plant exactDesign exactPoint exactSetup where
  state := rfl
  stateFinite _ _ := rfl
  input := rfl
  parameters := rfl
  parametersFinite := nofun
  states := rfl
  inputs := rfl
  options := by
    simp only [configure, bind_eq_ok, guard_eq_ok, pure_eq_ok]
    refine ⟨_, _, rfl, ?_, by decide, ?_, rfl⟩
    · rintro (hinfinite | hnegative)
      · cases hinfinite
      · exact lt_irrefl (0 : ℝ) hnegative
    · rintro (hinfinite | hnonpositive)
      · cases hinfinite
      · exact not_le.2 zero_lt_one hnonpositive
  profile := by
    rintro _ ⟨rfl⟩
    exact ⟨nofun, by simp [plant], fun _ _ _ _ => rfl⟩
  stateWeight _ _ := rfl
  inputWeight _ _ := rfl
  lower _ _ := rfl
  upper _ _ := rfl

end Tank

namespace Problem

/-- One unit of level and half a unit of inflow away from the second set-point. -/
theorem cost_of_derive_tank :
    ∃ p, build Tank.plant Tank.exactDesign Tank.exactPoint Tank.exactSetup = .ok p ∧
      p.stageCost [2] [1 / 2] [1] = .ok 1 ∧ p.terminalCost [2] [1] = .ok 8 := by
  obtain ⟨p, hbuild⟩ :=
    exists_build (show 1 + 1 < 2 ^ 64 by decide) (Design.derived_of_derive Tank.derive_exactDesign)
      Tank.consistent_exactDesign
  obtain ⟨-, -, hcosts, -⟩ := cost_of_derive Tank.derive_exactDesign hbuild
  have hslots : p.dimensions.parameters = 1 := by
    obtain ⟨-, -, options, rfl⟩ := assembled_of_build hbuild
    rfl
  obtain ⟨centre, cost, hcentre, hstage, rfl, hterminal, -⟩ :=
    hcosts [2] [1 / 2] [1] rfl rfl hslots.symm
  obtain ⟨selector, hselector, hsegment⟩ := hcentre.some _ rfl
  cases hselector
  have hcentre : centre = [4, 1] := by simpa using hsegment.symm
  subst hcentre
  refine ⟨p, hbuild, ?_, ?_⟩
  · rw [hstage]
    norm_num [normalizedSquares]
  · rw [hterminal]
    norm_num [Tank.exactWeight, Matrix.quadraticForm_diagonal]

end Problem

end RecedingHorizon
