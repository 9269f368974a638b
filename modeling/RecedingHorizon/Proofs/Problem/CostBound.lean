import Mathlib
import RecedingHorizon.Proofs.Exact.Semidefinite
import RecedingHorizon.Proofs.Problem.NormalizedCost

/-!
Lower bounds of costs. A validation looks at the lower triangle of a weight alone when it asks for the
least eigenvalue, and lets the upper triangle differ from it by the tolerance, while a cost reads the
whole matrix. So the quadratic form of a weight is split into that of its lower triangle, which the
validation bounds, and the rest, whose coefficients are as small as the tolerance.
-/

namespace RecedingHorizon

namespace Exact

variable {n : ℕ} {a b : Fin n → Fin n → ℝ} {tol : ℝ}

/-! ### Triangles -/

/-- What the upper triangle of a form has beyond a copy of the lower one. -/
theorem form_sub_form (a b : Fin n → Fin n → ℝ) (v : Fin n → ℝ) :
    form a v - form b v = ∑ i, ∑ j, v i * (a i j - b i j) * v j := by
  simp only [form, ← Finset.sum_sub_distrib]
  refine Finset.sum_congr rfl fun i _ => Finset.sum_congr rfl fun j _ => ?_
  ring

/-- Every entry is paired with all others but itself. -/
theorem sum_pairs (v : Fin n → ℝ) :
    ∑ i, ∑ j, (if i < j then v i ^ 2 + v j ^ 2 else 0) = (n - 1) * ∑ i, v i ^ 2 := by
  have hswap : ∑ i, ∑ j, (if i < j then v j ^ 2 else 0) =
      ∑ i, ∑ j, if j < i then v i ^ 2 else 0 := Finset.sum_comm
  have hsplit (i j : Fin n) : (if i < j then v i ^ 2 + v j ^ 2 else 0) =
      (if i < j then v i ^ 2 else 0) + if i < j then v j ^ 2 else 0 := by
    split <;> simp
  have hother (i j : Fin n) : (if i < j then v i ^ 2 else 0) + (if j < i then v i ^ 2 else 0) =
      v i ^ 2 - if i = j then v i ^ 2 else 0 := by
    rcases lt_trichotomy i j with hlt | rfl | hgt
    · simp [hlt, hlt.not_gt, hlt.ne]
    · simp
    · simp [hgt, hgt.not_gt, hgt.ne']
  simp only [hsplit, Finset.sum_add_distrib, hswap]
  simp only [← Finset.sum_add_distrib, hother, Finset.sum_sub_distrib, Finset.sum_const,
    Finset.sum_ite_eq, Finset.mem_univ, if_true, Finset.card_univ, Fintype.card_fin, nsmul_eq_mul,
    ← Finset.mul_sum]
  ring

/-- Two forms that differ by small coefficients above the diagonal. -/
theorem form_sub_form_ge (htol : 0 ≤ tol) (hlower : ∀ i j, j ≤ i → a i j = b i j)
    (hupper : ∀ i j, i < j → |a i j - b i j| ≤ tol) (v : Fin n → ℝ) :
    -tol * ((n - 1) / 2) * ∑ i, v i ^ 2 ≤ form a v - form b v := by
  have hpair (i j : Fin n) : -(tol / 2) * (if i < j then v i ^ 2 + v j ^ 2 else 0) ≤
      v i * (a i j - b i j) * v j := by
    split
    next hlt =>
      have hle : |v i * v j| ≤ (v i ^ 2 + v j ^ 2) / 2 := by
        rw [abs_le]
        constructor <;> nlinarith [sq_nonneg (v i + v j), sq_nonneg (v i - v j)]
      have hproduct : |(a i j - b i j) * (v i * v j)| ≤ tol * ((v i ^ 2 + v j ^ 2) / 2) := by
        rw [abs_mul]
        exact mul_le_mul (hupper i j hlt) hle (abs_nonneg _) htol
      have hneg := neg_le_of_abs_le hproduct
      linarith
    next hge => rw [hlower i j (not_lt.1 hge), sub_self, mul_zero, mul_zero, zero_mul]
  calc -tol * ((n - 1) / 2) * ∑ i, v i ^ 2
      = ∑ i, ∑ j, -(tol / 2) * (if i < j then v i ^ 2 + v j ^ 2 else 0) := by
        simp only [← Finset.mul_sum, sum_pairs]
        ring
    _ ≤ ∑ i, ∑ j, v i * (a i j - b i j) * v j :=
        Finset.sum_le_sum fun i _ => Finset.sum_le_sum fun j _ => hpair i j
    _ = form a v - form b v := (form_sub_form a b v).symm

/-- What a check guarantees of the form of the whole matrix. -/
theorem form_ge_of_checkWeight {m : Matrix ℝ} {field : String} {residuals : ℕ}
    (hcheck : checkWeight field residuals m = .ok ()) (hsquare : m.rows = m.cols)
    (v : Fin m.rows → ℝ) :
    -((residuals + 1) / 2) * tolerance (m.entry hsquare) * ∑ i, v i ^ 2 ≤
        form (m.entry hsquare) v ∧
      ((∀ i j, m.entry hsquare i j = m.entry hsquare j i) →
        -tolerance (m.entry hsquare) * ∑ i, v i ^ 2 ≤ form (m.entry hsquare) v) := by
  obtain rfl : m.rows = residuals := (shape_of_checkWeight hcheck).1
  rcases Nat.eq_zero_or_pos m.rows with hnone | hrows
  -- a matrix without rows has a form that is zero
  · have : IsEmpty (Fin m.rows) := hnone ▸ Fin.isEmpty
    simp [form]
  · obtain ⟨hsymm, hlower⟩ := (checkWeight_eq_ok_iff hsquare hrows).1 hcheck
    refine ⟨?_, fun hexact => lowerEntry_of_symmetric hsquare hexact ▸ hlower v⟩
    have hsame (i j : Fin m.rows) (hle : j ≤ i) :
        m.entry hsquare i j = lowerEntry m hsquare.symm i j := (if_pos hle).symm
    have hclose (i j : Fin m.rows) (hlt : i < j) :
        |m.entry hsquare i j - lowerEntry m hsquare.symm i j| ≤ tolerance (m.entry hsquare) := by
      have hcopy : lowerEntry m hsquare.symm i j = m.entry hsquare j i := if_neg hlt.not_ge
      rw [hcopy]
      exact hsymm i j hlt
    have hrest := form_sub_form_ge (tolerance_nonneg _) hsame hclose v
    have hbound := hlower v
    linarith

/-- The form of a square matrix, its entries read by the list of a vector. -/
theorem quadraticForm_eq_form {m : Matrix ℝ} (hsquare : m.rows = m.cols) (r : ℕ → ℝ) :
    m.quadraticForm r = form (m.entry hsquare) fun i => r i := by
  refine Finset.sum_congr rfl fun i _ => ?_
  exact (Fintype.sum_equiv (finCongr hsquare) _ _ fun j => rfl).symm

end Exact

/-! ### Costs -/

namespace Problem

open Exact

def sumSquares (r : List ℝ) : ℝ := (r.map (· ^ 2)).sum

theorem sumSquares_eq_sum {r : List ℝ} {n : ℕ} (hr : r.length = n) :
    sumSquares r = ∑ i : Fin n, r.getD i 0 ^ 2 := by
  subst hr
  rw [sumSquares, ← List.sum_ofFn]
  congr 1
  exact List.ext_getElem (by simp) fun i hi hi' => by simp

/-- How far below zero half the form of an accepted weight can be at a residual. -/
structure IsBounded (residuals : ℕ) (weight : Matrix ℝ) (r : List ℝ) (cost : ℝ) : Prop where
  length : r.length = residuals
  square : weight.rows = weight.cols
  bound : -((residuals + 1) / 4) * tolerance (weight.entry square) * sumSquares r ≤ cost
  symmetric : (∀ i j, weight.entry square i j = weight.entry square j i) →
    -(1 / 2) * tolerance (weight.entry square) * sumSquares r ≤ cost

theorem exists_halfQuadratic {field : String} {m : Matrix ℝ} {r : List ℝ} {residuals : ℕ}
    (hcheck : checkWeight field residuals m = .ok ()) (hr : r.length = residuals) :
    ∃ cost, halfQuadratic field m r = .ok cost ∧ IsBounded residuals m r cost := by
  obtain ⟨hrows, hcols⟩ := shape_of_checkWeight hcheck
  have hsquare : m.rows = m.cols := hrows.trans hcols.symm
  obtain ⟨hbound, hsymmetric⟩ := form_ge_of_checkWeight hcheck hsquare fun i => r.getD i 0
  refine ⟨_, halfQuadratic_eq (hrows.trans hr.symm) (hcols.trans hr.symm), hr, hsquare, ?_, ?_⟩
  · rw [quadraticForm_eq_form hsquare, sumSquares_eq_sum (hr.trans hrows.symm)]
    linarith
  · intro hexact
    have hform := hsymmetric hexact
    rw [quadraticForm_eq_form hsquare, sumSquares_eq_sum (hr.trans hrows.symm)]
    linarith

/-- In exact arithmetic, the costs of a valid problem are bounded below by small multiples of the
squares of its residuals, though its weights need not be quite symmetric or semi-definite. There is
a stage cost at every point, and a terminal cost if the segments have all targets of its map. -/
theorem cost_bounded_below {p : Problem ℝ} (hvalid : p.validate = .ok ()) {x u q : List ℝ}
    (hx : x.length = p.dimensions.states) (hu : u.length = p.dimensions.inputs)
    (hq : q.length = p.dimensions.parameters) :
    (∃ r cost, p.stageResidual x u q = .ok r ∧ p.stageCost x u q = .ok cost ∧
      IsBounded p.dimensions.stageResiduals p.cost.stageWeight r cost) ∧
    (∀ cost, p.terminalCost x q = .ok cost → ∃ r, p.terminalResidual x q = .ok r ∧
      IsBounded p.dimensions.terminalResiduals p.cost.terminalWeight r cost) ∧
    ((∃ cost, p.terminalCost x q = .ok cost) ↔ p.Covers p.cost.terminalMap) ∧
    (p.SumFits → p.Covers p.cost.terminalMap) := by
  have hp := validate_eq_ok.1 hvalid
  refine ⟨?_, fun cost hcost => ?_, ?_, covers_terminalMap hp⟩
  · obtain ⟨r, hr, -⟩ := exists_stageResidual hp hx hu hq
    obtain ⟨cost, hcost, hbounded⟩ :=
      exists_halfQuadratic hp.cost.stageWeight (isResidual_of_stageResidual hp hr).1
    exact ⟨r, cost, hr, bind_eq_ok.2 ⟨r, hr, hcost⟩, hbounded⟩
  · obtain ⟨r, hr, hcost⟩ := bind_eq_ok.1 hcost
    obtain ⟨_, hcost', hbounded⟩ :=
      exists_halfQuadratic hp.cost.terminalWeight (isResidual_of_terminalResidual hp hr).1
    cases hcost.symm.trans hcost'
    exact ⟨r, hr, hbounded⟩
  · rw [exists_terminalCost_iff hp, exists_terminalResidual_iff hp]
    exact ⟨fun h => h.2.2, fun hcovers => ⟨hx, hq, hcovers⟩⟩

end Problem

/-! ### A skewed weight -/

namespace Tank

open Exact

/-- A weight that is semi-definite by its lower triangle only, which is as far from symmetric as its
tolerance allows. -/
noncomputable def skewedWeight : Matrix ℝ := Matrix.ofFn 2 2 ![![1, 1e-12], ![0, 0]]

theorem checkWeight_skewedWeight : checkWeight "W" 2 skewedWeight = .ok () := by
  have hentry : skewedWeight.entry rfl = (![![1, 1e-12], ![0, 0]] : Fin 2 → Fin 2 → ℝ) :=
    entry_ofFn _
  have hlower : lowerEntry skewedWeight rfl = (![![1, 0], ![0, 0]] : Fin 2 → Fin 2 → ℝ) := by
    funext i j
    fin_cases i <;> fin_cases j <;> rfl
  have htolerance : 1e-12 ≤ tolerance (![![1, 1e-12], ![0, 0]] : Fin 2 → Fin 2 → ℝ) := by
    have hlargest : 1 ≤ magnitude (![![1, 1e-12], ![0, 0]] : Fin 2 → Fin 2 → ℝ) :=
      le_ciSup_of_le (Set.finite_range _).bddAbove (0, 0) (by norm_num)
    exact le_mul_of_one_le_right (by norm_num) (hlargest.trans (le_max_left _ _))
  have hform (v : Fin 2 → ℝ) : form (![![1, 0], ![0, 0]] : Fin 2 → Fin 2 → ℝ) v = v 0 ^ 2 := by
    simp [form, Fin.sum_univ_two, sq]
  refine (checkWeight_eq_ok_iff (m := skewedWeight) rfl two_pos).2 ⟨?_, ?_⟩
  · rw [hentry]
    intro i j hlt
    obtain ⟨rfl, rfl⟩ : i = (0 : Fin 2) ∧ j = (1 : Fin 2) := by
      have hi : i.val < j.val := hlt
      have hj : j.val < 2 := j.isLt
      exact ⟨Fin.ext (show i.val = 0 by omega), Fin.ext (show j.val = 1 by omega)⟩
    change |(1e-12 : ℝ) - 0| ≤ _
    rw [sub_zero, abs_of_nonneg (by norm_num)]
    exact htolerance
  · rw [hentry, hlower]
    intro v
    refine le_trans ?_ ((sq_nonneg _).trans_eq (hform v).symm)
    exact mul_nonpos_of_nonpos_of_nonneg (neg_nonpos.2 (tolerance_nonneg _))
      (Finset.sum_nonneg fun i _ => sq_nonneg _)

end Tank

namespace Problem

/-- The problem with another stage weight. -/
abbrev withStageWeight {α : Type} (p : Problem α) (weight : Matrix α) : Problem α :=
  { p with cost := { p.cost with stageWeight := weight } }

theorem validate_withStageWeight {p : Problem ℝ} {weight : Matrix ℝ} (hvalid : p.validate = .ok ())
    (hweight : checkWeight "W" p.dimensions.stageResiduals weight = .ok ()) :
    (p.withStageWeight weight).validate = .ok () := by
  simp only [validate, bind_unit_eq_ok] at hvalid ⊢
  obtain ⟨hhorizon, hcost, hrest⟩ := hvalid
  have hfits := checkCost_eq_ok.1 hcost
  exact ⟨hhorizon, checkCost_eq_ok.2 { hfits with stageWeight := hweight }, hrest⟩

/-- The skewed weight is accepted, and its costs are bounded like those of any other. -/
theorem cost_bounded_below_tank :
    ∃ p : Problem ℝ, p.cost.stageWeight = Tank.skewedWeight ∧ p.validate = .ok () ∧
      ∃ r cost, p.stageResidual [3] [1] [0] = .ok r ∧ p.stageCost [3] [1] [0] = .ok cost ∧
        IsBounded 2 Tank.skewedWeight r cost := by
  obtain ⟨p, hbuild⟩ :=
    exists_build (show 1 + 1 < 2 ^ 64 by decide) (Design.derived_of_derive Tank.derive_exactDesign)
      Tank.consistent_exactDesign
  have hvalid := (build_eq_ok.1 hbuild).2
  obtain ⟨-, -, options, rfl⟩ := assembled_of_build hbuild
  have hskewed := validate_withStageWeight hvalid Tank.checkWeight_skewedWeight
  exact ⟨_, rfl, hskewed, (cost_bounded_below hskewed rfl rfl rfl).1⟩

end Problem

end RecedingHorizon
