import Mathlib
import RecedingHorizon.Proofs.Exact

/-!
Least eigenvalues of symmetric matrices. A matrix is read as a quadratic form, and the least
eigenvalue of a symmetric one is the largest multiple of the sum of squares that its form never falls
below. So what is known of the least eigenvalue is known of the form at every vector.
-/

namespace RecedingHorizon.Exact

/-! ### Quadratic forms -/

section Forms

variable {n : ℕ} {a : Fin n → Fin n → ℝ} {v : Fin n → ℝ} {x bound : ℝ}

/-- The quadratic form with the given coefficients. -/
def form (a : Fin n → Fin n → ℝ) (v : Fin n → ℝ) : ℝ := ∑ i, ∑ j, v i * a i j * v j

/-- The form is at least a multiple of the sum of squares. -/
def IsBoundedBelow (a : Fin n → Fin n → ℝ) (bound : ℝ) : Prop :=
  ∀ v, bound * ∑ i, v i ^ 2 ≤ form a v

def IsEigenvector (a : Fin n → Fin n → ℝ) (x : ℝ) (v : Fin n → ℝ) : Prop :=
  v ≠ 0 ∧ ∀ i, ∑ j, a i j * v j = x * v i

theorem sum_sq_pos (hv : v ≠ 0) : 0 < ∑ i, v i ^ 2 := by
  obtain ⟨i, hi⟩ := Function.ne_iff.1 hv
  exact Finset.sum_pos' (fun j _ => sq_nonneg _) ⟨i, Finset.mem_univ i, sq_pos_of_ne_zero hi⟩

theorem form_eq_sum_mul (a : Fin n → Fin n → ℝ) (v : Fin n → ℝ) :
    form a v = ∑ i, v i * ∑ j, a i j * v j := by
  simp only [form, mul_assoc, ← Finset.mul_sum]

theorem form_of_isEigenvector (hv : IsEigenvector a x v) : form a v = x * ∑ i, v i ^ 2 := by
  rw [form_eq_sum_mul, Finset.mul_sum]
  refine Finset.sum_congr rfl fun i _ => ?_
  rw [hv.2 i]
  ring

/-- The coefficients with a multiple of the sum of squares taken off. -/
def shifted (a : Fin n → Fin n → ℝ) (bound : ℝ) (i j : Fin n) : ℝ :=
  a i j - if i = j then bound else 0

theorem sum_shifted (a : Fin n → Fin n → ℝ) (bound : ℝ) (v : Fin n → ℝ) (i : Fin n) :
    ∑ j, shifted a bound i j * v j = ∑ j, a i j * v j - bound * v i := by
  simp [shifted, sub_mul, Finset.sum_sub_distrib]

theorem form_shifted (a : Fin n → Fin n → ℝ) (bound : ℝ) (v : Fin n → ℝ) :
    form (shifted a bound) v = form a v - bound * ∑ i, v i ^ 2 := by
  rw [form_eq_sum_mul, form_eq_sum_mul, Finset.mul_sum, ← Finset.sum_sub_distrib]
  refine Finset.sum_congr rfl fun i _ => ?_
  rw [sum_shifted]
  ring

/-! ### Eigenvalues -/

/-- An eigenvalue is a value of the form, so no bound is above it. -/
theorem IsBoundedBelow.le_of_isEigenvector (ha : IsBoundedBelow a bound)
    (hv : IsEigenvector a x v) : bound ≤ x := by
  have hform := ha v
  rw [form_of_isEigenvector hv] at hform
  exact le_of_mul_le_mul_right hform (sum_sq_pos hv.1)

theorem isHermitian_of (ha : ∀ i j, a i j = a j i) : (Matrix.of a).IsHermitian :=
  Matrix.IsHermitian.ext fun i j => ha j i

theorem isEigenvector_eigenvectorBasis (ha : (Matrix.of a).IsHermitian) (k : Fin n) :
    IsEigenvector a (ha.eigenvalues k) (ha.eigenvectorBasis k) := by
  refine ⟨fun hzero => ha.eigenvectorBasis.orthonormal.ne_zero k (PiLp.ext fun i => ?_), fun i => ?_⟩
  · exact congrFun hzero i
  · exact congrFun (ha.mulVec_eigenvectorBasis k) i

/-- What is below every eigenvalue of a symmetric matrix is a bound of its form. -/
theorem isBoundedBelow_of_forall_le (ha : ∀ i j, a i j = a j i)
    (hbound : ∀ x v, IsEigenvector a x v → bound ≤ x) : IsBoundedBelow a bound := by
  have hsymm (i j : Fin n) : shifted a bound i j = shifted a bound j i := by
    simp only [shifted, ha i j, @eq_comm _ i j]
  have hhermitian := isHermitian_of hsymm
  have hnonneg : (Matrix.of (shifted a bound)).PosSemidef := by
    refine hhermitian.posSemidef_iff_eigenvalues_nonneg.2 fun k => ?_
    obtain ⟨hne, heigen⟩ := isEigenvector_eigenvectorBasis hhermitian k
    have hle := hbound (hhermitian.eigenvalues k + bound) _ ⟨hne, fun i => by
      rw [add_mul, ← heigen i, sum_shifted, sub_add_cancel]⟩
    exact nonneg_of_le_add_left hle
  intro v
  have hform : 0 ≤ ∑ i, v i * ∑ j, shifted a bound i j * v j := hnonneg.dotProduct_mulVec_nonneg v
  rw [← form_eq_sum_mul, form_shifted] at hform
  exact sub_nonneg.1 hform

theorem exists_isEigenvector (ha : ∀ i j, a i j = a j i) (hn : 0 < n) : ∃ x v, IsEigenvector a x v :=
  ⟨_, _, isEigenvector_eigenvectorBasis (isHermitian_of ha) ⟨0, hn⟩⟩

/-- A product of two entries is at most the sum of all squares. -/
theorem abs_mul_le_sum_sq (v : Fin n → ℝ) (i j : Fin n) : |v i * v j| ≤ ∑ k, v k ^ 2 := by
  have hle (k : Fin n) : v k ^ 2 ≤ ∑ k, v k ^ 2 :=
    Finset.single_le_sum (f := fun k => v k ^ 2) (fun _ _ => sq_nonneg _) (Finset.mem_univ k)
  rw [abs_le]
  constructor <;> nlinarith [hle i, hle j, sq_nonneg (v i + v j), sq_nonneg (v i - v j)]

theorem exists_isBoundedBelow (a : Fin n → Fin n → ℝ) : ∃ bound, IsBoundedBelow a bound := by
  refine ⟨-∑ i, ∑ j, |a i j|, fun v => ?_⟩
  simp only [form, neg_mul, Finset.sum_mul, ← Finset.sum_neg_distrib]
  refine Finset.sum_le_sum fun i _ => Finset.sum_le_sum fun j _ => ?_
  calc -(|a i j| * ∑ k, v k ^ 2) ≤ -(|a i j| * |v i * v j|) :=
        neg_le_neg (mul_le_mul_of_nonneg_left (abs_mul_le_sum_sq v i j) (abs_nonneg _))
    _ = -|v i * a i j * v j| := by rw [← abs_mul]; congr 2; ring
    _ ≤ v i * a i j * v j := neg_abs_le _

/-- The least eigenvalue of a symmetric matrix is the greatest bound of its form. -/
theorem isGreatest_sInf (ha : ∀ i j, a i j = a j i) (hn : 0 < n) :
    IsGreatest {bound | IsBoundedBelow a bound} (sInf {x | ∃ v, IsEigenvector a x v}) := by
  constructor
  · obtain ⟨bound, hbound⟩ := exists_isBoundedBelow a
    have hbelow : BddBelow {x | ∃ v, IsEigenvector a x v} :=
      ⟨bound, fun x ⟨_, hv⟩ => hbound.le_of_isEigenvector hv⟩
    exact isBoundedBelow_of_forall_le ha fun x v hv => csInf_le hbelow ⟨v, hv⟩
  · intro bound hbound
    exact le_csInf (exists_isEigenvector ha hn) fun x ⟨_, hv⟩ => hbound.le_of_isEigenvector hv

end Forms

/-! ### Matrices -/

variable {m : Matrix ℝ}

theorem lowerEntry_comm (hsquare : m.cols = m.rows) (i j : Fin m.rows) :
    lowerEntry m hsquare i j = lowerEntry m hsquare j i := by
  unfold lowerEntry
  rcases lt_trichotomy i j with hlt | rfl | hgt
  · rw [if_neg hlt.not_ge, if_pos hlt.le]
  · rfl
  · rw [if_pos hgt.le, if_neg hgt.not_ge]

/-- What the eigenvalue routine returns is the greatest bound of the form that it reads. -/
theorem exists_leastEigenvalue? (hsquare : m.cols = m.rows) (hrows : 0 < m.rows) :
    ∃ x, Spectral.leastEigenvalue? m = some x ∧
      IsGreatest {bound | IsBoundedBelow (lowerEntry m hsquare) bound} x :=
  ⟨_, dif_pos ⟨hsquare, hrows⟩, isGreatest_sInf (lowerEntry_comm hsquare) hrows⟩

end RecedingHorizon.Exact
