import Mathlib
import RecedingHorizon.Proofs.Weight

/-!
Exact arithmetic. The real numbers are scalars whose operations do not round, and all of them are
finite. Their least eigenvalues are the exact ones, so that the laws which checks of diagonal weights
rely on hold of them as they hold of the doubles. A product of vectors is a sum over their entries
here, in whatever order it is added up.
-/

namespace RecedingHorizon

namespace Exact

noncomputable instance : Scalar ℝ where
  decidableLT := inferInstance
  decidableLE := inferInstance
  abs x := |x|
  ofNat n := n
  isFinite _ := true
  floorUpTo bound x := min ⌊x⌋₊ bound

/-- An entry of the symmetric matrix with the lower triangle of the given one. -/
def lowerEntry (m : Matrix ℝ) (h : m.cols = m.rows) (i j : Fin m.rows) : ℝ :=
  if j ≤ i then m.get i (j.cast h.symm) else m.get j (i.cast h.symm)

def IsEigenvalue (m : Matrix ℝ) (h : m.cols = m.rows) (eigenvalue : ℝ) : Prop :=
  ∃ v : Fin m.rows → ℝ, v ≠ 0 ∧ ∀ i, ∑ j, lowerEntry m h i j * v j = eigenvalue * v i

noncomputable instance : Spectral ℝ where
  leastEigenvalue? m :=
    if h : m.cols = m.rows ∧ 0 < m.rows then some (sInf {x | IsEigenvalue m h.1 x}) else none

/-! ### Diagonal matrices -/

variable {m : Matrix ℝ}

theorem lowerEntry_of_isDiagonal (hm : m.IsDiagonal) (i j : Fin m.rows) :
    lowerEntry m hm.square i j = if j = i then m.get i (i.cast hm.square.symm) else 0 := by
  unfold lowerEntry
  split
  next hle =>
    split
    next heq => rw [heq]
    next hne => exact hm.zero _ _ fun h => hne (Fin.ext h.symm)
  next hlt =>
    rw [if_neg fun heq => hlt heq.le]
    exact hm.zero _ _ fun h => hlt (Fin.ext h).le

/-- The eigenvalues of a diagonal matrix are the entries of its diagonal. -/
theorem isEigenvalue_iff_of_isDiagonal (hm : m.IsDiagonal) (x : ℝ) :
    IsEigenvalue m hm.square x ↔ ∃ i, m.get i (i.cast hm.square.symm) = x := by
  have hproduct (v : Fin m.rows → ℝ) (i : Fin m.rows) :
      ∑ j, lowerEntry m hm.square i j * v j = m.get i (i.cast hm.square.symm) * v i := by
    simp [lowerEntry_of_isDiagonal hm]
  simp only [IsEigenvalue, hproduct]
  constructor
  · rintro ⟨v, hv, heigen⟩
    obtain ⟨i, hi⟩ := Function.ne_iff.1 hv
    exact ⟨i, mul_right_cancel₀ hi (heigen i)⟩
  · rintro ⟨i, rfl⟩
    refine ⟨Pi.single i 1, by simp, fun j => ?_⟩
    by_cases hj : j = i
    · rw [hj]
    · simp [hj]

theorem leastEigenvalue?_of_isDiagonal (hm : m.IsDiagonal) (hrows : 0 < m.rows) :
    ∃ i j, i.val = j.val ∧ Spectral.leastEigenvalue? m = some (m.get i j) := by
  let entry (i : Fin m.rows) : ℝ := m.get i (i.cast hm.square.symm)
  have hset : {x | IsEigenvalue m hm.square x} = Set.range entry :=
    Set.ext fun x => isEigenvalue_iff_of_isDiagonal hm x
  have hmem : sInf (Set.range entry) ∈ Set.range entry :=
    Set.Nonempty.csInf_mem ⟨_, ⟨⟨0, hrows⟩, rfl⟩⟩ (Set.finite_range entry)
  obtain ⟨i, hi⟩ := hmem
  refine ⟨i, i.cast hm.square.symm, rfl, ?_⟩
  change dite _ _ _ = _
  rw [dif_pos ⟨hm.square, hrows⟩, hset, ← hi]

instance : LawfulSigns ℝ where
  floorUpTo_le _ _ := min_le_right _ _
  isFinite_zero := rfl
  zero_le_abs x _ := abs_nonneg x
  zero_le_tiny := one_div_nonneg.2 (Nat.cast_nonneg _)
  zero_le_mul x hx := by
    change (0 : ℝ) ≤ 1e-12 * x
    positivity
  zero_le_inverse_square x _ := by
    change (0 : ℝ) ≤ 1 / (x * x)
    exact one_div_nonneg.2 (mul_self_nonneg x)
  zero_le_zero := le_refl (0 : ℝ)
  not_lt_neg x y hx hy := not_lt.2 ((neg_nonpos.2 hy).trans hx)
  not_lt_abs_zero x hx := by
    change ¬ x < |(0 : ℝ) - 0|
    rw [sub_zero, abs_zero]
    exact not_lt.2 hx

instance : LawfulSpectral ℝ where
  exists_leastEigenvalue? _ hsquare hrows _ := ⟨_, dif_pos ⟨hsquare, hrows⟩⟩
  leastEigenvalue?_nonneg m hm hrows _ hnonneg x hx := by
    obtain ⟨i, j, -, heq⟩ := leastEigenvalue?_of_isDiagonal hm hrows
    cases heq.symm.trans hx
    exact hnonneg _ (m.get_mem i j)

end Exact

/-! ### Sums -/

theorem dot_eq_sum {v w : List ℝ} {n : ℕ} (hv : v.length = n) (hw : w.length = n) :
    dot v w = ∑ i : Fin n, v.getD i 0 * w.getD i 0 := by
  have hproducts :
      List.zipWith (· * ·) v w = List.ofFn fun i : Fin n => v.getD i 0 * w.getD i 0 := by
    refine List.ext_getElem (by simp [hv, hw]) fun i hi hi' => ?_
    have hlt : i < n := by simpa using hi'
    have hiv : i < v.length := hv ▸ hlt
    have hiw : i < w.length := hw ▸ hlt
    simp [hiv, hiw]
  rw [dot, hproducts, ← List.sum_ofFn]
  exact List.sum_eq_foldl.symm

namespace Matrix

/-- The quadratic form of a matrix at the vector with the given entries. -/
noncomputable def quadraticForm (m : Matrix ℝ) (r : ℕ → ℝ) : ℝ :=
  ∑ i : Fin m.rows, ∑ j : Fin m.cols, r i * m.get i j * r j

/-- A form reads no more entries than its matrix has rows. -/
theorem quadraticForm_congr {m : Matrix ℝ} (hsquare : m.cols = m.rows) {r r' : ℕ → ℝ}
    (h : ∀ i < m.rows, r i = r' i) : m.quadraticForm r = m.quadraticForm r' := by
  refine Finset.sum_congr rfl fun i _ => Finset.sum_congr rfl fun j _ => ?_
  rw [h i i.isLt, h j (hsquare ▸ j.isLt)]

/-- Blocks beside each other have nothing in common, so their forms add up. -/
theorem quadraticForm_blockDiagonal {a b : Matrix ℝ} (hsquare : a.cols = a.rows) (r : ℕ → ℝ) :
    (blockDiagonal a b).quadraticForm r =
      a.quadraticForm r + b.quadraticForm fun i => r (a.rows + i) := by
  change ∑ i : Fin (a.rows + b.rows), ∑ j : Fin (a.cols + b.cols),
    r i * (blockDiagonal a b).get i j * r j = _
  simp only [Fin.sum_univ_add, get_blockDiagonal_left, get_blockDiagonal_right,
    get_blockDiagonal_above, get_blockDiagonal_below]
  simp [quadraticForm, hsquare]

theorem quadraticForm_diagonal (v : List ℝ) (r : ℕ → ℝ) :
    (diagonal v).quadraticForm r = ∑ i : Fin v.length, v.get i * r i ^ 2 := by
  change ∑ i : Fin v.length, ∑ j : Fin v.length, r i * (diagonal v).get i j * r j = _
  refine Finset.sum_congr rfl fun i _ => ?_
  simp only [get_diagonal, mul_ite, ite_mul, mul_zero, zero_mul, Finset.sum_ite_eq,
    Finset.mem_univ, if_true]
  ring

end Matrix

end RecedingHorizon
