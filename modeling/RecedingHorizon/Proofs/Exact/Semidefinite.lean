import Mathlib
import RecedingHorizon.Proofs.Exact.Spectrum

/-!
Checks of weights over exact arithmetic. A check accepts a matrix exactly if it is symmetric up to
its tolerance, and the form of its lower triangle falls below zero by no more than the tolerance
times the sum of squares. A symmetric matrix is judged by its own form then, so that neither the
order of its rows and columns nor its scale matters to the verdict.
-/

namespace RecedingHorizon

/-- An entry of a square matrix, both of whose indices are below the number of its rows. -/
def Matrix.entry {α : Type} (m : Matrix α) (hsquare : m.rows = m.cols) (i j : Fin m.rows) : α :=
  m.get i (j.cast hsquare)

namespace Exact

/-! ### Tolerances -/

section Tolerances

variable {n : ℕ}

/-- The largest magnitude of a coefficient. -/
noncomputable def magnitude (a : Fin n → Fin n → ℝ) : ℝ := ⨆ p : Fin n × Fin n, |a p.1 p.2|

/-- The smallest positive double of full precision. -/
noncomputable def floor : ℝ := 1 / (2 ^ 1022 : ℕ)

theorem tiny_eq_floor : (Scalar.tiny : ℝ) = floor := by
  unfold floor Scalar.tiny
  -- the power is too large to be evaluated, so the exponent is left open
  generalize 1022 = n
  exact congrArg (fun k : ℕ => 1 / (k : ℝ)) Nat.pow_eq

/-- How far a weight with the given coefficients may be from symmetric and from positive
semi-definite. -/
noncomputable def tolerance (a : Fin n → Fin n → ℝ) : ℝ := 1e-12 * max (magnitude a) floor

theorem tolerance_nonneg (a : Fin n → Fin n → ℝ) : 0 ≤ tolerance a := by
  have hfloor : 0 ≤ floor := one_div_nonneg.2 (Nat.cast_nonneg _)
  exact mul_nonneg (by norm_num) (hfloor.trans (le_max_right _ _))

theorem larger_eq_max (x y : ℝ) : Scalar.larger x y = max x y := max_def_lt x y |>.symm

theorem le_foldl_larger (xs : List ℝ) (first : ℝ) :
    ∀ x ∈ first :: xs, x ≤ xs.foldl Scalar.larger first := by
  induction xs generalizing first with
  | nil => simp
  | cons y xs ih =>
      rw [List.foldl_cons, larger_eq_max]
      intro x hx
      have hfirst := ih (max first y) _ List.mem_cons_self
      rcases List.mem_cons.1 hx with rfl | hrest
      · exact (le_max_left x y).trans hfirst
      rcases List.mem_cons.1 hrest with rfl | hrest
      · exact (le_max_right first x).trans hfirst
      · exact ih (max first y) x (List.mem_cons_of_mem _ hrest)

theorem exists_get_of_mem {m : Matrix ℝ} {x : ℝ} (hx : x ∈ m.entries) : ∃ i j, m.get i j = x :=
  Matrix.forall_mem_entries (P := fun x => ∃ i j, m.get i j = x).2 (fun i j => ⟨i, j, rfl⟩) x hx

theorem weightTolerance?_eq {m : Matrix ℝ} (hsquare : m.rows = m.cols) (hrows : 0 < m.rows) :
    weightTolerance? m = some (tolerance (m.entry hsquare)) := by
  obtain ⟨first, rest, hcons⟩ :=
    List.exists_cons_of_ne_nil (m.entries_ne_nil hrows (hsquare ▸ hrows))
  have hgreatest : IsGreatest (Set.range fun p : Fin m.rows × Fin m.rows =>
      |m.entry hsquare p.1 p.2|) ((rest.map Scalar.abs).foldl Scalar.larger (Scalar.abs first)) := by
    constructor
    · have hmem := foldl_mem_cons (fun x y : ℝ => (ite_eq_or_eq (x < y) y x).symm)
        (Scalar.abs first) (rest.map Scalar.abs)
      rw [← List.map_cons, ← hcons] at hmem
      obtain ⟨x, hx, heq⟩ := List.mem_map.1 hmem
      obtain ⟨i, j, rfl⟩ := exists_get_of_mem hx
      exact ⟨(i, j.cast hsquare.symm), heq⟩
    · rintro _ ⟨⟨i, j⟩, rfl⟩
      refine le_foldl_larger _ _ _ ?_
      rw [← List.map_cons, ← hcons]
      exact List.mem_map_of_mem (m.get_mem i (j.cast hsquare))
  have hmagnitude : magnitude (m.entry hsquare) =
      (rest.map Scalar.abs).foldl Scalar.larger (Scalar.abs first) := hgreatest.csSup_eq
  rw [weightTolerance?, Matrix.largestMagnitude?, hcons, List.map_cons, Option.map_some, tolerance,
    hmagnitude, ← tiny_eq_floor, ← larger_eq_max]

/-- The largest magnitude does not depend on the order of the rows and columns. -/
theorem magnitude_permuted (a : Fin n → Fin n → ℝ) (σ : Equiv.Perm (Fin n)) :
    magnitude (fun i j => a (σ i) (σ j)) = magnitude a :=
  Equiv.iSup_comp (g := fun p : Fin n × Fin n => |a p.1 p.2|) (Equiv.prodCongr σ σ)

theorem magnitude_scaled (a : Fin n → Fin n → ℝ) {factor : ℝ} (hfactor : 0 ≤ factor) :
    magnitude (fun i j => factor * a i j) = factor * magnitude a := by
  simp only [magnitude, abs_mul, abs_of_nonneg hfactor]
  exact (Real.mul_iSup_of_nonneg hfactor _).symm

/-- Above the floor, the tolerance is proportional to the matrix. -/
theorem tolerance_scaled {a : Fin n → Fin n → ℝ} {factor : ℝ} (hfactor : 0 ≤ factor)
    (hbefore : floor ≤ magnitude a) (hafter : floor ≤ magnitude fun i j => factor * a i j) :
    tolerance (fun i j => factor * a i j) = factor * tolerance a := by
  rw [tolerance, tolerance, max_eq_left hbefore, max_eq_left hafter, magnitude_scaled a hfactor]
  ring

end Tolerances

/-! ### Forms -/

section Forms

variable {n : ℕ} {a : Fin n → Fin n → ℝ} {bound : ℝ}

theorem form_permuted (a : Fin n → Fin n → ℝ) (σ : Equiv.Perm (Fin n)) (v : Fin n → ℝ) :
    form (fun i j => a (σ i) (σ j)) (fun i => v (σ i)) = form a v := by
  have hinner (i : Fin n) : ∑ j, v (σ i) * a (σ i) (σ j) * v (σ j) = ∑ j, v (σ i) * a (σ i) j * v j :=
    Equiv.sum_comp σ fun j => v (σ i) * a (σ i) j * v j
  simp only [form, hinner]
  exact Equiv.sum_comp σ fun i => ∑ j, v i * a i j * v j

theorem isBoundedBelow_permuted (σ : Equiv.Perm (Fin n)) :
    IsBoundedBelow (fun i j => a (σ i) (σ j)) bound ↔ IsBoundedBelow a bound := by
  have hsum (v : Fin n → ℝ) : ∑ i, v (σ i) ^ 2 = ∑ i, v i ^ 2 := Equiv.sum_comp σ fun i => v i ^ 2
  constructor
  · intro h v
    rw [← form_permuted a σ, ← hsum]
    exact h fun i => v (σ i)
  · intro h v
    have hv := h fun i => v (σ.symm i)
    rw [← form_permuted a σ, ← hsum] at hv
    simpa using hv

theorem isBoundedBelow_scaled {factor : ℝ} (hfactor : 0 < factor) :
    IsBoundedBelow (fun i j => factor * a i j) (factor * bound) ↔ IsBoundedBelow a bound := by
  have hform (v : Fin n → ℝ) : form (fun i j => factor * a i j) v = factor * form a v := by
    simp only [form, Finset.mul_sum]
    exact Finset.sum_congr rfl fun i _ => Finset.sum_congr rfl fun j _ => by ring
  refine forall_congr' fun v => ?_
  rw [hform, mul_assoc]
  exact mul_le_mul_iff_right₀ hfactor

end Forms

/-! ### Verdicts -/

variable {m : Matrix ℝ} {field : String}

theorem isSymmetricWithin_iff (hsquare : m.rows = m.cols) (bound : ℝ) :
    m.isSymmetricWithin hsquare.symm bound = true ↔
      ∀ i j, i < j → |m.entry hsquare i j - m.entry hsquare j i| ≤ bound := by
  simp only [Matrix.isSymmetricWithin, List.all_eq_true, decide_eq_true_iff, List.mem_finRange,
    true_imp_iff]
  exact forall₂_congr fun i j => imp_congr_right fun _ => not_lt

/-- What is checked of a square matrix with rows: its symmetry first, and then the greatest bound of
the form of its lower triangle. -/
theorem exists_checkWeight (field : String) (hsquare : m.rows = m.cols) (hrows : 0 < m.rows) :
    ∃ x, IsGreatest {bound | IsBoundedBelow (lowerEntry m hsquare.symm) bound} x ∧
      checkWeight field m.rows m =
        if m.isSymmetricWithin hsquare.symm (tolerance (m.entry hsquare)) then
          if x < -tolerance (m.entry hsquare) then .error (.notPositiveSemidefinite field x)
          else .ok ()
        else .error (.notSymmetric field) := by
  obtain ⟨x, hleast, hgreatest⟩ := exists_leastEigenvalue? hsquare.symm hrows
  refine ⟨x, hgreatest, ?_⟩
  rw [checkWeight_of_finite rfl hsquare.symm fun _ _ => rfl, if_neg hrows.ne',
    weightTolerance?_eq hsquare hrows, hleast]
  rfl

/-- A bound of a form is at most its greatest one. -/
theorem isBoundedBelow_iff_le {n : ℕ} {a : Fin n → Fin n → ℝ} {bound x : ℝ}
    (hx : IsGreatest {bound | IsBoundedBelow a bound} x) : IsBoundedBelow a bound ↔ bound ≤ x := by
  refine ⟨fun h => hx.2 h, fun hle v => ?_⟩
  have hsum : 0 ≤ ∑ i, v i ^ 2 := Finset.sum_nonneg fun i _ => sq_nonneg _
  exact (mul_le_mul_of_nonneg_right hle hsum).trans (hx.1 v)

theorem checkWeight_eq_ok_iff (hsquare : m.rows = m.cols) (hrows : 0 < m.rows) :
    checkWeight field m.rows m = .ok () ↔
      (∀ i j, i < j → |m.entry hsquare i j - m.entry hsquare j i| ≤ tolerance (m.entry hsquare)) ∧
        IsBoundedBelow (lowerEntry m hsquare.symm) (-tolerance (m.entry hsquare)) := by
  obtain ⟨x, hx, hcheck⟩ := exists_checkWeight field hsquare hrows
  rw [hcheck, isBoundedBelow_iff_le hx, ← isSymmetricWithin_iff, ← not_lt]
  split
  next hsymm =>
    split
    next hlt => exact iff_of_false (by rintro ⟨⟩) fun h => h.2 hlt
    next hnot => exact iff_of_true rfl ⟨hsymm, hnot⟩
  next hsymm => exact iff_of_false (by rintro ⟨⟩) fun h => hsymm h.1

/-! ### Symmetric matrices -/

/-- Of a symmetric matrix the eigenvalue routine reads every entry. -/
theorem lowerEntry_of_symmetric (hsquare : m.rows = m.cols)
    (hsymm : ∀ i j, m.entry hsquare i j = m.entry hsquare j i) :
    lowerEntry m hsquare.symm = m.entry hsquare := by
  funext i j
  unfold lowerEntry
  split
  · rfl
  · exact hsymm j i

/-- A symmetric matrix is judged by its own form. -/
theorem exists_checkWeight_of_symmetric (field : String) (hsquare : m.rows = m.cols)
    (hrows : 0 < m.rows) (hsymm : ∀ i j, m.entry hsquare i j = m.entry hsquare j i) :
    ∃ x, IsGreatest {bound | IsBoundedBelow (m.entry hsquare) bound} x ∧
      checkWeight field m.rows m =
        if x < -tolerance (m.entry hsquare) then .error (.notPositiveSemidefinite field x)
        else .ok () := by
  obtain ⟨x, hx, hcheck⟩ := exists_checkWeight field hsquare hrows
  have hwithin : m.isSymmetricWithin hsquare.symm (tolerance (m.entry hsquare)) = true := by
    refine (isSymmetricWithin_iff hsquare _).2 fun i j _ => ?_
    rw [hsymm i j, sub_self, abs_zero]
    exact tolerance_nonneg _
  rw [if_pos hwithin] at hcheck
  exact ⟨x, lowerEntry_of_symmetric hsquare hsymm ▸ hx, hcheck⟩

/-- The matrix with rows and columns in another order. -/
def permuted (m : Matrix ℝ) (hsquare : m.rows = m.cols) (σ : Equiv.Perm (Fin m.rows)) : Matrix ℝ :=
  Matrix.ofFn m.rows m.rows fun i j => m.entry hsquare (σ i) (σ j)

/-- The matrix with every entry multiplied by a factor. -/
def scaled (m : Matrix ℝ) (hsquare : m.rows = m.cols) (factor : ℝ) : Matrix ℝ :=
  Matrix.ofFn m.rows m.rows fun i j => factor * m.entry hsquare i j

theorem entry_ofFn {n : ℕ} (a : Fin n → Fin n → ℝ) : (Matrix.ofFn n n a).entry rfl = a := by
  funext i j
  exact Matrix.get_ofFn n n a i j

theorem exists_checkWeight_ofFn {n : ℕ} {a : Fin n → Fin n → ℝ} (field : String) (hn : 0 < n)
    (hsymm : ∀ i j, a i j = a j i) :
    ∃ x, IsGreatest {bound | IsBoundedBelow a bound} x ∧
      checkWeight field n (Matrix.ofFn n n a) =
        if x < -tolerance a then .error (.notPositiveSemidefinite field x) else .ok () := by
  have hcheck := exists_checkWeight_of_symmetric (m := Matrix.ofFn n n a) field rfl hn
  rw [entry_ofFn] at hcheck
  exact hcheck hsymm

theorem checkWeight_permuted (field : String) (hsquare : m.rows = m.cols) (hrows : 0 < m.rows)
    (hsymm : ∀ i j, m.entry hsquare i j = m.entry hsquare j i) (σ : Equiv.Perm (Fin m.rows)) :
    checkWeight field m.rows (permuted m hsquare σ) = checkWeight field m.rows m := by
  obtain ⟨x, hx, hcheck⟩ := exists_checkWeight_of_symmetric field hsquare hrows hsymm
  obtain ⟨y, hy, hcheck'⟩ :=
    exists_checkWeight_ofFn field hrows fun i j => hsymm (σ i) (σ j)
  have htolerance : tolerance (fun i j => m.entry hsquare (σ i) (σ j)) =
      tolerance (m.entry hsquare) := by
    rw [tolerance, tolerance, magnitude_permuted (m.entry hsquare) σ]
  simp only [isBoundedBelow_permuted σ] at hy
  rw [permuted, hcheck', hcheck, htolerance, hy.unique hx]

theorem checkWeight_scaled (field : String) (hsquare : m.rows = m.cols) (hrows : 0 < m.rows)
    (hsymm : ∀ i j, m.entry hsquare i j = m.entry hsquare j i) {factor : ℝ} (hfactor : 0 < factor)
    (hbefore : floor ≤ magnitude (m.entry hsquare))
    (hafter : floor ≤ magnitude fun i j => factor * m.entry hsquare i j) :
    checkWeight field m.rows (scaled m hsquare factor) = .ok () ↔
      checkWeight field m.rows m = .ok () := by
  have hok {x y : ℝ} : (if x < y then .error (.notPositiveSemidefinite field x) else .ok () :
      Checked ℝ Unit) = .ok () ↔ y ≤ x := by
    split <;> simp_all
  obtain ⟨x, hx, hcheck⟩ := exists_checkWeight_of_symmetric field hsquare hrows hsymm
  obtain ⟨y, hy, hcheck'⟩ :=
    exists_checkWeight_ofFn field hrows fun i j => congrArg (factor * ·) (hsymm i j)
  rw [scaled, hcheck', hcheck, hok, hok, ← isBoundedBelow_iff_le hx, ← isBoundedBelow_iff_le hy,
    tolerance_scaled hfactor.le hbefore hafter, ← mul_neg, isBoundedBelow_scaled hfactor]

/-- Over exact arithmetic, a check decides whether a matrix is symmetric and positive semi-definite
up to its tolerance. -/
theorem checkWeight_decides (field : String) (hsquare : m.rows = m.cols) (hrows : 0 < m.rows) :
    (checkWeight field m.rows m = .ok () ↔
      (∀ i j, i < j →
        |m.entry hsquare i j - m.entry hsquare j i| ≤ tolerance (m.entry hsquare)) ∧
      ∀ v, -tolerance (m.entry hsquare) * ∑ i, v i ^ 2 ≤ form (lowerEntry m hsquare.symm) v) ∧
    ((∀ i j, m.entry hsquare i j = m.entry hsquare j i) →
      lowerEntry m hsquare.symm = m.entry hsquare ∧
      ((∀ v, 0 ≤ form (m.entry hsquare) v) → checkWeight field m.rows m = .ok ()) ∧
      (∀ v, form (m.entry hsquare) v < -tolerance (m.entry hsquare) * ∑ i, v i ^ 2 →
        ∃ x, checkWeight field m.rows m = .error (.notPositiveSemidefinite field x)) ∧
      (∀ σ : Equiv.Perm (Fin m.rows),
        checkWeight field m.rows (permuted m hsquare σ) = checkWeight field m.rows m) ∧
      ∀ factor, 0 < factor → floor ≤ magnitude (m.entry hsquare) →
        floor ≤ magnitude (fun i j => factor * m.entry hsquare i j) →
        (checkWeight field m.rows (scaled m hsquare factor) = .ok () ↔
          checkWeight field m.rows m = .ok ())) := by
  refine ⟨checkWeight_eq_ok_iff hsquare hrows, fun hsymm => ⟨lowerEntry_of_symmetric hsquare hsymm,
    fun hnonneg => ?_, fun v hv => ?_, checkWeight_permuted field hsquare hrows hsymm,
    fun factor hfactor => checkWeight_scaled field hsquare hrows hsymm hfactor⟩⟩
  · obtain ⟨x, hx, hcheck⟩ := exists_checkWeight_of_symmetric field hsquare hrows hsymm
    have hzero : IsBoundedBelow (m.entry hsquare) 0 := fun v => by
      rw [zero_mul]
      exact hnonneg v
    rw [hcheck, if_neg (not_lt.2 ((neg_nonpos.2 (tolerance_nonneg _)).trans (hx.2 hzero)))]
  · obtain ⟨x, hx, hcheck⟩ := exists_checkWeight_of_symmetric field hsquare hrows hsymm
    have hlt : x < -tolerance (m.entry hsquare) := by
      rw [← not_le, ← isBoundedBelow_iff_le hx]
      exact fun h => (h v).not_gt hv
    exact ⟨x, by rw [hcheck, if_pos hlt]⟩

/-- A symmetric matrix that is indefinite, as its form at `(1, -1)` shows. -/
theorem checkWeight_decides_indefinite :
    ∃ x, checkWeight "P" 2 (Matrix.ofFn 2 2 ![![(1 : ℝ), 2], ![2, 1]]) =
      .error (.notPositiveSemidefinite "P" x) := by
  have hdecides := (checkWeight_decides (m := Matrix.ofFn 2 2 ![![(1 : ℝ), 2], ![2, 1]]) "P" rfl
    two_pos).2
  rw [entry_ofFn] at hdecides
  have hmagnitude : magnitude ![![(1 : ℝ), 2], ![2, 1]] ≤ 2 := by
    refine Real.iSup_le (fun p => ?_) zero_le_two
    obtain ⟨i, j⟩ := p
    fin_cases i <;> fin_cases j <;> norm_num
  have hfloor : floor ≤ 2 := by
    rw [floor, one_div]
    exact (Nat.cast_inv_le_one _).trans one_le_two
  have htolerance : tolerance ![![(1 : ℝ), 2], ![2, 1]] ≤ 1e-12 * 2 :=
    mul_le_mul_of_nonneg_left (max_le hmagnitude hfloor) (by norm_num)
  have hsymm : ∀ i j : Fin 2, ![![(1 : ℝ), 2], ![2, 1]] i j = ![![(1 : ℝ), 2], ![2, 1]] j i := by
    simp [Fin.forall_fin_two]
  have hform : form ![![(1 : ℝ), 2], ![2, 1]] ![1, -1] <
      -tolerance ![![(1 : ℝ), 2], ![2, 1]] * ∑ i, ![(1 : ℝ), -1] i ^ 2 := by
    simp only [form, Fin.sum_univ_two, Matrix.cons_val_zero, Matrix.cons_val_one]
    norm_num at htolerance ⊢
    linarith
  exact (hdecides hsymm).2.2.1 ![1, -1] hform

end Exact

end RecedingHorizon
