import Mathlib
import RecedingHorizon.Proofs.Binary64.Sign
import RecedingHorizon.Proofs.Check
import RecedingHorizon.Proofs.Eigenvalue

/-!
Checks of weights. A weight passes if it has the right size, is finite, and is symmetric and positive
semi-definite up to its own tolerance. Of a diagonal weight with entries that are not negative, only
the finiteness of the entries is left to check.
-/

namespace RecedingHorizon

/-! ### Laws -/

/-- Laws of signs. They hold of rounded numbers as well, since rounding keeps the sign. -/
class LawfulSigns (α : Type) [Scalar α] : Prop extends LawfulScalar α where
  zero_le_abs : ∀ x : α, Scalar.isFinite x = true → 0 ≤ Scalar.abs x
  zero_le_tiny : (0 : α) ≤ Scalar.tiny
  zero_le_mul : ∀ x : α, 0 ≤ x → 0 ≤ 1e-12 * x
  zero_le_inverse_square : ∀ x : α, Scalar.isFinite x = true → 0 ≤ 1 / (x * x)
  zero_le_zero : (0 : α) ≤ 0
  not_lt_neg : ∀ x y : α, 0 ≤ x → 0 ≤ y → ¬ x < -y
  not_lt_abs_zero : ∀ x : α, 0 ≤ x → ¬ x < Scalar.abs (0 - 0)

instance : LawfulSigns Float where
  zero_le_abs _ := Binary64.zero_le_abs
  zero_le_tiny := by decide +kernel
  zero_le_mul _ := Binary64.zero_le_mul
  zero_le_inverse_square _ := Binary64.zero_le_one_div_mul_self
  zero_le_zero := by decide
  not_lt_neg _ _ := Binary64.not_lt_neg
  not_lt_abs_zero x hx := by
    have hzero : Float.abs (0 - 0) = 0 := by decide
    exact hzero ▸ Binary64.not_lt_zero hx

/-! ### Checks -/

section Weights

variable {α : Type} [Scalar α] [Spectral α] {field : String} {n : Nat} {m : Matrix α}

/-- What a weight of `n` rows is checked for. One without rows has nothing to be checked. -/
structure Matrix.IsWeight (n : Nat) (m : Matrix α) : Prop where
  rows : m.rows = n
  square : m.cols = m.rows
  finite : ∀ x ∈ m.entries, Scalar.isFinite x = true
  semidefinite : n ≠ 0 → ∃ tolerance eigenvalue, weightTolerance? m = some tolerance ∧
    m.isSymmetricWithin square tolerance = true ∧
    Spectral.leastEigenvalue? m = some eigenvalue ∧ ¬ eigenvalue < -tolerance

/-- What is left to check of a weight of the right size that is finite. -/
theorem checkWeight_of_finite (hrows : m.rows = n) (hsquare : m.cols = m.rows)
    (hfinite : ∀ x ∈ m.entries, Scalar.isFinite x = true) :
    checkWeight field n m =
      if n = 0 then .ok ()
      else (do
        let tolerance ← defined "largest magnitude" (weightTolerance? m)
        if m.isSymmetricWithin hsquare tolerance then
          let eigenvalue ← defined "least eigenvalue" (Spectral.leastEigenvalue? m)
          if eigenvalue < -tolerance then .error (.notPositiveSemidefinite field eigenvalue)
          else .ok ()
        else .error (.notSymmetric field)) := by
  have hfault := findIdx?_not_eq_none.2 hfinite
  simp only [checkWeight, if_neg (not_not.2 hrows), dif_neg (not_not.2 hsquare), hfault]

theorem checkWeight_eq_ok : checkWeight field n m = .ok () ↔ m.IsWeight n := by
  constructor
  · intro h
    obtain ⟨hrows, hcols⟩ := shape_of_checkWeight h
    have hsquare : m.cols = m.rows := hcols.trans hrows.symm
    have hfinite := isFinite_of_checkWeight h
    refine ⟨hrows, hsquare, hfinite, fun hn => ?_⟩
    rw [checkWeight_of_finite hrows hsquare hfinite, if_neg hn] at h
    simp only [bind_eq_ok, defined_eq_ok] at h
    obtain ⟨tolerance, htolerance, h⟩ := h
    split at h
    next hsymmetric =>
      obtain ⟨eigenvalue, heigenvalue, h⟩ := bind_eq_ok.1 h
      refine ⟨tolerance, eigenvalue, htolerance, hsymmetric, defined_eq_ok.1 heigenvalue, ?_⟩
      intro hbelow
      rw [if_pos hbelow] at h
      cases h
    next => cases h
  · intro hm
    rw [checkWeight_of_finite hm.rows hm.square hm.finite]
    split
    next => rfl
    next hn =>
      obtain ⟨tolerance, eigenvalue, htolerance, hsymmetric, heigenvalue, habove⟩ :=
        hm.semidefinite hn
      simp only [htolerance, defined_some, heigenvalue]
      change (if _ then _ else _) = _
      rw [if_pos hsymmetric]
      exact if_neg habove

/-- A weight of the right size is refused for its first entry that is not finite, if it has one. As it
has an entry it has a row, so that the place of the entry can be divided by the number of rows. -/
theorem checkWeight_of_isFirstFault (field : String) (hrows : m.rows = n)
    (hsquare : m.cols = m.rows) {index : Nat} {x : α}
    (hfirst : IsFirstFault (Scalar.isFinite · = true) m.entries index x) :
    checkWeight field n m = .error (.notFiniteEntry field (index % n) (index / n)) := by
  have hn : n ≠ 0 := hrows ▸ (m.rows_pos_of_mem hfirst.mem).ne'
  have hfault := findIdx?_not_eq_some.2 ⟨x, hfirst⟩
  simp only [checkWeight, if_neg (not_not.2 hrows), dif_neg (not_not.2 hsquare), hfault,
    position?, if_neg hn, defined_some]
  rfl

theorem checkWeight_of_not_finite (field : String) (hrows : m.rows = n) (hsquare : m.cols = m.rows)
    (hinfinite : ¬ ∀ x ∈ m.entries, Scalar.isFinite x = true) :
    ∃ row col, checkWeight field n m = .error (.notFiniteEntry field row col) := by
  obtain ⟨index, x, hfirst⟩ := exists_isFirstFault hinfinite
  exact ⟨_, _, checkWeight_of_isFirstFault field hrows hsquare hfirst⟩

/-! ### Diagonal weights -/

omit [Spectral α] in
theorem exists_weightTolerance [LawfulSigns α]
    (hfinite : ∀ x ∈ m.entries, Scalar.isFinite x = true) (hne : m.entries ≠ []) :
    ∃ tolerance, weightTolerance? m = some tolerance ∧ 0 ≤ tolerance := by
  have hlarger (x y : α) : Scalar.larger x y = x ∨ Scalar.larger x y = y :=
    (ite_eq_or_eq _ y x).symm
  have hlargest : ∃ largest, m.largestMagnitude? = some largest ∧ 0 ≤ largest := by
    obtain ⟨first, rest, hcons⟩ := List.exists_cons_of_ne_nil hne
    have hmem := foldl_mem_cons hlarger (Scalar.abs first) (rest.map Scalar.abs)
    rw [← List.map_cons, ← hcons] at hmem
    obtain ⟨x, hx, heq⟩ := List.mem_map.1 hmem
    refine ⟨Scalar.abs x, ?_, LawfulSigns.zero_le_abs x (hfinite x hx)⟩
    simp only [Matrix.largestMagnitude?, hcons, List.map_cons, heq]
  obtain ⟨largest, heq, hle⟩ := hlargest
  refine ⟨1e-12 * Scalar.larger largest Scalar.tiny, by simp [weightTolerance?, heq], ?_⟩
  apply LawfulSigns.zero_le_mul
  rcases hlarger largest Scalar.tiny with hkeep | htiny
  · rw [hkeep]
    exact hle
  · rw [htiny]
    exact LawfulSigns.zero_le_tiny

theorem Matrix.IsDiagonal.isWeight [LawfulSigns α] [LawfulSpectral α] (hm : m.IsDiagonal)
    (hrows : m.rows = n) (hnonneg : ∀ x ∈ m.entries, 0 ≤ x)
    (hfinite : ∀ x ∈ m.entries, Scalar.isFinite x = true) : m.IsWeight n := by
  refine ⟨hrows, hm.square, hfinite, fun hn => ?_⟩
  have hpos : 0 < m.rows := by omega
  obtain ⟨tolerance, htolerance, hle⟩ :=
    exists_weightTolerance hfinite (m.entries_ne_nil hpos (hm.square ▸ hpos))
  obtain ⟨eigenvalue, heigenvalue⟩ :=
    LawfulSpectral.exists_leastEigenvalue? m hm.square hpos hfinite
  have hsign :=
    LawfulSpectral.leastEigenvalue?_nonneg m hm hpos hfinite hnonneg eigenvalue heigenvalue
  refine ⟨tolerance, eigenvalue, htolerance, ?_, heigenvalue,
    LawfulSigns.not_lt_neg _ _ hsign hle⟩
  simp only [isSymmetricWithin, List.all_eq_true, decide_eq_true_iff]
  intro i _ j _ hij
  have hlt : i.val < j.val := hij
  rw [hm.zero i (j.cast hm.square.symm) hlt.ne, hm.zero j (i.cast hm.square.symm) hlt.ne']
  exact LawfulSigns.not_lt_abs_zero tolerance hle

end Weights

end RecedingHorizon
