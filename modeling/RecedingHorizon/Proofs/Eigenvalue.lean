import Mathlib
import RecedingHorizon.Eigenvalue
import RecedingHorizon.Proofs.Matrix

/-!
Least eigenvalues. Two laws are all that is asked of a routine that finds them, whichever it is: it
comes to an end on every finite square matrix with a row, and it gets the sign right on a diagonal
matrix without negative entries. Jacobi rotations keep both. However many rotations it takes, a
diagonal is left that has an entry for every row, and a matrix that is diagonal already is not
rotated.
-/

namespace RecedingHorizon

/-- What is asked of a routine for least eigenvalues. -/
class LawfulSpectral (α : Type) [Scalar α] [Spectral α] : Prop where
  /-- A finite square matrix with a row has a least eigenvalue. -/
  exists_leastEigenvalue? : ∀ m : Matrix α, m.cols = m.rows → 0 < m.rows →
    (∀ x ∈ m.entries, Scalar.isFinite x = true) → ∃ x, Spectral.leastEigenvalue? m = some x
  /-- That of a diagonal matrix without negative entries is not negative. -/
  leastEigenvalue?_nonneg : ∀ m : Matrix α, m.IsDiagonal → 0 < m.rows →
    (∀ x ∈ m.entries, Scalar.isFinite x = true) → (∀ x ∈ m.entries, 0 ≤ x) →
    ∀ x ∈ Spectral.leastEigenvalue? m, 0 ≤ x

namespace Jacobi

/-! ### Diagonal matrices -/

variable {m : Matrix Float}

theorem entry_lowerTriangle (h : m.cols = m.rows) {i j : Nat} (hi : i < m.rows) (hj : j ≤ i) :
    entry (lowerTriangle m h) i j = m.get ⟨i, hi⟩ ⟨j, by omega⟩ := by
  have hlt : j < m.rows := by omega
  simp [entry, lowerTriangle, Array.getD, hi, hlt, hj]

theorem size_lowerTriangle (h : m.cols = m.rows) : (lowerTriangle m h).size = m.rows :=
  Array.size_ofFn

theorem mem_positions {n i j : Nat} (h : (i, j) ∈ positions n) : i < n ∧ j < i := by
  simpa [positions] using h

theorem isDiagonalWithin_of_isDiagonal (hm : m.IsDiagonal) :
    isDiagonalWithin (lowerTriangle m hm.square) 0 = true := by
  refine List.all_eq_true.2 fun (i, j) hij => ?_
  rw [size_lowerTriangle] at hij
  obtain ⟨hi, hj⟩ := mem_positions hij
  have hentry : entry (lowerTriangle m hm.square) i j = 0 := by
    rw [entry_lowerTriangle hm.square hi hj.le]
    exact hm.zero _ _ hj.ne'
  simp only [hentry]
  decide

theorem exists_least {xs : List Float} (hxs : xs ≠ []) : ∃ x ∈ xs, least xs = some x := by
  cases xs with
  | nil => exact absurd rfl hxs
  | cons first rest =>
      refine ⟨_, foldl_mem_cons (fun x y => ?_) first rest, rfl⟩
      exact (ite_eq_or_eq _ y x).symm

/-- A diagonal matrix is not rotated, so that an entry is found as it stands. -/
theorem leastEigenvalue?_of_isDiagonal (hm : m.IsDiagonal) (hrows : 0 < m.rows) :
    ∃ i j, i.val = j.val ∧ leastEigenvalue? m = some (m.get i j) := by
  have hne : diagonal (lowerTriangle m hm.square) ≠ [] := by
    simpa [diagonal, size_lowerTriangle] using hrows.ne'
  obtain ⟨x, hx, hleast⟩ := exists_least hne
  obtain ⟨i, hi, rfl⟩ := List.mem_map.1 hx
  rw [size_lowerTriangle, List.mem_range] at hi
  rw [entry_lowerTriangle hm.square hi le_rfl] at hleast
  refine ⟨⟨i, hi⟩, ⟨i, hm.square ▸ hi⟩, rfl, ?_⟩
  simp only [leastEigenvalue?, dif_pos hm.square, if_pos (isDiagonalWithin_of_isDiagonal hm)]
  exact hleast

/-! ### Rotations -/

theorem length_diagonal (a : Table) : (diagonal a).length = a.size := by
  simp [diagonal]

theorem size_rotate (a : Table) (p q : Nat) : (rotate a p q).size = a.size := by
  simp only [rotate]
  split
  · rfl
  · exact Array.size_mapIdx

theorem size_sweep (sweeps : Nat) (a : Table) : (sweep sweeps a).size = a.size := by
  induction sweeps generalizing a with
  | zero => rfl
  | succ sweeps ih =>
      rw [sweep]
      split
      · rfl
      · rw [ih]
        exact List.foldlRecOn (motive := fun b => b.size = a.size) _ _ rfl fun b hb _ _ =>
          (size_rotate b _ _).trans hb

theorem exists_least_diagonal {a : Table} (ha : 0 < a.size) :
    ∃ x, least (diagonal a) = some x := by
  have hne : diagonal a ≠ [] := List.ne_nil_of_length_pos (length_diagonal a ▸ ha)
  obtain ⟨x, -, hx⟩ := exists_least hne
  exact ⟨x, hx⟩

/-- However many rotations it takes, a diagonal is left that has an entry for every row. -/
theorem exists_leastEigenvalue? {m : Matrix Float} (hsquare : m.cols = m.rows)
    (hrows : 0 < m.rows) : ∃ x, leastEigenvalue? m = some x := by
  have hsize : 0 < (lowerTriangle m hsquare).size := by rwa [size_lowerTriangle]
  simp only [leastEigenvalue?, dif_pos hsquare]
  split
  · exact exists_least_diagonal hsize
  · rw [← Option.isSome_iff_exists, Option.isSome_map, Option.isSome_iff_exists]
    exact exists_least_diagonal (by rwa [size_sweep, Array.size_map])

end Jacobi

instance : LawfulSpectral Float where
  exists_leastEigenvalue? _ hsquare hrows _ := Jacobi.exists_leastEigenvalue? hsquare hrows
  leastEigenvalue?_nonneg m hm hrows _ hnonneg x hx := by
    obtain ⟨i, j, -, heq⟩ := Jacobi.leastEigenvalue?_of_isDiagonal hm hrows
    cases heq.symm.trans hx
    exact hnonneg _ (m.get_mem i j)

end RecedingHorizon
