import Mathlib
import RecedingHorizon.Proofs.Weight

/-!
Where a weight is at fault. The entries of a matrix are listed column after column, so the first of
them that is not finite is the one in the first column with such an entry, and in the first row
there. A check finds it by its place in the list, and divides that place by the number of rows to
name its row and its column.

A check relies on operations that are not defined for every operand: division, the largest magnitude
of the entries of a matrix, and its least eigenvalue. To say which of them a check evaluates, it is
written once more over operations that may have any effect. No operation is evaluated outside of its
domain, and none at all where a weight has to have no rows.
-/

namespace RecedingHorizon

namespace Matrix

variable {α : Type} {m : Matrix α} {P : α → Prop}

/-! ### The order of the entries -/

theorem index_lt_index {rows i j i' j' : Nat} (hi : i < rows) (hj : j < j') :
    i + j * rows < i' + j' * rows := by
  calc
    i + j * rows < rows * j' := index_lt hi hj
    _ = j' * rows := Nat.mul_comm rows j'
    _ ≤ i' + j' * rows := Nat.le_add_left _ _

/-- Entries are listed by column, and by row within a column. -/
theorem index_lt_index_iff {rows i j i' j' : Nat} (hi : i < rows) (hi' : i' < rows) :
    i + j * rows < i' + j' * rows ↔ j < j' ∨ j = j' ∧ i < i' := by
  rcases Nat.lt_trichotomy j j' with hlt | rfl | hgt
  · exact iff_of_true (index_lt_index hi hlt) (.inl hlt)
  · simp
  · exact iff_of_false (index_lt_index hi' hgt).not_gt (by omega)

/-- The first entry that is not as it has to be, column after column. -/
structure IsFirstFaultAt (P : α → Prop) (m : Matrix α) (row col : Nat) : Prop where
  row_lt : row < m.rows
  col_lt : col < m.cols
  fault : ¬ P (m.get ⟨row, row_lt⟩ ⟨col, col_lt⟩)
  earlier : ∀ i j, j.val < col ∨ j.val = col ∧ i.val < row → P (m.get i j)

theorem isFirstFaultAt_of_isFirstFault {row col : Nat} {x : α} (hrow : row < m.rows)
    (hcol : col < m.cols) (hfirst : IsFirstFault P m.entries (row + col * m.rows) x) :
    m.IsFirstFaultAt P row col := by
  refine ⟨hrow, hcol, ?_, fun i j hearlier => ?_⟩
  · have hentry := (m.getElem?_entries hrow hcol).symm.trans hfirst.entry
    exact Option.some.inj hentry ▸ hfirst.fault
  · have hlt := (index_lt_index_iff i.isLt hrow).2 hearlier
    exact hfirst.earlier _ hlt _ (m.getElem?_entries i.isLt j.isLt)

theorem IsFirstFaultAt.isFirstFault {row col : Nat} (hfirst : m.IsFirstFaultAt P row col) :
    IsFirstFault P m.entries (row + col * m.rows)
      (m.get ⟨row, hfirst.row_lt⟩ ⟨col, hfirst.col_lt⟩) := by
  refine ⟨m.getElem?_entries hfirst.row_lt hfirst.col_lt, hfirst.fault, fun k hk y hy => ?_⟩
  obtain ⟨hlength, -⟩ := List.getElem?_eq_some_iff.1 hy
  obtain ⟨i, j, hi, hj, rfl⟩ := exists_index_eq (m.length_entries ▸ hlength)
  rw [m.getElem?_entries hi hj] at hy
  have hearlier := (index_lt_index_iff hi hfirst.row_lt).1 hk
  exact Option.some.inj hy ▸ hfirst.earlier ⟨i, hi⟩ ⟨j, hj⟩ hearlier

end Matrix

/-! ### The entry that is named -/

section Locations

variable {α : Type} [Scalar α] {field name : String} {n row col : Nat} {m : Matrix α}

theorem exists_isFirstFaultAt (h : ¬ ∀ x ∈ m.entries, Scalar.isFinite x = true) :
    ∃ row col, m.IsFirstFaultAt (Scalar.isFinite · = true) row col := by
  obtain ⟨index, x, hfirst⟩ := exists_isFirstFault h
  obtain ⟨hlength, -⟩ := List.getElem?_eq_some_iff.1 hfirst.entry
  obtain ⟨i, j, hi, hj, rfl⟩ := Matrix.exists_index_eq (m.length_entries ▸ hlength)
  exact ⟨i, j, Matrix.isFirstFaultAt_of_isFirstFault hi hj hfirst⟩

variable [Spectral α]

theorem checkWeight_of_isFirstFaultAt (field : String) (hrows : m.rows = n) (hcols : m.cols = n)
    (hfirst : m.IsFirstFaultAt (Scalar.isFinite · = true) row col) :
    checkWeight field n m = .error (.notFiniteEntry field row col) := by
  subst hrows
  rw [checkWeight_of_isFirstFault field rfl hcols hfirst.isFirstFault,
    Matrix.index_mod hfirst.row_lt, Matrix.index_div hfirst.row_lt]

/-- A weight that is finite is refused for another reason, if at all. -/
theorem checkWeight_ne_notFiniteEntry (hrows : m.rows = n) (hsquare : m.cols = m.rows)
    (hfinite : ∀ x ∈ m.entries, Scalar.isFinite x = true) :
    checkWeight field n m ≠ .error (.notFiniteEntry name row col) := by
  rw [checkWeight_of_finite hrows hsquare hfinite]
  intro h
  split at h
  · cases h
  simp only [bind_eq_error, defined_eq_error, reduceCtorEq, and_false, false_or] at h
  obtain ⟨tolerance, -, h⟩ := h
  split at h
  · simp only [bind_eq_error, defined_eq_error, reduceCtorEq, and_false, false_or] at h
    obtain ⟨eigenvalue, -, h⟩ := h
    split at h <;> cases h
  · cases h

/-- An entry is named exactly if the weight has the right size and the entry is the first one that
is not finite. -/
theorem checkWeight_eq_notFiniteEntry :
    checkWeight field n m = .error (.notFiniteEntry name row col) ↔
      name = field ∧ m.rows = n ∧ m.cols = n ∧
        m.IsFirstFaultAt (Scalar.isFinite · = true) row col := by
  constructor
  · intro h
    by_cases hsize : m.rows = n ∧ m.cols = m.rows
    · obtain ⟨hrows, hsquare⟩ := hsize
      have hcols := hsquare.trans hrows
      by_cases hfinite : ∀ x ∈ m.entries, Scalar.isFinite x = true
      · exact absurd h (checkWeight_ne_notFiniteEntry hrows hsquare hfinite)
      · obtain ⟨i, j, hfirst⟩ := exists_isFirstFaultAt hfinite
        cases (checkWeight_of_isFirstFaultAt field hrows hcols hfirst).symm.trans h
        exact ⟨rfl, hrows, hcols, hfirst⟩
    · obtain ⟨actual, herror⟩ := checkWeight_of_misfit field hsize
      cases herror.symm.trans h
  · rintro ⟨rfl, hrows, hcols, hfirst⟩
    exact checkWeight_of_isFirstFaultAt name hrows hcols hfirst

theorem exists_notFiniteEntry_iff :
    (∃ row col, checkWeight field n m = .error (.notFiniteEntry field row col)) ↔
      m.rows = n ∧ m.cols = n ∧ ∃ x ∈ m.entries, Scalar.isFinite x = false := by
  simp only [checkWeight_eq_notFiniteEntry, true_and, exists_and_left]
  refine and_congr_right fun _ => and_congr_right fun _ => ⟨?_, ?_⟩
  · rintro ⟨row, col, hfirst⟩
    exact ⟨_, m.get_mem _ _, Bool.eq_false_iff.2 hfirst.fault⟩
  · rintro ⟨x, hx, hinfinite⟩
    refine exists_isFirstFaultAt fun hfinite => ?_
    cases (hfinite x hx).symm.trans hinfinite

end Locations

/-! ### Partial operations -/

/-- The operations of a check that are not defined for every operand. To evaluate one of them may
have any effect that `M` has room for, such as a failure or a record of the operands. -/
structure PartialOperations (M : Type → Type) (α : Type) where
  remainder : Nat → Nat → M Nat
  quotient : Nat → Nat → M Nat
  largestMagnitude : Matrix α → M α
  leastEigenvalue : Matrix α → M α

/-- Operations that differ outside of their domains at most, on a divisor that is zero and on matrices
without entries. -/
structure PartialOperations.AgreeInside {M : Type → Type} {α : Type}
    (operations operations' : PartialOperations M α) : Prop where
  remainder : ∀ index divisor, divisor ≠ 0 →
    operations.remainder index divisor = operations'.remainder index divisor
  quotient : ∀ index divisor, divisor ≠ 0 →
    operations.quotient index divisor = operations'.quotient index divisor
  largestMagnitude : ∀ m, m.entries ≠ [] →
    operations.largestMagnitude m = operations'.largestMagnitude m
  leastEigenvalue : ∀ m, m.entries ≠ [] →
    operations.leastEigenvalue m = operations'.leastEigenvalue m

section Operations

variable {α : Type} [Scalar α] {field : String} {n : Nat} {m : Matrix α}

section Effects

variable {M : Type → Type} [Monad M] [MonadExcept (ValidationError α) M]

/-- The check of a weight, over the given operations. -/
def checkWeightBy (operations : PartialOperations M α) (field : String) (n : Nat) (m : Matrix α) :
    M Unit :=
  if m.rows ≠ n then throw (.dimension field n m.rows)
  else if hsquare : m.cols = m.rows then
    match m.entries.findIdx? fun x => !Scalar.isFinite x with
    | some index => do
      let row ← operations.remainder index n
      let col ← operations.quotient index n
      throw (.notFiniteEntry field row col)
    | none =>
      if n = 0 then pure ()
      else do
        let largest ← operations.largestMagnitude m
        let tolerance := 1e-12 * Scalar.larger largest Scalar.tiny
        if m.isSymmetricWithin hsquare tolerance then
          let eigenvalue ← operations.leastEigenvalue m
          if eigenvalue < -tolerance then throw (.notPositiveSemidefinite field eigenvalue)
          else pure ()
        else throw (.notSymmetric field)
  else throw (.dimension field n m.cols)

/-- An operation is only evaluated inside of its domain: what it does elsewhere has no part in the
result of a check, nor in its effects. -/
theorem checkWeightBy_congr {operations operations' : PartialOperations M α}
    (h : operations.AgreeInside operations') :
    checkWeightBy operations field n m = checkWeightBy operations' field n m := by
  unfold checkWeightBy
  split
  · rfl
  next hrows =>
    split
    next hsquare =>
      split
      next index hfault =>
        obtain ⟨x, hfirst⟩ := findIdx?_not_eq_some.1 hfault
        have hpos := m.rows_pos_of_mem hfirst.mem
        have hn : n ≠ 0 := by omega
        rw [h.remainder index n hn, h.quotient index n hn]
      next =>
        split
        · rfl
        next hn =>
          have hne : m.entries ≠ [] := m.entries_ne_nil (by omega) (by omega)
          rw [h.largestMagnitude m hne, h.leastEigenvalue m hne]
    · rfl

/-- No operation is evaluated for a weight that has to have no rows, whatever its shape is. -/
theorem checkWeightBy_zero (operations : PartialOperations M α) :
    checkWeightBy operations field 0 m =
      if m.rows ≠ 0 then throw (.dimension field 0 m.rows)
      else if m.cols ≠ 0 then throw (.dimension field 0 m.cols)
      else pure () := by
  unfold checkWeightBy
  split
  · rfl
  next hrows =>
    have hzero : m.rows = 0 := Decidable.not_not.1 hrows
    have hfinite : ∀ x ∈ m.entries, Scalar.isFinite x = true := fun x hx =>
      absurd (m.rows_pos_of_mem hx) (by omega)
    simp only [hzero, findIdx?_not_eq_none.2 hfinite, if_true, ite_not]
    split
    · rfl
    · rfl

end Effects

variable [Spectral α]

/-- The operations as a check has them, with an error outside of their domains. -/
def PartialOperations.checked : PartialOperations (Checked α) α where
  remainder index divisor :=
    defined "position of an entry" (if divisor = 0 then none else some (index % divisor))
  quotient index divisor :=
    defined "position of an entry" (if divisor = 0 then none else some (index / divisor))
  largestMagnitude m := defined "largest magnitude" m.largestMagnitude?
  leastEigenvalue m := defined "least eigenvalue" (Spectral.leastEigenvalue? m)

theorem position_checked {β : Type} (n index : Nat) (f : Nat × Nat → Checked α β) :
    (do
      let row ← PartialOperations.checked.remainder index n
      let col ← PartialOperations.checked.quotient index n
      f (row, col)) =
    defined "position of an entry" (position? n index) >>= f := by
  by_cases hn : n = 0
  · simp only [PartialOperations.checked, position?, if_pos hn]
    rfl
  · simp only [PartialOperations.checked, position?, if_neg hn]
    rfl

theorem tolerance_checked {β : Type} (m : Matrix α) (f : α → Checked α β) :
    (do
      let largest ← PartialOperations.checked.largestMagnitude m
      f (1e-12 * Scalar.larger largest Scalar.tiny)) =
    defined "largest magnitude" (weightTolerance? m) >>= f := by
  simp only [PartialOperations.checked, weightTolerance?]
  cases m.largestMagnitude? with
  | none => rfl
  | some largest => rfl

theorem checkWeightBy_checked :
    checkWeightBy PartialOperations.checked field n m = checkWeight field n m := by
  unfold checkWeightBy checkWeight
  rw [dite_not]
  refine ite_congr rfl (fun _ => rfl) fun _ => dite_congr rfl (fun _ => ?_) fun _ => rfl
  cases m.entries.findIdx? fun x => !Scalar.isFinite x with
  | some index =>
      exact position_checked n index fun place => .error (.notFiniteEntry field place.1 place.2)
  | none =>
      refine ite_congr rfl (fun _ => rfl) fun _ => ?_
      rw [← tolerance_checked]
      rfl

/-! ### Faults -/

/-- A check reports an entry exactly if the weight has the right size and an entry that is not
finite; it names the row and the column of the first such entry, column after column. The partial
operations of a check are evaluated inside of their domains alone, and where a weight has to have no
rows, not one of them is evaluated, whatever the shape of the weight is. -/
theorem checkWeight_locates_fault (field : String) (n : Nat) (m : Matrix α) :
    ((∃ row col, checkWeight field n m = .error (.notFiniteEntry field row col)) ↔
      m.rows = n ∧ m.cols = n ∧ ∃ x ∈ m.entries, Scalar.isFinite x = false) ∧
    (∀ name row col, checkWeight field n m = .error (.notFiniteEntry name row col) ↔
      name = field ∧ m.rows = n ∧ m.cols = n ∧
        m.IsFirstFaultAt (Scalar.isFinite · = true) row col) ∧
    checkWeightBy PartialOperations.checked field n m = checkWeight field n m ∧
    ∀ (M : Type → Type) [Monad M] [MonadExcept (ValidationError α) M]
      (operations operations' : PartialOperations M α),
      (operations.AgreeInside operations' →
        checkWeightBy operations field n m = checkWeightBy operations' field n m) ∧
      checkWeightBy operations field 0 m =
        if m.rows ≠ 0 then throw (.dimension field 0 m.rows)
        else if m.cols ≠ 0 then throw (.dimension field 0 m.cols)
        else pure () :=
  ⟨exists_notFiniteEntry_iff, fun _ _ _ => checkWeight_eq_notFiniteEntry, checkWeightBy_checked,
    fun _ _ _ operations _ => ⟨checkWeightBy_congr, checkWeightBy_zero operations⟩⟩

end Operations

/-- Of two entries that are not finite, one in the second row and one in the second column, the
first column decides. -/
theorem checkWeight_locates_fault_skewed :
    checkWeight "P" 2 (⟨2, 2, [1, 0 / 0, 1 / 0, 1], rfl⟩ : Matrix Float) =
      .error (.notFiniteEntry "P" 1 0) := by
  refine ((checkWeight_locates_fault "P" 2 _).2.1 "P" 1 0).2 ⟨rfl, rfl, rfl, ?_⟩
  exact {
    row_lt := Nat.one_lt_two
    col_lt := Nat.two_pos
    fault := by decide
    earlier := by decide }

end RecedingHorizon
