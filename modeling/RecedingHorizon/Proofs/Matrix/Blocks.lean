import Mathlib
import RecedingHorizon.Proofs.Exact

/-!
Matrices of two blocks. A matrix is given by its shape and its entries by position, and every
position of a block matrix belongs to one of the blocks or to neither of them. The same matrix is
left when the blocks are written one after the other, entry by entry, over a matrix of zeros: no
entry is written outside of it, and none over the other block. So blocks can be put together in any
grouping, and the quadratic form of a block matrix is the sum of those of the blocks.
-/

namespace RecedingHorizon.Matrix

variable {α : Type}

/-! ### Entries by position -/

/-- The entry at a position, if the matrix has one there. -/
def get? (m : Matrix α) (i j : Nat) : Option α :=
  if h : i < m.rows ∧ j < m.cols then some (m.get ⟨i, h.1⟩ ⟨j, h.2⟩) else none

/-- The shape of a matrix and its entries by position. -/
structure HasEntries (m : Matrix α) (rows cols : Nat) (entry : Nat → Nat → Option α) : Prop where
  rows : m.rows = rows
  cols : m.cols = cols
  get? : ∀ i j, m.get? i j = entry i j

theorem get?_eq_none {m : Matrix α} {i j : Nat} (h : ¬ (i < m.rows ∧ j < m.cols)) :
    m.get? i j = none := dif_neg h

theorem get?_of_lt (m : Matrix α) {i j : Nat} (hi : i < m.rows) (hj : j < m.cols) :
    m.get? i j = m.entries[i + j * m.rows]? :=
  (dif_pos ⟨hi, hj⟩).trans (m.getElem?_entries hi hj).symm

/-- A matrix is given by its shape and its entries. -/
theorem HasEntries.eq {m m' : Matrix α} {rows cols : Nat} {entry : Nat → Nat → Option α}
    (h : m.HasEntries rows cols entry) (h' : m'.HasEntries rows cols entry) : m = m' := by
  obtain ⟨r, c, entries, hlength⟩ := m
  obtain ⟨r', c', entries', hlength'⟩ := m'
  obtain ⟨rfl, rfl, hget⟩ := h
  obtain ⟨rfl, rfl, hget'⟩ := h'
  change entries.length = r' * c' at hlength
  change entries'.length = r' * c' at hlength'
  suffices hentries : entries = entries' by
    subst hentries
    rfl
  refine List.ext_getElem? fun k => ?_
  by_cases hk : k < r' * c'
  · obtain ⟨i, j, hi, hj, rfl⟩ := exists_index_eq hk
    have hentry := (hget i j).trans (hget' i j).symm
    rwa [get?_of_lt _ hi hj, get?_of_lt _ hi hj] at hentry
  · rw [List.getElem?_eq_none (by omega), List.getElem?_eq_none (by omega)]

theorem hasEntries_ofFn (rows cols : Nat) (f : Fin rows → Fin cols → α) :
    (ofFn rows cols f).HasEntries rows cols fun i j =>
      if h : i < rows ∧ j < cols then some (f ⟨i, h.1⟩ ⟨j, h.2⟩) else none where
  rows := rfl
  cols := rfl
  get? i j := dite_congr rfl (fun h => congrArg some (get_ofFn rows cols f ⟨i, h.1⟩ ⟨j, h.2⟩))
    fun _ => rfl

/-! ### Writing blocks -/

theorem index_inj {rows i j i' j' : Nat} (hi : i < rows) (hi' : i' < rows) :
    i + j * rows = i' + j' * rows ↔ i = i' ∧ j = j' := by
  constructor
  · intro h
    have hrow : (i + j * rows) % rows = (i' + j' * rows) % rows := congrArg (· % rows) h
    have hcol : (i + j * rows) / rows = (i' + j' * rows) / rows := congrArg (· / rows) h
    rw [index_mod hi, index_mod hi'] at hrow
    rw [index_div hi, index_div hi'] at hcol
    exact ⟨hrow, hcol⟩
  · rintro ⟨rfl, rfl⟩
    rfl

/-- The matrix with the entry at a position inside of it replaced. -/
def replace (m : Matrix α) (i j : Nat) (x : α) : Matrix α where
  rows := m.rows
  cols := m.cols
  entries := m.entries.set (i + j * m.rows) x
  length_entries := List.length_set.trans m.length_entries

/-- Outside of a matrix there is nothing to replace. -/
def write? (m : Matrix α) (i j : Nat) (x : α) : Option (Matrix α) :=
  if i < m.rows ∧ j < m.cols then some (m.replace i j x) else none

/-- The first entries of row `i` of a block, written from the given place on. -/
def writeRow? (row col : Nat) (block : Matrix α) (i count : Nat) (m : Matrix α) :
    Option (Matrix α) :=
  (List.range count).foldlM (fun m j => do
    let x ← block.get? i j
    m.write? (row + i) (col + j) x) m

/-- The first rows of a block, written one after the other from the given place on. -/
def writeRows? (row col : Nat) (block : Matrix α) (count : Nat) (m : Matrix α) :
    Option (Matrix α) :=
  (List.range count).foldlM (fun m i => writeRow? row col block i block.cols m) m

variable {m block : Matrix α} {i j count : Nat}

theorem write?_eq_some (hi : i < m.rows) (hj : j < m.cols) (x : α) :
    ∃ m', m.write? i j x = some m' ∧ m'.HasEntries m.rows m.cols fun i' j' =>
      if i' = i ∧ j' = j then some x else m.get? i' j' := by
  refine ⟨_, if_pos ⟨hi, hj⟩, rfl, rfl, fun i' j' => ?_⟩
  by_cases hinside : i' < m.rows ∧ j' < m.cols
  · have hlt : i + j * m.rows < m.entries.length := m.length_entries ▸ index_lt hi hj
    rw [get?_of_lt m hinside.1 hinside.2, get?_of_lt (m.replace i j x) hinside.1 hinside.2]
    simp only [replace, List.getElem?_set, if_pos hlt]
    exact if_congr ((index_inj hi hinside.1).trans (by rw [eq_comm, @eq_comm _ j])) rfl rfl
  · rw [get?_eq_none (m := m) hinside, get?_eq_none (m := m.replace i j x) hinside,
      if_neg (by omega)]

/-- What the loop over the entries of a row leaves behind. -/
theorem writeRow?_eq_some {row col : Nat} (hrow : row + i < m.rows) (hi : i < block.rows)
    (hcount : count ≤ block.cols) (hcol : col + count ≤ m.cols) :
    ∃ m', writeRow? row col block i count m = some m' ∧
      m'.HasEntries m.rows m.cols fun i' j' =>
        if i' = row + i ∧ col ≤ j' ∧ j' < col + count then block.get? i (j' - col)
        else m.get? i' j' := by
  induction count with
  | zero =>
      refine ⟨m, rfl, rfl, rfl, fun i' j' => ?_⟩
      rw [if_neg (by omega)]
  | succ count ih =>
      obtain ⟨m', hm', hentries⟩ := ih (by omega) (by omega)
      have hread : block.get? i count = some _ := dif_pos ⟨hi, hcount⟩
      have hrow' : row + i < m'.rows := hentries.rows.symm ▸ hrow
      have hcol' : col + count < m'.cols := hentries.cols.symm ▸ hcol
      obtain ⟨m'', hm'', hentries'⟩ :=
        write?_eq_some hrow' hcol' (block.get ⟨i, hi⟩ ⟨count, hcount⟩)
      refine ⟨m'', ?_, hentries'.rows.trans hentries.rows, hentries'.cols.trans hentries.cols,
        fun i' j' => ?_⟩
      · rw [writeRow?, List.range_succ, List.foldlM_append, ← writeRow?, hm']
        simp [hread, hm'']
      · rw [hentries'.get?, hentries.get?]
        by_cases hplace : i' = row + i ∧ j' = col + count
        · rw [if_pos hplace, if_pos (by omega), hplace.2, Nat.add_sub_cancel_left, hread]
        · rw [if_neg hplace]
          exact if_congr (by omega) rfl rfl

/-- What the loop over the rows of a block leaves behind. -/
theorem writeRows?_eq_some {row col : Nat} (hcount : count ≤ block.rows)
    (hrow : row + count ≤ m.rows) (hcol : col + block.cols ≤ m.cols) :
    ∃ m', writeRows? row col block count m = some m' ∧
      m'.HasEntries m.rows m.cols fun i j =>
        if (row ≤ i ∧ i < row + count) ∧ col ≤ j ∧ j < col + block.cols then
          block.get? (i - row) (j - col)
        else m.get? i j := by
  induction count with
  | zero =>
      refine ⟨m, rfl, rfl, rfl, fun i j => ?_⟩
      rw [if_neg (by omega)]
  | succ count ih =>
      obtain ⟨m', hm', hentries⟩ := ih (by omega) (by omega)
      have hrow' : row + count < m'.rows := hentries.rows.symm ▸ hrow
      have hcol' : col + block.cols ≤ m'.cols := hentries.cols.symm ▸ hcol
      obtain ⟨m'', hm'', hentries'⟩ := writeRow?_eq_some (i := count) hrow' hcount le_rfl hcol'
      refine ⟨m'', ?_, hentries'.rows.trans hentries.rows, hentries'.cols.trans hentries.cols,
        fun i j => ?_⟩
      · rw [writeRows?, List.range_succ, List.foldlM_append, ← writeRows?, hm']
        simp [hm'']
      · rw [hentries'.get?, hentries.get?]
        by_cases hplace : i = row + count ∧ col ≤ j ∧ j < col + block.cols
        · rw [if_pos hplace, if_pos (by omega), hplace.1, Nat.add_sub_cancel_left]
        · rw [if_neg hplace]
          exact if_congr (by omega) rfl rfl

variable [Scalar α]

/-! ### Blocks -/

/-- The entries of two blocks, one below and to the right of the other, with zeros beside them. -/
def entryOfBlocks? (a b : Matrix α) (i j : Nat) : Option α :=
  if i < a.rows ∧ j < a.cols then a.get? i j
  else if a.rows ≤ i ∧ a.cols ≤ j then b.get? (i - a.rows) (j - a.cols)
  else if i < a.rows + b.rows ∧ j < a.cols + b.cols then some 0
  else none

theorem hasEntries_blockDiagonal (a b : Matrix α) :
    (blockDiagonal a b).HasEntries (a.rows + b.rows) (a.cols + b.cols) (entryOfBlocks? a b) := by
  refine ⟨rfl, rfl, fun i j => ?_⟩
  rw [blockDiagonal, (hasEntries_ofFn _ _ _).get?, entryOfBlocks?]
  by_cases ha : i < a.rows ∧ j < a.cols
  · rw [dif_pos (by omega), dif_pos ha, if_pos ha, get?, dif_pos ha]
  · rw [if_neg ha]
    by_cases hb : a.rows ≤ i ∧ a.cols ≤ j
    · rw [if_pos hb, get?]
      by_cases hinside : i < a.rows + b.rows ∧ j < a.cols + b.cols
      · rw [dif_pos hinside, dif_neg ha, dif_pos hb, dif_pos (by omega)]
      · rw [dif_neg hinside, dif_neg (by omega)]
    · rw [if_neg hb]
      by_cases hinside : i < a.rows + b.rows ∧ j < a.cols + b.cols
      · rw [dif_pos hinside, dif_neg ha, dif_neg hb, if_pos hinside]
      · rw [dif_neg hinside, if_neg hinside]

theorem blockDiagonal_assoc (a b c : Matrix α) :
    blockDiagonal (blockDiagonal a b) c = blockDiagonal a (blockDiagonal b c) := by
  have hleft := hasEntries_blockDiagonal (blockDiagonal a b) c
  have hright := hasEntries_blockDiagonal a (blockDiagonal b c)
  refine hleft.eq ⟨?_, ?_, fun i j => ?_⟩
  · rw [hright.rows, (hasEntries_blockDiagonal a b).rows, (hasEntries_blockDiagonal b c).rows,
      Nat.add_assoc]
  · rw [hright.cols, (hasEntries_blockDiagonal a b).cols, (hasEntries_blockDiagonal b c).cols,
      Nat.add_assoc]
  · rw [hright.get?]
    simp only [entryOfBlocks?, (hasEntries_blockDiagonal _ _).get?,
      (hasEntries_blockDiagonal _ _).rows, (hasEntries_blockDiagonal _ _).cols, Nat.sub_sub]
    split_ifs
    any_goals rfl
    all_goals omega

/-- Two blocks, written one after the other over a matrix of zeros. -/
def writeBlocks? (a b : Matrix α) : Option (Matrix α) := do
  let zeros := ofFn (a.rows + b.rows) (a.cols + b.cols) fun _ _ => 0
  let left ← writeRows? 0 0 a a.rows zeros
  writeRows? a.rows a.cols b b.rows left

/-- Every entry of a block is written inside of the matrix, and none over the other block. -/
theorem writeBlocks?_eq_some (a b : Matrix α) : writeBlocks? a b = some (blockDiagonal a b) := by
  let zeros : Matrix α := ofFn (a.rows + b.rows) (a.cols + b.cols) fun _ _ => 0
  have hzeros : zeros.HasEntries _ _ _ := hasEntries_ofFn _ _ _
  have hfits : 0 + a.rows ≤ zeros.rows ∧ 0 + a.cols ≤ zeros.cols := by
    rw [hzeros.rows, hzeros.cols]
    omega
  obtain ⟨left, hleft, hleftEntries⟩ := writeRows?_eq_some le_rfl hfits.1 hfits.2
  have hfits' : a.rows + b.rows ≤ left.rows ∧ a.cols + b.cols ≤ left.cols := by
    rw [hleftEntries.rows, hleftEntries.cols, hzeros.rows, hzeros.cols]
    exact ⟨le_rfl, le_rfl⟩
  obtain ⟨both, hboth, hbothEntries⟩ := writeRows?_eq_some le_rfl hfits'.1 hfits'.2
  have hwritten : writeBlocks? a b = some both := (congrArg (· >>= _) hleft).trans hboth
  rw [hwritten]
  refine congrArg some (HasEntries.eq ⟨?_, ?_, fun i j => ?_⟩ (hasEntries_blockDiagonal a b))
  · rw [hbothEntries.rows, hleftEntries.rows, hzeros.rows]
  · rw [hbothEntries.cols, hleftEntries.cols, hzeros.cols]
  · rw [hbothEntries.get?, hleftEntries.get?, hzeros.get?, entryOfBlocks?]
    split_ifs
    any_goals rfl
    any_goals omega
    -- below and to the right of both blocks there is nothing
    exact (get?_eq_none (by omega)).symm

/-! ### Forms -/

section Forms

variable {a b : Matrix ℝ}

/-- The form at a vector of two parts. -/
theorem quadraticForm_blockDiagonal_append (ha : a.cols = a.rows) {x : List ℝ}
    (hx : x.length = a.rows) (y : List ℝ) :
    (blockDiagonal a b).quadraticForm ((x ++ y).getD · 0) =
      a.quadraticForm (x.getD · 0) + b.quadraticForm (y.getD · 0) := by
  rw [quadraticForm_blockDiagonal ha]
  refine congrArg₂ (· + ·) (quadraticForm_congr ha fun i hi => ?_) (congrArg _ (funext fun i => ?_))
  · exact List.getD_append _ _ _ _ (hx ▸ hi)
  · rw [List.getD_append_right _ _ _ _ (hx ▸ Nat.le_add_right _ _), hx, Nat.add_sub_cancel_left]

theorem quadraticForm_zero (m : Matrix ℝ) : m.quadraticForm (fun _ => 0) = 0 := by
  simp [quadraticForm]

theorem quadraticForm_blockDiagonal_nonneg_iff (ha : a.cols = a.rows) :
    (∀ r, 0 ≤ (blockDiagonal a b).quadraticForm r) ↔
      (∀ r, 0 ≤ a.quadraticForm r) ∧ ∀ r, 0 ≤ b.quadraticForm r := by
  simp only [quadraticForm_blockDiagonal ha]
  constructor
  -- a vector that is zero on one block leaves the form of the other
  · intro h
    refine ⟨fun r => ?_, fun r => ?_⟩
    · have hform := h fun i => if i < a.rows then r i else 0
      simp only [Nat.not_lt.2 (Nat.le_add_right a.rows _), if_false, quadraticForm_zero,
        add_zero] at hform
      rwa [quadraticForm_congr ha fun i hi => if_pos hi] at hform
    · have hform := h fun i => if i < a.rows then 0 else r (i - a.rows)
      have hzero : a.quadraticForm (fun i => if i < a.rows then 0 else r (i - a.rows)) = 0 :=
        (quadraticForm_congr ha fun i hi => if_pos hi).trans a.quadraticForm_zero
      rw [hzero, zero_add] at hform
      simpa using hform
  · rintro ⟨hleft, hright⟩ r
    exact add_nonneg (hleft r) (hright _)

/-- Square and symmetric, with a form that is never negative. -/
structure IsPositiveSemidefinite (m : Matrix ℝ) : Prop where
  square : m.cols = m.rows
  symmetric : ∀ i j, m.get? i j = m.get? j i
  nonneg : ∀ r, 0 ≤ m.quadraticForm r

theorem symmetric_blockDiagonal_iff (ha : a.cols = a.rows) (hb : b.cols = b.rows) :
    (∀ i j, (blockDiagonal a b).get? i j = (blockDiagonal a b).get? j i) ↔
      (∀ i j, a.get? i j = a.get? j i) ∧ ∀ i j, b.get? i j = b.get? j i := by
  simp only [(hasEntries_blockDiagonal a b).get?]
  constructor
  · intro h
    refine ⟨fun i j => ?_, fun i j => ?_⟩
    · by_cases hinside : i < a.rows ∧ j < a.rows
      · have hentry := h i j
        rwa [entryOfBlocks?, if_pos (by omega), entryOfBlocks?, if_pos (by omega)] at hentry
      · rw [get?_eq_none (by omega), get?_eq_none (by omega)]
    · have hentry := h (a.rows + i) (a.rows + j)
      rw [entryOfBlocks?, if_neg (by omega), if_pos (by omega), entryOfBlocks?, if_neg (by omega),
        if_pos (by omega)] at hentry
      simpa [ha] using hentry
  · rintro ⟨hleft, hright⟩ i j
    simp only [entryOfBlocks?, ha, hb, hleft i j, hright (i - a.rows) (j - a.rows)]
    split_ifs
    any_goals rfl
    all_goals omega

theorem isPositiveSemidefinite_blockDiagonal_iff (ha : a.cols = a.rows) (hb : b.cols = b.rows) :
    (blockDiagonal a b).IsPositiveSemidefinite ↔
      a.IsPositiveSemidefinite ∧ b.IsPositiveSemidefinite := by
  constructor
  · rintro ⟨-, hsymmetric, hnonneg⟩
    obtain ⟨hleft, hright⟩ := (symmetric_blockDiagonal_iff ha hb).1 hsymmetric
    obtain ⟨hleft', hright'⟩ := (quadraticForm_blockDiagonal_nonneg_iff ha).1 hnonneg
    exact ⟨⟨ha, hleft, hleft'⟩, hb, hright, hright'⟩
  · rintro ⟨⟨-, hleft, hleft'⟩, -, hright, hright'⟩
    exact ⟨congrArg₂ (· + ·) ha hb, (symmetric_blockDiagonal_iff ha hb).2 ⟨hleft, hright⟩,
      (quadraticForm_blockDiagonal_nonneg_iff ha).2 ⟨hleft', hright'⟩⟩

end Forms

/-- A block matrix has the entries of its blocks and zeros beside them, and it is what is left when
the blocks are written one after the other over zeros. Blocks may be put together in any grouping.
In exact arithmetic, the form of a matrix of two square blocks at a vector of two parts is the sum
of the forms of the blocks at the parts; so it is never negative, and the matrix is positive semi-
definite, exactly if the same holds of both blocks. -/
theorem blockDiagonal_of_blocks :
    (∀ (α : Type) [Scalar α] (a b : Matrix α),
      (blockDiagonal a b).HasEntries (a.rows + b.rows) (a.cols + b.cols) (entryOfBlocks? a b) ∧
        writeBlocks? a b = some (blockDiagonal a b)) ∧
    (∀ (α : Type) [Scalar α] (a b c : Matrix α),
      blockDiagonal (blockDiagonal a b) c = blockDiagonal a (blockDiagonal b c)) ∧
    ∀ a b : Matrix ℝ, a.cols = a.rows → b.cols = b.rows →
      (∀ x y : List ℝ, x.length = a.rows → y.length = b.rows →
        (blockDiagonal a b).quadraticForm ((x ++ y).getD · 0) =
          a.quadraticForm (x.getD · 0) + b.quadraticForm (y.getD · 0)) ∧
      ((∀ r, 0 ≤ (blockDiagonal a b).quadraticForm r) ↔
        (∀ r, 0 ≤ a.quadraticForm r) ∧ ∀ r, 0 ≤ b.quadraticForm r) ∧
      ((blockDiagonal a b).IsPositiveSemidefinite ↔
        a.IsPositiveSemidefinite ∧ b.IsPositiveSemidefinite) := by
  refine ⟨fun α _ a b => ⟨hasEntries_blockDiagonal a b, writeBlocks?_eq_some a b⟩,
    fun α _ => blockDiagonal_assoc, fun a b ha hb => ⟨fun x y hx _ => ?_, ?_, ?_⟩⟩
  · exact quadraticForm_blockDiagonal_append ha hx y
  · exact quadraticForm_blockDiagonal_nonneg_iff ha
  · exact isPositiveSemidefinite_blockDiagonal_iff ha hb

end RecedingHorizon.Matrix
