import Mathlib
import RecedingHorizon.Matrix

/-!
Entries of matrices, by position and in the list. Diagonal matrices, put side by side as blocks,
make a diagonal matrix, whose entries are theirs and zeros.
-/

namespace RecedingHorizon

/-- A fold that keeps one of two elements at a time ends with one of all. -/
theorem foldl_mem_cons {β : Type} {f : β → β → β} (hf : ∀ x y, f x y = x ∨ f x y = y) (first : β)
    (rest : List β) : rest.foldl f first ∈ first :: rest := by
  induction rest generalizing first with
  | nil => exact List.mem_singleton_self first
  | cons x rest ih =>
      rw [List.foldl_cons]
      rcases hf first x with hkeep | htake
      · rw [hkeep]
        rcases List.mem_cons.1 (ih first) with heq | hmem
        · rw [heq]
          exact List.mem_cons_self
        · exact List.mem_cons_of_mem _ (List.mem_cons_of_mem _ hmem)
      · rw [htake]
        exact List.mem_cons_of_mem _ (ih x)

namespace Matrix

variable {α : Type} {m : Matrix α}

theorem get_mem (m : Matrix α) (i : Fin m.rows) (j : Fin m.cols) : m.get i j ∈ m.entries :=
  List.get_mem _ _

theorem entries_ne_nil (hrows : 0 < m.rows) (hcols : 0 < m.cols) : m.entries ≠ [] :=
  List.ne_nil_of_mem (m.get_mem ⟨0, hrows⟩ ⟨0, hcols⟩)

/-- Every place in the list of entries belongs to a row and a column. -/
theorem exists_index_eq {rows cols k : Nat} (hk : k < rows * cols) :
    ∃ i j, i < rows ∧ j < cols ∧ i + j * rows = k :=
  ⟨k % rows, k / rows, Nat.mod_lt _ (Nat.pos_of_mul_pos_right (Nat.zero_lt_of_lt hk)),
    Nat.div_lt_of_lt_mul hk, Nat.mod_add_div' k rows⟩

theorem getElem?_entries (m : Matrix α) {i j : Nat} (hi : i < m.rows) (hj : j < m.cols) :
    m.entries[i + j * m.rows]? = some (m.get ⟨i, hi⟩ ⟨j, hj⟩) := by
  rw [get, List.get_eq_getElem, List.getElem?_eq_getElem]

theorem forall_mem_entries {P : α → Prop} : (∀ x ∈ m.entries, P x) ↔ ∀ i j, P (m.get i j) := by
  constructor
  · exact fun h i j => h _ (m.get_mem i j)
  · intro h x hx
    obtain ⟨k, hk⟩ := List.mem_iff_getElem?.1 hx
    obtain ⟨hlt, -⟩ := List.getElem?_eq_some_iff.1 hk
    obtain ⟨i, j, hi, hj, rfl⟩ := exists_index_eq (m.length_entries ▸ hlt)
    rw [m.getElem?_entries hi hj] at hk
    exact Option.some.inj hk ▸ h ⟨i, hi⟩ ⟨j, hj⟩

theorem rows_pos_of_mem (m : Matrix α) {x : α} (hx : x ∈ m.entries) : 0 < m.rows :=
  forall_mem_entries (P := fun _ => 0 < m.rows).2 (fun i _ => i.pos) x hx

/-- Square, with zeros beside the diagonal. -/
structure IsDiagonal [Zero α] (m : Matrix α) : Prop where
  square : m.cols = m.rows
  zero : ∀ i j, i.val ≠ j.val → m.get i j = 0

variable [Scalar α] {a b : Matrix α}

theorem get_diagonal (v : List α) (i j : Fin v.length) :
    (diagonal v).get i j = if i = j then v.get i else 0 := get_ofFn _ _ _ i j

theorem isDiagonal_diagonal (v : List α) : (diagonal v).IsDiagonal where
  square := rfl
  zero i j hij := (get_diagonal v i j).trans (if_neg fun h => hij (congrArg Fin.val h))

theorem mem_entries_diagonal {v : List α} {x : α} (hx : x ∈ v) : x ∈ (diagonal v).entries := by
  obtain ⟨i, rfl⟩ := List.get_of_mem hx
  have hentry := (get_diagonal v i i).trans (if_pos rfl)
  exact hentry ▸ (diagonal v).get_mem i i

theorem forall_mem_entries_diagonal {P : α → Prop} {v : List α} (hzero : P 0)
    (hv : ∀ x ∈ v, P x) : ∀ x ∈ (diagonal v).entries, P x := by
  refine forall_mem_entries.2 fun i j => ?_
  have hentry := get_diagonal v i j
  split at hentry
  · exact hentry ▸ hv _ (List.get_mem _ _)
  · exact hentry ▸ hzero

/-! ### Blocks -/

theorem get_blockDiagonal_left (i : Fin a.rows) (j : Fin a.cols) :
    (blockDiagonal a b).get (i.castAdd b.rows) (j.castAdd b.cols) = a.get i j :=
  (get_ofFn _ _ _ (i.castAdd b.rows) (j.castAdd b.cols)).trans (dif_pos ⟨i.isLt, j.isLt⟩)

theorem get_blockDiagonal_right (i : Fin b.rows) (j : Fin b.cols) :
    (blockDiagonal a b).get (i.natAdd a.rows) (j.natAdd a.cols) = b.get i j := by
  have hbelow : ¬ ((i.natAdd a.rows).val < a.rows ∧ (j.natAdd a.cols).val < a.cols) := by
    simp
  refine (get_ofFn _ _ _ (i.natAdd a.rows) (j.natAdd a.cols)).trans ?_
  rw [dif_neg hbelow, dif_pos ⟨by simp, by simp⟩]
  congr 1 <;> simp

/-- Beside the blocks there are zeros. -/
theorem get_blockDiagonal_above (i : Fin a.rows) (j : Fin b.cols) :
    (blockDiagonal a b).get (i.castAdd b.rows) (j.natAdd a.cols) = 0 := by
  refine (get_ofFn _ _ _ (i.castAdd b.rows) (j.natAdd a.cols)).trans ?_
  rw [dif_neg (by simp), dif_neg (by simp)]

theorem get_blockDiagonal_below (i : Fin b.rows) (j : Fin a.cols) :
    (blockDiagonal a b).get (i.natAdd a.rows) (j.castAdd b.cols) = 0 := by
  refine (get_ofFn _ _ _ (i.natAdd a.rows) (j.castAdd b.cols)).trans ?_
  rw [dif_neg (by simp), dif_neg (by simp)]

/-- Every entry lies in one of the blocks or beside them. -/
theorem forall_get_blockDiagonal {P : Nat → Nat → α → Prop}
    (hleft : ∀ i j, P (i : Fin a.rows) (j : Fin a.cols) (a.get i j))
    (hright : ∀ i j, P (a.rows + (i : Fin b.rows)) (a.cols + (j : Fin b.cols)) (b.get i j))
    (habove : ∀ (i : Fin a.rows) (j : Fin b.cols), P i (a.cols + j) 0)
    (hbelow : ∀ (i : Fin b.rows) (j : Fin a.cols), P (a.rows + i) j 0)
    (i : Fin (a.rows + b.rows)) (j : Fin (a.cols + b.cols)) :
    P i j ((blockDiagonal a b).get i j) := by
  refine Fin.addCases (fun i => ?_) (fun i => ?_) i <;>
    refine Fin.addCases (fun j => ?_) (fun j => ?_) j
  · exact get_blockDiagonal_left (b := b) i j ▸ hleft i j
  · exact get_blockDiagonal_above (a := a) i j ▸ habove i j
  · exact get_blockDiagonal_below (b := b) i j ▸ hbelow i j
  · exact get_blockDiagonal_right (a := a) i j ▸ hright i j

theorem IsDiagonal.blockDiagonal (ha : a.IsDiagonal) (hb : b.IsDiagonal) :
    (blockDiagonal a b).IsDiagonal where
  square := congrArg₂ (· + ·) ha.square hb.square
  zero := by
    have hsquare := ha.square
    refine forall_get_blockDiagonal (P := fun i j x => i ≠ j → x = 0) ha.zero ?_ ?_ ?_
    · exact fun i j hij => hb.zero i j fun h => hij (by rw [hsquare, h])
    · exact fun _ _ _ => rfl
    · exact fun _ _ _ => rfl

theorem forall_mem_entries_blockDiagonal {P : α → Prop} (hzero : P 0) :
    (∀ x ∈ (blockDiagonal a b).entries, P x) ↔
      (∀ x ∈ a.entries, P x) ∧ ∀ x ∈ b.entries, P x := by
  simp only [forall_mem_entries]
  constructor
  · intro h
    refine ⟨fun i j => ?_, fun i j => ?_⟩
    · rw [← get_blockDiagonal_left (b := b)]
      exact h _ _
    · rw [← get_blockDiagonal_right (a := a)]
      exact h _ _
  · rintro ⟨ha, hb⟩
    exact forall_get_blockDiagonal (P := fun _ _ x => P x) ha hb (fun _ _ => hzero)
      fun _ _ => hzero

end Matrix

end RecedingHorizon
