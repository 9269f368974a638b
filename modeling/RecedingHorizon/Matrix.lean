import RecedingHorizon.Binary64

/-!
Scalars, vectors and matrices. The library is written over any type of scalars with the operations
below: doubles run it, and exact arithmetic is another instance of the same definitions. Vectors are
lists, and a matrix is the list of its entries, column after column. Reading an entry takes its row
and column as bounded indices. An operation whose operands have to fit each other answers with an
option, and `none` says that they do not.
-/

namespace RecedingHorizon

/-! ### Scalars -/

class Scalar (α : Type) extends
    Zero α, One α, Add α, Sub α, Mul α, Div α, Neg α, OfScientific α, LT α, LE α where
  decidableLT : DecidableLT α
  decidableLE : DecidableLE α
  abs : α → α
  ofNat : Nat → α
  isFinite : α → Bool
  /-- The greatest whole number at most the given bound and at most the scalar, zero if there is
  none. -/
  floorUpTo : Nat → α → Nat

namespace Scalar

variable {α : Type} [Scalar α]

instance : DecidableLT α := decidableLT
instance : DecidableLE α := decidableLE

/-- Equality with zero as numbers compare, so that both signed zeros count. -/
def isZero (x : α) : Bool := decide (x ≤ 0) && decide (0 ≤ x)

/-- The smallest positive double of full precision. -/
def tiny : α := 1 / ofNat (Nat.pow 2 1022)

def larger (x y : α) : α := if x < y then y else x

def smaller (x y : α) : α := if y < x then y else x

end Scalar

instance : Scalar Float where
  decidableLT := inferInstance
  decidableLE := inferInstance
  abs := Float.abs
  ofNat := Float.ofNat
  isFinite := Float.isFinite
  floorUpTo := Binary64.floorUpTo

/-! ### Vectors and matrices -/

structure Matrix (α : Type) where
  rows : Nat
  cols : Nat
  /-- Column after column. -/
  entries : List α
  length_entries : entries.length = rows * cols
  deriving DecidableEq

section Vectors

variable {α : Type} [Scalar α]

/-- The sum of the products, added up from the front. From eight entries on, a matrix library may add
up several strands instead; its sum is the same unless one of the two is rounded on the way, and can
then differ in its last bits. -/
def dot (v w : List α) : α := (List.zipWith (· * ·) v w).foldl (· + ·) 0

def dot? (v w : List α) : Option α := if v.length = w.length then some (dot v w) else none

def sub? (v w : List α) : Option (List α) :=
  if v.length = w.length then some (List.zipWith (· - ·) v w) else none

end Vectors

namespace Matrix

variable {α : Type}

theorem index_lt {i j rows cols : Nat} (hi : i < rows) (hj : j < cols) :
    i + j * rows < rows * cols := by
  calc
    i + j * rows < rows + j * rows := by omega
    _ = (j + 1) * rows := by rw [Nat.succ_mul, Nat.add_comm]
    _ ≤ cols * rows := Nat.mul_le_mul_right rows hj
    _ = rows * cols := Nat.mul_comm cols rows

theorem index_mod {i j rows : Nat} (hi : i < rows) : (i + j * rows) % rows = i := by
  rw [Nat.add_mul_mod_self_right, Nat.mod_eq_of_lt hi]

theorem index_div {i j rows : Nat} (hi : i < rows) : (i + j * rows) / rows = j := by
  rw [Nat.add_mul_div_right _ _ (Nat.zero_lt_of_lt hi), Nat.div_eq_of_lt hi, Nat.zero_add]

def get (m : Matrix α) (i : Fin m.rows) (j : Fin m.cols) : α :=
  m.entries.get ⟨i.val + j.val * m.rows, by rw [m.length_entries]; exact index_lt i.isLt j.isLt⟩

def ofFn (rows cols : Nat) (f : Fin rows → Fin cols → α) : Matrix α where
  rows := rows
  cols := cols
  entries := List.ofFn fun k : Fin (rows * cols) =>
    f ⟨k % rows, Nat.mod_lt _ (Nat.pos_of_mul_pos_right (Nat.zero_lt_of_lt k.isLt))⟩
      ⟨k / rows, Nat.div_lt_of_lt_mul k.isLt⟩
  length_entries := List.length_ofFn

@[simp] theorem rows_ofFn (rows cols : Nat) (f : Fin rows → Fin cols → α) :
    (ofFn rows cols f).rows = rows := rfl

@[simp] theorem cols_ofFn (rows cols : Nat) (f : Fin rows → Fin cols → α) :
    (ofFn rows cols f).cols = cols := rfl

@[simp] theorem get_ofFn (rows cols : Nat) (f : Fin rows → Fin cols → α)
    (i : Fin rows) (j : Fin cols) : (ofFn rows cols f).get i j = f i j := by
  simp [get, ofFn, index_mod i.isLt, index_div i.isLt]

def row (m : Matrix α) (i : Fin m.rows) : List α := List.ofFn fun j => m.get i j

@[simp] theorem length_row (m : Matrix α) (i : Fin m.rows) : (m.row i).length = m.cols := by
  simp [row]

/-- The matrix with the given rows, if they are equally long. -/
def ofRows? (rows cols : Nat) (data : List α) : Option (Matrix α) :=
  if h : data.length = rows * cols then
    some (ofFn rows cols fun i j => data.get ⟨j.val + i.val * cols, by
      rw [h, Nat.mul_comm rows]; exact index_lt j.isLt i.isLt⟩)
  else none

/-- The matrix with the given columns, written one after the other. -/
def ofEntries? (rows cols : Nat) (entries : List α) : Option (Matrix α) :=
  if h : entries.length = rows * cols then some ⟨rows, cols, entries, h⟩ else none

variable [Scalar α]

def diagonal (v : List α) : Matrix α :=
  ofFn v.length v.length fun i j => if i = j then v[i] else 0

/-- The matrix with `a` above and to the left of `b`, and zeros beside them. -/
def blockDiagonal (a b : Matrix α) : Matrix α :=
  ofFn (a.rows + b.rows) (a.cols + b.cols) fun i j =>
    if h : i < a.rows ∧ j < a.cols then a.get ⟨i, h.1⟩ ⟨j, h.2⟩
    else if h : a.rows ≤ i ∧ a.cols ≤ j then
      b.get ⟨i - a.rows, by omega⟩ ⟨j - a.cols, by omega⟩
    else 0

def mulVec? (m : Matrix α) (v : List α) : Option (List α) :=
  if m.cols = v.length then some (List.ofFn fun i => dot (m.row i) v) else none

/-- The largest magnitude of an entry, defined for a matrix that has one. -/
def largestMagnitude? (m : Matrix α) : Option α :=
  match m.entries.map Scalar.abs with
  | [] => none
  | first :: rest => some (rest.foldl Scalar.larger first)

/-- Entries that transposition exchanges differ by at most `tolerance`. -/
def isSymmetricWithin (m : Matrix α) (h : m.cols = m.rows) (tolerance : α) : Bool :=
  (List.finRange m.rows).all fun i => (List.finRange m.rows).all fun j =>
    decide (i < j → ¬ tolerance < Scalar.abs (m.get i (j.cast h.symm) - m.get j (i.cast h.symm)))

end Matrix

end RecedingHorizon
