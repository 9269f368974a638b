import RecedingHorizon.Eigenvalue
import RecedingHorizon.Error

/-!
Checks on single vectors, numbers and weights. Each names the field it was asked about and reports
the first thing that is wrong with it.
-/

namespace RecedingHorizon

abbrev Checked (α : Type) := Except (ValidationError α)

/-- The value of a partial operation, or the error that it has none. -/
def defined {α β : Type} (operation : String) : Option β → Checked α β
  | some value => .ok value
  | none => .error (.undefined operation)

@[simp] theorem defined_some {α β : Type} (operation : String) (value : β) :
    (defined operation (some value) : Checked α β) = .ok value := rfl

def checkDimension {α : Type} (field : String) (expected actual : Nat) : Checked α Unit :=
  if expected = actual then .ok () else .error (.dimension field expected actual)

@[simp] theorem checkDimension_eq_ok {α : Type} {field : String} {expected actual : Nat} :
    (checkDimension field expected actual : Checked α Unit) = .ok () ↔ expected = actual := by
  simp [checkDimension]

def checkLength {α : Type} (field : String) (expected : Nat) (v : List α) : Checked α Unit :=
  checkDimension field expected v.length

/-- The sum of two sizes. Sizes are words of 64 bits, so that a sum that is none starts again from
zero. -/
def sizeSum (m n : Nat) : Nat := (m + n) % 0x10000000000000000

section Scalars

variable {α : Type} [Scalar α]

def checkFinite (field : String) (v : List α) : Checked α Unit :=
  match v.findIdx? fun x => !Scalar.isFinite x with
  | some index => .error (.notFinite field index)
  | none => .ok ()

def checkPositive (field : String) (value : α) : Checked α Unit :=
  if Scalar.isFinite value = true ∧ ¬ value ≤ 0 then .ok () else .error (.notPositive field value)

/-- What keeps an entry from being the unit that others are measured in. -/
def unitFault? (field : String) (index : Nat) (x : α) : Option (ValidationError α) :=
  if Scalar.isFinite x = false then some (.notFinite field index)
  else if Scalar.isZero x then some (.zeroEntry field index)
  else none

/-- The weight that gives a deviation by `v i` in entry `i` unit cost. -/
def inverseSquares (field : String) (v : List α) : Checked α (Matrix α) :=
  match v.zipIdx.findSome? fun (x, index) => unitFault? field index x with
  | some fault => .error fault
  | none => .ok (Matrix.diagonal (v.map fun x => 1 / (x * x)))

/-- How far a weight may be from symmetric and from positive semi-definite. -/
def weightTolerance? (m : Matrix α) : Option α :=
  m.largestMagnitude?.map fun largest => 1e-12 * Scalar.larger largest Scalar.tiny

end Scalars

/-- Row and column of an entry of a matrix with `rows` rows, by its place in the list. -/
def position? (rows index : Nat) : Option (Nat × Nat) :=
  if rows = 0 then none else some (index % rows, index / rows)

/-- Accepts symmetric positive semi-definite matrices with `n` rows, up to a tolerance relative to
their largest entry. -/
def checkWeight {α : Type} [Scalar α] [Spectral α] (field : String) (n : Nat) (m : Matrix α) :
    Checked α Unit :=
  if m.rows ≠ n then .error (.dimension field n m.rows)
  else if hsquare : m.cols ≠ m.rows then .error (.dimension field n m.cols)
  else
    match m.entries.findIdx? fun x => !Scalar.isFinite x with
    | some index => do
      let (row, col) ← defined "position of an entry" (position? n index)
      .error (.notFiniteEntry field row col)
    | none =>
      if n = 0 then .ok ()
      else do
        let tolerance ← defined "largest magnitude" (weightTolerance? m)
        if m.isSymmetricWithin (Decidable.not_not.1 hsquare) tolerance then
          let eigenvalue ← defined "least eigenvalue" (Spectral.leastEigenvalue? m)
          if eigenvalue < -tolerance then .error (.notPositiveSemidefinite field eigenvalue)
          else .ok ()
        else .error (.notSymmetric field)

end RecedingHorizon
