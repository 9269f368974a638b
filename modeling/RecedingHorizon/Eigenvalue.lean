import RecedingHorizon.Matrix

/-!
The least eigenvalue of a symmetric matrix. Everything that needs it is written over any routine that
finds it. The one that runs over doubles is made of cyclic Jacobi rotations, which zero one pair of
off-diagonal entries after another until only the eigenvalues on the diagonal are left. The matrix is
first divided by its largest magnitude, so that the squares in a rotation neither overflow nor
vanish; a matrix that is diagonal to begin with is read off as it stands.
-/

namespace RecedingHorizon

/-- A routine that finds least eigenvalues. -/
class Spectral (α : Type) where
  /-- The least eigenvalue of the symmetric matrix with the lower triangle of the given one, defined
  for a square matrix with at least one row. -/
  leastEigenvalue? : Matrix α → Option α

namespace Jacobi

/-- A symmetric matrix by its rows. -/
abbrev Table := Array (Array Float)

def entry (a : Table) (i j : Nat) : Float := (a.getD i #[]).getD j 0

def lowerTriangle (m : Matrix Float) (h : m.cols = m.rows) : Table :=
  Array.ofFn fun i : Fin m.rows => Array.ofFn fun j : Fin m.rows =>
    if j ≤ i then m.get i (j.cast h.symm) else m.get j (i.cast h.symm)

/-- The positions below the diagonal, row by row. -/
def positions (n : Nat) : List (Nat × Nat) :=
  (List.range n).flatMap fun i => (List.range i).map fun j => (i, j)

def diagonal (a : Table) : List Float := (List.range a.size).map fun i => entry a i i

/-- No entry beside the diagonal is larger than `bound`. -/
def isDiagonalWithin (a : Table) (bound : Float) : Bool :=
  (positions a.size).all fun (i, j) => (entry a i j).abs ≤ bound

/-- Turns the axes `p` and `q` by the smaller angle that makes their common entry zero. -/
def rotate (a : Table) (p q : Nat) : Table :=
  let common := entry a p q
  if common == 0 then a
  else
    let cotangent := (entry a q q - entry a p p) / (2 * common)
    let magnitude := 1 / (cotangent.abs + (cotangent * cotangent + 1).sqrt)
    let tangent := if cotangent < 0 then -magnitude else magnitude
    let cosine := 1 / (tangent * tangent + 1).sqrt
    let sine := tangent * cosine
    let rowP := Array.ofFn fun j : Fin a.size =>
      if j = p then entry a p p - tangent * common
      else if j = q then 0
      else cosine * entry a p j - sine * entry a q j
    let rowQ := Array.ofFn fun j : Fin a.size =>
      if j = q then entry a q q + tangent * common
      else if j = p then 0
      else sine * entry a p j + cosine * entry a q j
    a.mapIdx fun i row =>
      if i = p then rowP
      else if i = q then rowQ
      else (row.setIfInBounds p (rowP.getD i 0)).setIfInBounds q (rowQ.getD i 0)

/-- Visits every pair of axes once per sweep, for as long as something is left to remove. -/
def sweep : Nat → Table → Table
  | 0, a => a
  | sweeps + 1, a =>
    if isDiagonalWithin a 1e-40 then a
    else sweep sweeps ((positions a.size).foldl (fun a (i, j) => rotate a i j) a)

def least : List Float → Option Float
  | [] => none
  | first :: rest => some (rest.foldl Scalar.smaller first)

def leastEigenvalue? (m : Matrix Float) : Option Float :=
  if h : m.cols = m.rows then
    let a := lowerTriangle m h
    if isDiagonalWithin a 0 then least (diagonal a)
    else
      let scale := (a.toList.flatMap Array.toList).foldl (fun s x => Scalar.larger s x.abs) 0
      let scaled := a.map fun row => row.map (· / scale)
      (least (diagonal (sweep 40 scaled))).map (· * scale)
  else none

end Jacobi

instance : Spectral Float where
  leastEigenvalue? := Jacobi.leastEigenvalue?

end RecedingHorizon
