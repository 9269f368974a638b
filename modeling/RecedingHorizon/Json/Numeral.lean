import RecedingHorizon.Decimal
import RecedingHorizon.Json.Quoted

/-!
Numbers in JSON, kept the way they are written: a sign, a whole part, the digits after the point
and an exponent. A size is written as a whole part alone. A double is written with the fewest
digits that read back, positionally while its decimal exponent is small and with an explicit
exponent otherwise.
-/

namespace RecedingHorizon.Json

structure Numeral where
  negative : Bool
  whole : Nat
  /-- The digits after the point, which is left out if there are none. -/
  fraction : List (Fin 10)
  exponent : Option Int
  deriving DecidableEq, Repr

namespace Numeral

def ofNat (n : Nat) : Numeral := ⟨false, n, [], none⟩

/-- Sizes are below this number, which takes 65 bits. -/
def sizeBound : Nat := 0x10000000000000000

/-- Sizes fit into 64 bits and have no sign, point or exponent, not even `-0` or `4.0`. -/
def toSize? (n : Numeral) : Option Nat :=
  if n.negative = false ∧ n.fraction = [] ∧ n.exponent = none ∧ n.whole < sizeBound then some n.whole
  else none

/-- The magnitude. -/
def toDecimal (n : Numeral) : Decimal where
  digits := n.whole * Nat.pow 10 n.fraction.length + Decimal.ofDigits n.fraction
  exponent := n.exponent.getD 0 - n.fraction.length

/-- The nearest double, unless the number is beyond the largest one. -/
def toFloat? (n : Numeral) : Option Float :=
  let word := n.toDecimal.toWord
  if word < Binary64.infinityWord then some (Binary64.toFloat n.negative word) else none

/-- Whether a number is written positionally, by the exponent of its leading digit. -/
def isPositional : Int → Bool
  | .ofNat exponent => exponent < 16
  | .negSucc exponent => exponent < 5

/-- Positional notation always has a digit after the point. -/
def ofDecimal (negative : Bool) (d : Decimal) : Numeral :=
  let digits := Decimal.digitList d.digits
  let leading := d.exponent + (digits.length - 1 : Nat)
  if isPositional leading then
    let (whole, fraction) := d.positional
    ⟨negative, whole, if fraction.isEmpty then [Decimal.zeroDigit] else fraction, none⟩
  else
    match digits with
    | [] => ⟨negative, 0, [], some leading⟩
    | first :: rest => ⟨negative, first.val, rest, some leading⟩

/-- The numeral of a double that is a number. -/
def ofFloat? (x : Float) : Option Numeral :=
  let (negative, word) := Binary64.ofFloat x
  if word = 0 then some ⟨negative, 0, [Decimal.zeroDigit], none⟩
  else if word < Binary64.infinityWord then
    some (ofDecimal negative (Decimal.shortest .even word))
  else none

def digitByte (digit : Fin 10) : UInt8 := (48 + digit.val).toUInt8

def digitBytes (n : Nat) : Bytes := (Decimal.digitList n).map digitByte

def render (n : Numeral) : Bytes :=
  (if n.negative then ascii "-" else [])
    ++ digitBytes n.whole
    ++ (if n.fraction.isEmpty then [] else ascii "." ++ n.fraction.map digitByte)
    ++ match n.exponent with
      | none => []
      | some (.ofNat e) => ascii "e+" ++ digitBytes e
      | some (.negSucc e) => ascii "e-" ++ digitBytes (e + 1)

def digit? (b : UInt8) : Option (Fin 10) :=
  if h : 48 ≤ b.toNat ∧ b.toNat < 58 then some ⟨b.toNat - 48, by omega⟩ else none

/-- The digits in front, and the rest. -/
def scanDigits : Bytes → List (Fin 10) × Bytes
  | [] => ([], [])
  | b :: rest =>
    match digit? b with
    | some digit =>
      let (digits, rest) := scanDigits rest
      (digit :: digits, rest)
    | none => ([], b :: rest)

/-- A whole part: zero alone, or digits of which the first is not zero. -/
def scanWhole (bytes : Bytes) : Option (Nat × Bytes) :=
  match bytes with
  | 48 :: rest => some (0, rest)
  | _ =>
    let (digits, rest) := scanDigits bytes
    if digits.isEmpty then none else some (Decimal.ofDigits digits, rest)

def scanFraction (bytes : Bytes) : Option (List (Fin 10) × Bytes) :=
  match bytes with
  | 46 :: rest =>
    let (digits, rest) := scanDigits rest
    if digits.isEmpty then none else some (digits, rest)
  | _ => some ([], bytes)

def scanSign (bytes : Bytes) : Bool × Bytes :=
  match bytes with
  | 45 :: rest => (true, rest)
  | 43 :: rest => (false, rest)
  | _ => (false, bytes)

def scanExponent (bytes : Bytes) : Option (Option Int × Bytes) :=
  match bytes with
  | [] => some (none, [])
  | b :: rest =>
    if b = 101 ∨ b = 69 then
      let (negative, rest) := scanSign rest
      let (digits, rest) := scanDigits rest
      if digits.isEmpty then none
      else
        let magnitude : Int := Decimal.ofDigits digits
        some (some (if negative then -magnitude else magnitude), rest)
    else some (none, bytes)

/-- Reads a number from the front. -/
def scan (bytes : Bytes) : Option (Numeral × Bytes) := do
  let (negative, bytes) := match bytes with
    | 45 :: rest => (true, rest)
    | _ => (false, bytes)
  let (whole, bytes) ← scanWhole bytes
  let (fraction, bytes) ← scanFraction bytes
  let (exponent, bytes) ← scanExponent bytes
  pure (⟨negative, whole, fraction, exponent⟩, bytes)

end Numeral

end RecedingHorizon.Json
