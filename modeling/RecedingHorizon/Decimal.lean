import RecedingHorizon.Binary64

/-!
Decimal numbers `digits * 10 ^ exponent` and their passage to and from double-precision words.
`toWord` reads a decimal as the nearest word. `shortest` gives a decimal with the fewest digits
that reads back as the word it came from, and always one that reads back: where no short decimal
does, the exact value is taken.
-/

namespace RecedingHorizon

structure Decimal where
  digits : Nat
  exponent : Int
  deriving DecidableEq, Repr

namespace Decimal

open Binary64

/-- Powers of ten from this one on are beyond the largest double. -/
def overflowZeros : Nat := 309

/-- Powers of ten down to minus this one are less than half a unit. -/
def vanishingPlaces : Nat := 324

/-- The word nearest to a decimal; `infinityWord` or more means that it is beyond the largest
double. The two outer bounds keep huge exponents from being multiplied out: a number of at most
three bits for every place that vanishes is less than half a unit. -/
def toWord (d : Decimal) : Nat :=
  match d.exponent with
  | .ofNat zeros =>
    if d.digits = 0 then 0
    else if overflowZeros ≤ zeros then infinityWord
    else nearestWord ((d.digits * Nat.pow 10 zeros) <<< unitPlaces) 1
  | .negSucc places =>
    if d.digits.log2 + 1 ≤ 3 * (places + 1 - vanishingPlaces) then 0
    else nearestWord (d.digits <<< unitPlaces) (Nat.pow 10 (places + 1))

/-- The value of a word, in full: a half is five tenths, so every place below the binary point is
one place below the decimal point. -/
def exact (word : Nat) : Decimal :=
  let places := unitPlaces - shift word
  ⟨(significand word <<< (shift word - unitPlaces)) * Nat.pow 5 places, -places⟩

/-- The same decimal with up to `count` trailing zeros moved into the exponent. -/
def trim : Nat → Decimal → Decimal
  | 0, d => d
  | count + 1, d =>
    if d.digits % 10 = 0 then trim count ⟨d.digits / 10, d.exponent + 1⟩ else d

/-- What becomes of a value halfway between two decimals of equal length. -/
inductive Tie where
  | up
  | even
  deriving DecidableEq, Repr

def digitCount (n : Nat) : Nat := (Nat.toDigits 10 n).length

/-- No double needs more digits than this to be told from its neighbours. -/
def enoughDigits : Nat := 17

/-- The two decimals next to a value that end `cut` places before it, the nearer one first. -/
def neighbours (tie : Tie) (value : Decimal) (cut : Nat) : Decimal × Decimal :=
  let power := Nat.pow 10 cut
  let below := value.digits / power
  let twice := 2 * (value.digits % power)
  let upward := power < twice ∨ twice = power ∧ (tie = .up ∨ below % 2 = 1)
  let lower := trim enoughDigits ⟨below, value.exponent + cut⟩
  let upper := trim enoughDigits ⟨below + 1, value.exponent + cut⟩
  if upward then (upper, lower) else (lower, upper)

/-- The nearest decimal with at most `count` digits. -/
def rounded (tie : Tie) (word count : Nat) : Decimal :=
  let value := exact word
  (neighbours tie value (digitCount value.digits - count)).1

/-- The fewest digits that read back as the word, and of those the nearest to its value. -/
def shortest (tie : Tie) (word : Nat) : Decimal :=
  let value := exact word
  let size := digitCount value.digits
  let short := (List.range enoughDigits).findSome? fun length =>
    let (nearer, farther) := neighbours tie value (size - (length + 1))
    [nearer, farther].find? fun d => d.toWord = word
  short.getD value

def zeroDigit : Fin 10 := Fin.ofNat 10 0

/-- The last `count` decimal digits of `n`. -/
def lastDigits : Nat → Nat → List (Fin 10)
  | 0, _ => []
  | count + 1, n => lastDigits count (n / 10) ++ [Fin.ofNat 10 n]

@[simp] theorem length_lastDigits (count n : Nat) : (lastDigits count n).length = count := by
  induction count generalizing n with
  | zero => rfl
  | succ count ih => simp [lastDigits, ih]

/-- The digits of `n`, of which zero has one. -/
def digitList (n : Nat) : List (Fin 10) := lastDigits (digitCount n) n

/-- The natural number with the given digits. -/
def ofDigits (digits : List (Fin 10)) : Nat := digits.foldl (fun n digit => 10 * n + digit.val) 0

/-- The whole part and the digits after the point. -/
def positional (d : Decimal) : Nat × List (Fin 10) :=
  match d.exponent with
  | .ofNat zeros => (d.digits * Nat.pow 10 zeros, [])
  | .negSucc places => (d.digits / Nat.pow 10 (places + 1), lastDigits (places + 1) d.digits)

/-- Positional text at any magnitude, with a point only before digits. -/
def text (d : Decimal) : String :=
  let (whole, fraction) := d.positional
  let characters := fraction.map fun digit => Nat.digitChar digit.val
  toString whole ++ if fraction.isEmpty then "" else "." ++ String.ofList characters

/-- The text of a double in messages: the fewest digits, a tie going up, never an exponent. -/
def display (x : Float) : String :=
  let (negative, word) := ofFloat x
  if infinityWord < word then "NaN"
  else
    let magnitude :=
      if word = infinityWord then "inf"
      else if word = 0 then "0"
      else (shortest .up word).text
    if negative then "-" ++ magnitude else magnitude

end Decimal

end RecedingHorizon
