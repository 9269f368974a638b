/-!
Double-precision magnitudes as natural numbers. Every finite double is a whole multiple of the
smallest subnormal, so a magnitude is its count of those units, and the words of the finite
doubles, read with the sign bit cleared, are ordered as their magnitudes are. The main operation
rounds any quotient of natural numbers to the nearest word, an exact half going to the even one.
-/

namespace RecedingHorizon.Binary64

/-- Binary places of the unit after the point. -/
def unitPlaces : Nat := 1074

/-- Bits of a significand that are written in a word. -/
def fractionBits : Nat := 52

/-- The leading bit of the significand of a normal number, which its word leaves out. -/
def leadingBit : Nat := 0x10000000000000

/-- Words from here on stand for infinity and the NaNs. -/
def infinityWord : Nat := 0x7ff0000000000000

def signBit : Nat := 0x8000000000000000

/-- Binary places by which the significand of a word is shifted above the unit. -/
def shift (word : Nat) : Nat := word / leadingBit - 1

/-- The significand of a word, with the leading bit of a normal number restored. -/
def significand (word : Nat) : Nat :=
  if word < leadingBit then word else word % leadingBit + leadingBit

/-- The magnitude of a finite word in units. -/
def units (word : Nat) : Nat := significand word <<< shift word

/-- The natural number nearest to `num / den`, an exact half going to the even neighbour. -/
def nearestQuotient (num den : Nat) : Nat :=
  let quotient := num / den
  let twice := 2 * (num % den)
  if twice < den then quotient
  else if twice = den then quotient + quotient % 2
  else quotient + 1

@[simp] theorem nearestQuotient_mul {den : Nat} (n : Nat) (hden : 0 < den) :
    nearestQuotient (n * den) den = n := by
  simp [nearestQuotient, hden]

/-- Rounding depends on the quotient alone. -/
theorem nearestQuotient_mul_mul (num den : Nat) {factor : Nat} (hfactor : 0 < factor) :
    nearestQuotient (num * factor) (den * factor) = nearestQuotient num den := by
  have htwice : 2 * (num * factor % (den * factor)) = 2 * (num % den) * factor := by
    rw [Nat.mul_mod_mul_right, Nat.mul_assoc]
  simp only [nearestQuotient, Nat.mul_div_mul_right _ _ hfactor, htwice,
    Nat.mul_lt_mul_right hfactor, Nat.mul_right_cancel_iff hfactor]

/-- The word nearest to `num / den` units. A significand that is rounded up to twice the leading
bit carries into the next exponent, and one that carries past the last exponent gives
`infinityWord` or more. -/
def nearestWord (num den : Nat) : Nat :=
  let whole := num / den
  let places := if whole < 2 * leadingBit then 0 else whole.log2 - fractionBits
  places * leadingBit + nearestQuotient num (den <<< places)

theorem nearestWord_mul (num den : Nat) {factor : Nat} (hfactor : 0 < factor) :
    nearestWord (num * factor) (den * factor) = nearestWord num den := by
  simp only [nearestWord, Nat.mul_div_mul_right _ _ hfactor, Nat.shiftLeft_eq]
  rw [Nat.mul_right_comm, nearestQuotient_mul_mul _ _ hfactor]

/-- The sign of a double and the word of its magnitude. -/
def ofFloat (x : Float) : Bool × Nat :=
  let bits := x.toBits.toNat
  (decide (signBit ≤ bits), bits % signBit)

/-- The double with the given sign and the given word of its magnitude. -/
def toFloat (negative : Bool) (word : Nat) : Float :=
  Float.ofBits (UInt64.ofNat (word + if negative then signBit else 0))

/-- The greatest whole number that is at most `x` and at most `last`. Numbers below zero and NaN
give zero. The bound is compared as a number; up to `2 ^ 53` it is a double itself. -/
def floorUpTo (last : Nat) (x : Float) : Nat :=
  let (negative, word) := ofFloat x
  if negative ∨ infinityWord < word then 0
  else if word = infinityWord then last
  else min (units word >>> unitPlaces) last

theorem floorUpTo_le (last : Nat) (x : Float) : floorUpTo last x ≤ last := by
  simp only [floorUpTo]
  repeat' split
  · exact Nat.zero_le last
  · exact Nat.le_refl last
  · exact Nat.min_le_right _ _

end RecedingHorizon.Binary64
