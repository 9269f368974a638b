import Mathlib
import RecedingHorizon.Proofs.Binary64.Rounding

/-!
Ranges of doubles. The product of two finite doubles is finite unless it is rounded to infinity. The
reciprocal of a square has two ways to go wrong, since the square is rounded before it is divided by;
one bound on the number covers both of them.
-/

namespace RecedingHorizon.Binary64

open Float.Model.UnpackedFloat

/-! ### Words -/

/-- A product of finite doubles is finite unless it is rounded to infinity. -/
theorem isFinite_mul_iff {x y : Float} (hx : x.isFinite = true) (hy : y.isFinite = true) :
    (x * y).isFinite = true ↔
      units (ofFloat x).2 * units (ofFloat y).2 < overflowUnits * 2 ^ unitPlaces := by
  rw [isFinite_iff, ofFloat_mul hx hy, ← nearestWord_lt_infinityWord_iff (Nat.two_pow_pos _)]
  exact min_lt_iff.trans (or_iff_left (lt_irrefl _))

theorem positive_div (negative : Bool) : Sign.positive / signOf negative = signOf negative := by
  cases negative <;> rfl

/-- The reciprocal of a number is finite unless the number is at most a quarter of the smallest
double of full precision. -/
theorem isFinite_one_div_iff {x : Float} (hx : (ofFloat x).2 ≤ infinityWord) :
    (1 / x).isFinite = true ↔ 2 ^ 50 < (ofFloat x).2 := by
  have hone : (1 : Float).toModel.unpack = .finite .positive (2 ^ 52) (-52) (by decide) := rfl
  rw [isFinite_iff]
  rcases Nat.lt_or_eq_of_le hx with hlt | heq
  · rcases Nat.eq_zero_or_pos (ofFloat x).2 with hzero | hpos
    -- zero, which the square of a tiny number is rounded to
    · have hquotient : ofFloat (1 / x) = ((ofFloat x).1, infinityWord) := by
        refine ofFloat_of_toNat_bits (by decide) ?_
        rw [bits_div, hone, unpack_of_eq_zero hzero]
        exact (toNat_packedInfinity _).trans (by rw [positive_div])
      rw [hquotient, hzero]
      exact iff_of_false (lt_irrefl infinityWord) (by decide)
    · have hunit : units (ofFloat 1).2 = 2 ^ unitPlaces := by decide +kernel
      have hscaled : 2 ^ unitPlaces * 2 ^ unitPlaces = 2 ^ 104 * 2 ^ 2044 := by decide +kernel
      have hquarter : units (2 ^ 50) = 2 ^ 50 := by decide +kernel
      have hword : units (2 ^ 50) < units (ofFloat x).2 ↔ 2 ^ 50 < (ofFloat x).2 :=
        units_strictMono.lt_iff_lt
      rw [ofFloat_div rfl ((isFinite_iff x).2 hlt) hpos, hunit, min_lt_iff,
        or_iff_left (lt_irrefl _), nearestWord_lt_infinityWord_iff (units_strictMono hpos),
        hscaled, overflowUnits, Nat.mul_right_comm, Nat.mul_lt_mul_right (Nat.two_pow_pos _),
        ← hword, hquarter]
      omega
  -- infinity, which the square of a large number is rounded to
  · have hquotient : ofFloat (1 / x) = ((ofFloat x).1, 0) := by
      refine ofFloat_of_toNat_bits (by decide) ?_
      rw [bits_div, hone, unpack_infinity heq]
      exact (toNat_packedZero _).trans (by rw [positive_div, Nat.add_zero])
    rw [hquotient, heq]
    exact iff_of_true (show 0 < infinityWord by decide) (by decide)

/-- The square of a number is at most a quarter of the smallest double of full precision if the
number is at most `2 ^ (-512)`, whose word has the exponent 511. -/
theorem lt_square_iff {x : Float} (hx : x.isFinite = true) :
    2 ^ 50 < (ofFloat (x * x)).2 ↔ 511 * leadingBit < (ofFloat x).2 := by
  have hmiddle : units (2 ^ 50) + units (2 ^ 50 + 1) = 2 ^ 51 + 1 := by decide +kernel
  have hunit : 0 < 2 ^ unitPlaces := Nat.two_pow_pos _
  rw [ofFloat_mul hx hx, lt_min_iff, and_iff_left (by decide), ← Nat.not_le,
    nearestWord_le_iff hunit, hmiddle]
  -- the middle between the two words is not the square of a double, so no tie is left to break
  rcases Nat.lt_or_ge (511 * leadingBit) (ofFloat x).2 with habove | hbelow
  · have hunits : units (511 * leadingBit + 1) ≤ units (ofFloat x).2 :=
      units_strictMono.monotone habove
    have hsquare : (2 ^ 51 + 1) * 2 ^ unitPlaces <
        2 * (units (511 * leadingBit + 1) * units (511 * leadingBit + 1)) := by decide +kernel
    have hlt := hsquare.trans_le (Nat.mul_le_mul_left 2 (Nat.mul_le_mul hunits hunits))
    refine iff_of_true ?_ habove
    rintro (hgt | ⟨heq, -⟩)
    · exact hlt.not_gt hgt
    · exact hlt.ne' heq
  · have hunits : units (ofFloat x).2 ≤ units (511 * leadingBit) :=
      units_strictMono.monotone hbelow
    have hsquare : 2 * (units (511 * leadingBit) * units (511 * leadingBit)) <
        (2 ^ 51 + 1) * 2 ^ unitPlaces := by decide +kernel
    have hlt := (Nat.mul_le_mul_left 2 (Nat.mul_le_mul hunits hunits)).trans_lt hsquare
    exact iff_of_false (not_not.2 (.inl hlt)) hbelow.not_gt

/-- The reciprocal of a square is finite if the number is above `2 ^ (-512)`. A square that
overflows has a finite reciprocal too, which is zero. -/
theorem isFinite_one_div_mul_self_iff {x : Float} (hx : x.isFinite = true) :
    (1 / (x * x)).isFinite = true ↔ 511 * leadingBit < (ofFloat x).2 := by
  have hsquare : (ofFloat (x * x)).2 ≤ infinityWord := by
    rw [ofFloat_mul hx hx]
    exact Nat.min_le_right _ _
  rw [isFinite_one_div_iff hsquare, lt_square_iff hx]

/-! ### Numbers -/

/-- The number that a double stands for, zero if it is none. -/
def number (x : Float) : ℚ := value x.toModel.unpack

theorem abs_apply (sign : Sign) (n : Nat) : |((sign.apply n : Int) : ℚ)| = n := by
  cases sign <;> simp [Sign.apply]

theorem abs_number {x : Float} (hx : x.isFinite = true) :
    |number x| = units (ofFloat x).2 / 2 ^ unitPlaces := by
  have hpos : (0 : ℚ) < 2 ^ unitPlaces := pow_pos two_pos _
  rw [number, (value_unpack ((isFinite_iff x).1 hx)).2, abs_div, abs_of_pos hpos, abs_apply]

/-- Numbers from here on are rounded to infinity. It is the middle between the largest double and
`2 ^ 1024`. -/
def overflow : ℚ := (2 ^ 54 - 1) * 2 ^ 970

theorem overflow_mul : overflow * 2 ^ unitPlaces = overflowUnits := by
  have hunits : overflowUnits = 18014398509481983 * (2 ^ 970 * 2 ^ unitPlaces) := by decide +kernel
  have hodd : (2 : ℚ) ^ 54 - 1 = 18014398509481983 := by norm_num
  rw [hunits, overflow, hodd, mul_assoc]
  simp only [Nat.cast_mul, Nat.cast_pow, Nat.cast_ofNat]

theorem isFinite_mul_iff_abs {x y : Float} (hx : x.isFinite = true) (hy : y.isFinite = true) :
    (x * y).isFinite = true ↔ |number x * number y| < overflow := by
  have hpos : (0 : ℚ) < 2 ^ unitPlaces := pow_pos two_pos _
  rw [isFinite_mul_iff hx hy, abs_mul, abs_number hx, abs_number hy, div_mul_div_comm,
    div_lt_iff₀ (mul_pos hpos hpos), ← mul_assoc, overflow_mul]
  exact_mod_cast Iff.rfl

theorem isFinite_one_div_mul_self_iff_abs {x : Float} (hx : x.isFinite = true) :
    (1 / (x * x)).isFinite = true ↔ 1 / 2 ^ 512 < |number x| := by
  have hpos : (0 : ℚ) < 2 ^ 512 := pow_pos two_pos _
  have hplaces : unitPlaces = 562 + 512 := rfl
  have hlast : units (511 * leadingBit) = 2 ^ 562 := by decide +kernel
  rw [isFinite_one_div_mul_self_iff hx, abs_number hx, ← units_strictMono.lt_iff_lt, hlast, hplaces,
    pow_add, div_mul_eq_div_div, div_lt_div_iff_of_pos_right hpos, lt_div_iff₀ (pow_pos two_pos _),
    one_mul]
  exact_mod_cast Iff.rfl

end RecedingHorizon.Binary64
