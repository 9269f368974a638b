import Mathlib
import RecedingHorizon.Proofs.Binary64.Word

/-!
What doubles stand for. A finite double is a rational number, which is its sign and the magnitude of
its word in units; so a floor that is computed from the word is the floor of that number.
-/

namespace RecedingHorizon.Binary64

open Float.Model (Format UnpackedFloat)
open Float.Model.UnpackedFloat

/-- The number that a finite double stands for. -/
def value : UnpackedFloat → ℚ
  | .finite sign mantissa exponent _ => sign.apply mantissa * 2 ^ exponent
  | _ => 0

def signOf (negative : Bool) : Sign := if negative then .negative else .positive

/-! ### The fields of a double -/

def bits (x : Float) : BitVec Format.binary64.numBits := x.toBits.toBitVec

theorem toNat_bits (x : Float) : (bits x).toNat = x.toBits.toNat := rfl

theorem ofBitVec_unpackSign (x : Float) :
    Sign.ofBitVec (unpackSign (bits x)) = signOf (ofFloat x).1 := by
  have hbits : x.toBits.toNat < 2 ^ 64 := x.toBits.toNat_lt
  have hfield : (unpackSign (bits x)).toNat = if signBit ≤ x.toBits.toNat then 1 else 0 := by
    rw [toNat_unpackSign, toNat_bits]
    by_cases hsign : signBit ≤ x.toBits.toNat
    · rw [if_pos hsign]
      simp only [signBit] at hsign
      omega
    · rw [if_neg hsign]
      simp only [signBit] at hsign
      omega
  have hpositive : unpackSign (bits x) = 0#1 ↔ ¬ signBit ≤ x.toBits.toNat := by
    rw [← BitVec.toNat_inj, hfield]
    split <;> simp [*]
  simp only [Sign.ofBitVec, hpositive, signOf, ofFloat, decide_eq_true_iff, ite_not]

theorem toNat_exponent (x : Float) :
    (unpackExponent (bits x)).toNat = (ofFloat x).2 / leadingBit := by
  have hbits : x.toBits.toNat < 2 ^ 64 := x.toBits.toNat_lt
  rw [toNat_unpackExponent, toNat_bits]
  simp only [ofFloat, signBit, leadingBit]
  omega

theorem toNat_mantissa (x : Float) :
    (unpackMantissa (bits x)).toNat = (ofFloat x).2 % leadingBit := by
  rw [toNat_unpackMantissa, toNat_bits]
  simp only [ofFloat, signBit, leadingBit]
  omega

theorem word_lt (x : Float) : (ofFloat x).2 < signBit := Nat.mod_lt _ (by decide)

theorem unpackExponent_eq_ones_iff (x : Float) :
    unpackExponent (bits x) = -1#_ ↔ infinityWord ≤ (ofFloat x).2 := by
  have hword := word_lt x
  rw [← BitVec.toNat_inj, toNat_exponent]
  simp only [signBit] at hword
  simp only [infinityWord, leadingBit]
  change _ = 2047 ↔ _
  omega

theorem unpackExponent_eq_zero_iff (x : Float) :
    unpackExponent (bits x) = 0#_ ↔ (ofFloat x).2 < leadingBit := by
  rw [← BitVec.toNat_inj, toNat_exponent]
  exact Nat.div_eq_zero_iff_lt (by decide)

theorem unpackMantissa_eq_zero_iff (x : Float) :
    unpackMantissa (bits x) = 0#_ ↔ (ofFloat x).2 % leadingBit = 0 := by
  rw [← BitVec.toNat_inj, toNat_mantissa]
  rfl

/-! ### Magnitudes -/

theorem cast_apply (s : Sign) (n : Nat) : ((s.apply n : Int) : ℚ) = (s.apply 1 : Int) * n := by
  cases s <;> simp [Sign.apply]

/-- A significand that is shifted above the unit. -/
theorem value_finite {s : Sign} {m : Nat} (places : Nat) {e : Int} (hm : 0 < m)
    (he : e = (places : Int) - unitPlaces) :
    value (.finite s m e hm) = s.apply (m <<< places : Nat) / 2 ^ unitPlaces := by
  rw [value, cast_apply, cast_apply, he, zpow_sub₀ two_ne_zero, zpow_natCast, zpow_natCast,
    Nat.shiftLeft_eq, Nat.cast_mul, Nat.cast_pow, Nat.cast_ofNat]
  ring

theorem significand_pos {word : Nat} (hword : 0 < word) : 0 < significand word := by
  unfold significand
  split
  · exact hword
  · exact Nat.add_pos_right _ (by decide)

theorem unpack_of_eq_zero {x : Float} (hword : (ofFloat x).2 = 0) :
    x.toModel.unpack = .zero (signOf (ofFloat x).1) := by
  have hones := (unpackExponent_eq_ones_iff x).not.2 (by rw [hword]; decide)
  have hzero := (unpackExponent_eq_zero_iff x).2 (by rw [hword]; decide)
  have hnone := (unpackMantissa_eq_zero_iff x).2 (by rw [hword]; rfl)
  have hunpack : x.toModel.unpack = unpack .binary64 (bits x) := rfl
  rw [hunpack]
  simp only [unpack, if_neg hones, if_pos hzero, dif_pos hnone, ofBitVec_unpackSign]

/-- A finite double other than zero is its significand, shifted above the unit. -/
theorem unpack_of_pos {x : Float} (hword : (ofFloat x).2 < infinityWord)
    (hpos : 0 < (ofFloat x).2) :
    x.toModel.unpack = .finite (signOf (ofFloat x).1) (significand (ofFloat x).2)
      ((shift (ofFloat x).2 : Int) - unitPlaces) (significand_pos hpos) := by
  have hones := (unpackExponent_eq_ones_iff x).not.2 (Nat.not_le.2 hword)
  have hmantissa := toNat_mantissa x
  have hbias : Format.binary64.exponentBias = 1023 := rfl
  have hunpack : x.toModel.unpack = unpack .binary64 (bits x) := rfl
  rw [hunpack]
  simp only [unpack, if_neg hones, ofBitVec_unpackSign, significand, shift]
  split
  -- a subnormal, whose significand is its word
  next hzero =>
    have hbelow := (unpackExponent_eq_zero_iff x).1 hzero
    rw [Nat.mod_eq_of_lt hbelow] at hmantissa
    have hsome : ¬ unpackMantissa (bits x) = 0#_ := fun hnone =>
      hpos.ne' (hmantissa.symm.trans (congrArg BitVec.toNat hnone))
    simp only [dif_neg hsome, hmantissa, toNat_exponent, if_pos hbelow, Nat.div_eq_of_lt hbelow,
      hbias]
    rfl
  -- a normal number, with the leading bit before its fraction
  next hnormal =>
    have habove := (unpackExponent_eq_zero_iff x).not.1 hnormal
    have hsignificand : (1#1 ++ unpackMantissa (bits x)).toNat =
        (ofFloat x).2 % leadingBit + leadingBit := by
      have hlow : (unpackMantissa (bits x)).toNat < 2 ^ 52 := (unpackMantissa (bits x)).isLt
      rw [BitVec.toNat_append, ← Nat.shiftLeft_add_eq_or_of_lt hlow, hmantissa, Nat.add_comm]
      rfl
    have hexponent : 1 ≤ (ofFloat x).2 / leadingBit :=
      (Nat.one_le_div_iff (by decide)).2 (Nat.le_of_not_lt habove)
    simp only [hsignificand, toNat_exponent, if_neg habove, hbias, UnpackedFloat.finite.injEq,
      true_and, unitPlaces]
    omega

theorem value_unpack {x : Float} (hword : (ofFloat x).2 < infinityWord) :
    x.toModel.unpack.isFinite = true ∧
      value x.toModel.unpack =
        (signOf (ofFloat x).1).apply (units (ofFloat x).2) / 2 ^ unitPlaces := by
  rcases Nat.eq_zero_or_pos (ofFloat x).2 with hzero | hpos
  · have hnone : units 0 = 0 := rfl
    rw [unpack_of_eq_zero hzero, hzero, hnone]
    refine ⟨rfl, ?_⟩
    cases signOf (ofFloat x).1 <;> simp [value, Sign.apply]
  · rw [unpack_of_pos hword hpos]
    exact ⟨rfl, value_finite (shift (ofFloat x).2) _ rfl⟩

theorem unpack_infinity {x : Float} (hword : (ofFloat x).2 = infinityWord) :
    x.toModel.unpack = .infinity (signOf (ofFloat x).1) := by
  have hones := (unpackExponent_eq_ones_iff x).2 hword.ge
  have hnone := (unpackMantissa_eq_zero_iff x).2 (by rw [hword]; rfl)
  have hunpack : x.toModel.unpack = unpack .binary64 (bits x) := rfl
  rw [hunpack]
  simp only [unpack, if_pos hones, if_pos hnone, ofBitVec_unpackSign]

theorem unpack_nan {x : Float} (hword : infinityWord < (ofFloat x).2) :
    x.toModel.unpack = .notANumber := by
  have hones := (unpackExponent_eq_ones_iff x).2 hword.le
  have hsome : ¬ unpackMantissa (bits x) = 0#_ := by
    have hlt := word_lt x
    rw [unpackMantissa_eq_zero_iff]
    simp only [infinityWord, signBit, leadingBit] at hword hlt ⊢
    omega
  have hunpack : x.toModel.unpack = unpack .binary64 (bits x) := rfl
  rw [hunpack]
  simp only [unpack, if_pos hones, if_neg hsome]

/-! ### Floors -/

/-- The floor of a double, kept between zero and a bound. NaN counts as zero. -/
def clampedFloor (last : Nat) (x : Float) : Nat :=
  match x.toModel.unpack with
  | .notANumber => 0
  | .infinity .negative => 0
  | .infinity .positive => last
  | u => min ⌊value u⌋.toNat last

theorem clampedFloor_of_isFinite {last : Nat} {x : Float}
    (hfinite : x.toModel.unpack.isFinite = true) :
    clampedFloor last x = min ⌊value x.toModel.unpack⌋.toNat last := by
  rw [clampedFloor]
  cases hunpack : x.toModel.unpack <;> simp_all [UnpackedFloat.isFinite]

/-- What is computed from the word is the floor of the number. -/
theorem floorUpTo_eq_clampedFloor (last : Nat) (x : Float) :
    floorUpTo last x = clampedFloor last x := by
  have hfloor : floorUpTo last x =
      if (ofFloat x).1 = true ∨ infinityWord < (ofFloat x).2 then 0
      else if (ofFloat x).2 = infinityWord then last
      else min (units (ofFloat x).2 >>> unitPlaces) last := rfl
  rw [hfloor]
  rcases Nat.lt_trichotomy (ofFloat x).2 infinityWord with hlt | heq | hgt
  · obtain ⟨hfinite, hvalue⟩ := value_unpack hlt
    rw [clampedFloor_of_isFinite hfinite, hvalue]
    cases hnegative : (ofFloat x).1 with
    | true =>
        have hnonpos : ((signOf true).apply (units (ofFloat x).2) / 2 ^ unitPlaces : ℚ) ≤ 0 := by
          apply div_nonpos_of_nonpos_of_nonneg
          · simp [signOf, Sign.apply]
          · positivity
        rw [if_pos (.inl rfl), Int.toNat_of_nonpos (Int.floor_nonpos hnonpos), Nat.zero_min]
    | false =>
        have hquotient : ⌊((signOf false).apply (units (ofFloat x).2) / 2 ^ unitPlaces : ℚ)⌋ =
            (units (ofFloat x).2 / 2 ^ unitPlaces : Nat) := by
          have hdiv := Rat.floor_intCast_div_natCast (units (ofFloat x).2) (2 ^ unitPlaces)
          push_cast at hdiv ⊢
          exact hdiv
        rw [if_neg (by simpa using hlt.le), if_neg hlt.ne, hquotient, Int.toNat_natCast,
          Nat.shiftRight_eq_div_pow]
  · rw [clampedFloor, unpack_infinity heq]
    cases (ofFloat x).1 <;> simp [signOf, heq]
  · rw [clampedFloor, unpack_nan hgt, if_pos (.inr hgt)]

end RecedingHorizon.Binary64
