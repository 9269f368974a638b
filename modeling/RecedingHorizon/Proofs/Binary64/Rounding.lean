import Mathlib
import RecedingHorizon.Proofs.Binary64.Nearest
import RecedingHorizon.Proofs.Binary64.Value

/-!
Products and quotients of doubles. An operation computes enough digits of the exact result, with two
more that tell how the rest compares with a half, and rounds them. What it packs in the end is the
word nearest to the exact result, or infinity if there is none.
-/

namespace RecedingHorizon.Binary64

open Float.Model (Format UnpackedFloat totalExponent)
open Float.Model.UnpackedFloat

/-! ### Quotients with two more digits -/

/-- The whole part of a quotient, and all that its rounding has to know of the rest: whether it is
at least a half, and whether it is neither nothing nor exactly a half. -/
def extendedQuotient (num den : Nat) : ExtendedMantissa where
  mantissa := num / den
  roundBit := decide (den ≤ 2 * (num % den))
  stickyBit := decide (num % den ≠ 0 ∧ 2 * (num % den) ≠ den)

variable {num den : Nat}

theorem roundedMantissa_extendedQuotient (hden : 0 < den) :
    (extendedQuotient num den).roundedMantissa = nearestQuotient num den := by
  unfold nearestQuotient extendedQuotient ExtendedMantissa.roundedMantissa
  rcases Nat.lt_trichotomy (2 * (num % den)) den with hlt | heq | hgt
  · rw [if_pos hlt, decide_eq_false (Nat.not_le.2 hlt)]
    by_cases hzero : num % den = 0
    · simp [ExtendedMantissa.accuracy, Accuracy.roundToNearestEven, hzero]
    · simp [ExtendedMantissa.accuracy, Accuracy.roundToNearestEven, hzero, hlt.ne]
  · rw [if_neg heq.not_lt, if_pos heq]
    simp [ExtendedMantissa.accuracy, Accuracy.roundToNearestEven, heq]
  · have hzero : num % den ≠ 0 := by omega
    rw [if_neg hgt.not_gt, if_neg hgt.ne']
    simp [ExtendedMantissa.accuracy, Accuracy.roundToNearestEven, hzero, hgt.le, hgt.ne']

theorem shiftRightOne_extendedQuotient (hden : 0 < den) :
    (extendedQuotient num den).shiftRightOne = extendedQuotient num (den * 2) := by
  have hmod : num % (den * 2) = num % den + den * (num / den % 2) := Nat.mod_mul
  have hrest : num % den < den := Nat.mod_lt _ hden
  have hround : (num / den % 2 ≠ 0) ↔ den * 2 ≤ 2 * (num % (den * 2)) := by
    rcases Nat.mod_two_eq_zero_or_one (num / den) with hbit | hbit <;> rw [hbit] at hmod <;> omega
  have hsticky : (den ≤ 2 * (num % den) ∨ num % den ≠ 0 ∧ 2 * (num % den) ≠ den) ↔
      num % (den * 2) ≠ 0 ∧ 2 * (num % (den * 2)) ≠ den * 2 := by
    rcases Nat.mod_two_eq_zero_or_one (num / den) with hbit | hbit <;> rw [hbit] at hmod <;> omega
  simp only [extendedQuotient, ExtendedMantissa.shiftRightOne, ExtendedMantissa.mk.injEq,
    Nat.div_div_eq_div_mul, true_and]
  refine ⟨Bool.eq_iff_iff.2 ?_, Bool.eq_iff_iff.2 ?_⟩
  · simpa only [bne_iff_ne, decide_eq_true_iff] using hround
  · simpa only [Bool.or_eq_true, decide_eq_true_iff] using hsticky

/-- Shifting digits out divides, and forgets nothing that rounding has to know. -/
theorem shiftRight_extendedQuotient (hden : 0 < den) (places : Nat) :
    extendedQuotient num den >>> places = extendedQuotient num (den * 2 ^ places) := by
  change places.repeat ExtendedMantissa.shiftRightOne _ = _
  induction places with
  | zero => simp [Nat.repeat]
  | succ places ih =>
      rw [Nat.repeat, ih, shiftRightOne_extendedQuotient (Nat.mul_pos hden (Nat.two_pow_pos _)),
        Nat.mul_assoc, ← Nat.pow_succ]

theorem ofMantissaAndAccuracy_fraction (hden : 0 < den) :
    ExtendedMantissa.ofMantissaAndAccuracy (num / den) (accuracyOfFraction (num % den) den) =
      extendedQuotient num den := by
  unfold accuracyOfFraction extendedQuotient
  split
  next hzero => simp [ExtendedMantissa.ofMantissaAndAccuracy, hzero, hden.ne']
  next hsome =>
    rcases Nat.lt_trichotomy (2 * (num % den)) den with hlt | heq | hgt
    · simp [ExtendedMantissa.ofMantissaAndAccuracy, Nat.compare_eq_lt.2 hlt, hlt, hlt.ne, hsome]
    · simp [ExtendedMantissa.ofMantissaAndAccuracy, heq]
    · simp [ExtendedMantissa.ofMantissaAndAccuracy, Nat.compare_eq_gt.2 hgt, hgt.le, hgt.ne', hsome]

/-! ### Exponents -/

/-- The bits of a quotient are those of its whole part, moved by as many places as the quotient. -/
theorem log2_div_mul_two_pow (above below : Nat) (hquotient : 0 < num / den) :
    num * 2 ^ above / (den * 2 ^ below) = 0 ∧ (num / den).log2 + above < below ∨
      0 < num * 2 ^ above / (den * 2 ^ below) ∧
        (num * 2 ^ above / (den * 2 ^ below)).log2 + below = (num / den).log2 + above := by
  have hden : 0 < den := Nat.pos_of_ne_zero fun hzero => by simp [hzero] at hquotient
  have hscaled : 0 < den * 2 ^ below := Nat.mul_pos hden (Nat.two_pow_pos _)
  have hlower : 2 ^ (num / den).log2 * den ≤ num :=
    (Nat.le_div_iff_mul_le hden).1 (Nat.log2_self_le hquotient.ne')
  have hupper : num < 2 ^ ((num / den).log2 + 1) * den :=
    (Nat.div_lt_iff_lt_mul hden).1 Nat.lt_log2_self
  generalize (num / den).log2 = bits at hlower hupper ⊢
  by_cases hsmall : bits + above < below
  · refine .inl ⟨Nat.div_eq_of_lt ?_, hsmall⟩
    calc num * 2 ^ above < 2 ^ (bits + 1) * den * 2 ^ above :=
          Nat.mul_lt_mul_of_pos_right hupper (Nat.two_pow_pos _)
      _ = den * 2 ^ (bits + 1 + above) := by ring
      _ ≤ den * 2 ^ below :=
          Nat.mul_le_mul_left _ (Nat.pow_le_pow_right two_pos (by omega))
  · obtain ⟨places, hplaces⟩ := Nat.exists_eq_add_of_le (Nat.le_of_not_lt hsmall)
    have hle : 2 ^ places ≤ num * 2 ^ above / (den * 2 ^ below) := by
      rw [Nat.le_div_iff_mul_le hscaled]
      calc 2 ^ places * (den * 2 ^ below) = den * 2 ^ (below + places) := by ring
        _ = 2 ^ bits * den * 2 ^ above := by rw [← hplaces]; ring
        _ ≤ num * 2 ^ above := Nat.mul_le_mul_right _ hlower
    have hlt : num * 2 ^ above / (den * 2 ^ below) < 2 ^ (places + 1) := by
      rw [Nat.div_lt_iff_lt_mul hscaled]
      calc num * 2 ^ above < 2 ^ (bits + 1) * den * 2 ^ above :=
            Nat.mul_lt_mul_of_pos_right hupper (Nat.two_pow_pos _)
        _ = 2 * den * 2 ^ (bits + above) := by ring
        _ = 2 ^ (places + 1) * (den * 2 ^ below) := by rw [hplaces]; ring
    have hpos := Nat.lt_of_lt_of_le (Nat.two_pow_pos places) hle
    refine .inr ⟨hpos, ?_⟩
    rw [(Nat.log2_eq_iff hpos.ne').2 ⟨hle, hlt⟩]
    omega

/-- The exponent that a quotient is rounded at is that of its last place above the unit. -/
theorem targetExponent_quotient {exponent : Int} {above below : Nat} (hden : 0 < den)
    (hplace : exponent + unitPlaces = (above : Int) - below)
    (hquotient : 0 < num / den ∨ exponent ≤ -unitPlaces) :
    Format.binary64.targetExponent (totalExponent (num / den) exponent) =
      (roundedPlaces (num * 2 ^ above) (den * 2 ^ below) : Int) - unitPlaces := by
  have htarget : Format.binary64.targetExponent (totalExponent (num / den) exponent) =
      max (((num / den).log2 : Int) + 1 + exponent - 53) (-1074) := rfl
  rw [htarget, roundedPlaces]
  rcases Nat.eq_zero_or_pos (num / den) with hzero | hpos
  -- less than one, and no more than a unit
  · have hle : above ≤ below := by omega
    have hnone : num * 2 ^ above / (den * 2 ^ below) = 0 := by
      apply Nat.eq_zero_of_le_zero
      calc num * 2 ^ above / (den * 2 ^ below) ≤ num * 2 ^ above / (den * 2 ^ above) :=
            Nat.div_le_div_left (Nat.mul_le_mul_left _ (Nat.pow_le_pow_right two_pos hle))
              (Nat.mul_pos hden (Nat.two_pow_pos _))
        _ = 0 := by rw [Nat.mul_div_mul_right _ _ (Nat.two_pow_pos above), hzero]
    rw [hnone, hzero, if_pos (by decide)]
    simp only [Nat.log2_zero, unitPlaces] at hplace hquotient ⊢
    omega
  · rcases log2_div_mul_two_pow above below hpos with
      ⟨hnone, hsmall⟩ | ⟨hsome, hlog⟩
    · rw [hnone, if_pos (by decide)]
      simp only [unitPlaces] at hplace ⊢
      omega
    · split
      next hshort =>
        have hbits := (Nat.log2_lt (k := 53) hsome.ne').2 hshort
        simp only [unitPlaces] at hplace ⊢
        omega
      next hlong =>
        have hbits := (Nat.log2_lt (k := 53) hsome.ne').not.2 hlong
        simp only [unitPlaces, fractionBits] at hplace ⊢
        omega

/-! ### Rounding -/

/-- A significand that is rounded up to a bit too many gives its last one away, and its word is
still the same. -/
theorem exists_shiftToTargetExponent {rounded places : Nat} (hle : rounded ≤ 2 * leadingBit)
    (hfull : 0 < places → leadingBit ≤ rounded) :
    ∃ kept above : Nat,
      shiftToTargetExponent .binary64 rounded ((places : Int) - unitPlaces) .exact =
        (⟨kept, false, false⟩, (above : Int) - unitPlaces) ∧
      kept < 2 * leadingBit ∧ (0 < above → leadingBit ≤ kept) ∧
      above * leadingBit + kept = places * leadingBit + rounded := by
  have htarget (n : Nat) (e : Int) : Format.binary64.targetExponent (totalExponent n e) =
      max ((n.log2 : Int) + 1 + e - 53) (-1074) := rfl
  simp only [shiftToTargetExponent, shiftToExponent, htarget]
  rcases Nat.lt_or_eq_of_le hle with hlt | rfl
  · have hnone : (max ((rounded.log2 : Int) + 1 + ((places : Int) - unitPlaces) - 53) (-1074) -
        ((places : Int) - unitPlaces)).toNat = 0 := by
      have hbits : rounded.log2 < 53 := by
        rcases Nat.eq_zero_or_pos rounded with rfl | hpos
        · decide
        · exact (Nat.log2_lt hpos.ne').2 hlt
      simp only [unitPlaces]
      omega
    refine ⟨rounded, places, ?_, hlt, hfull, rfl⟩
    rw [hnone, Nat.cast_zero, Int.add_zero]
    rfl
  · have hone : (max (((2 * leadingBit).log2 : Int) + 1 + ((places : Int) - unitPlaces) - 53)
        (-1074) - ((places : Int) - unitPlaces)).toNat = 1 := by
      have hbits : (2 * leadingBit).log2 = 53 := (Nat.log2_eq_iff (by decide)).2 (by decide)
      simp only [hbits, unitPlaces]
      omega
    refine ⟨leadingBit, places + 1, ?_, by decide, fun _ => le_rfl, by ring⟩
    rw [hone]
    refine Prod.ext rfl ?_
    push_cast
    ring

theorem toNat_packComponents_ofNat (sign : Sign) {exponent : Nat} (hexponent : exponent < 2 ^ 11)
    (mantissa : Nat) :
    (packComponents .binary64 sign (BitVec.ofNat _ exponent) (BitVec.ofNat _ mantissa)).toNat =
      sign.toBitVec.toNat * signBit + exponent * leadingBit + mantissa % leadingBit := by
  rw [toNat_packComponents, BitVec.toNat_ofNat, BitVec.toNat_ofNat, Nat.mod_eq_of_lt hexponent]
  rfl

theorem toNat_packedInfinity (sign : Sign) :
    (packedInfinity .binary64 sign).toNat = sign.toBitVec.toNat * signBit + infinityWord := by
  cases sign <;> rfl

theorem toNat_packedZero (sign : Sign) :
    (packedZero .binary64 sign).toNat = sign.toBitVec.toNat * signBit := by
  cases sign <;> rfl

/-- The word of a rounded significand, which is infinity if there is no exponent left for it. -/
theorem toNat_pack_finite {sign : Sign} {kept places : Nat} (hpos : 0 < kept)
    (hlt : kept < 2 * leadingBit) (hfull : 0 < places → leadingBit ≤ kept) :
    (pack .binary64 (.finite sign kept ((places : Int) - unitPlaces) hpos)).toNat =
      sign.toBitVec.toNat * signBit + min (places * leadingBit + kept) infinityWord := by
  have hbias : Format.binary64.exponentBias = 1023 := rfl
  have hbiased : ((places : Int) - unitPlaces + (1023 : Nat) + (52 : Nat)).toNat = places + 1 := by
    simp only [unitPlaces]
    omega
  simp only [pack, hbias, hbiased]
  split
  next hover =>
    have hword : infinityWord ≤ places * leadingBit + kept := by
      have := hfull (by omega)
      simp only [infinityWord, leadingBit] at *
      omega
    rw [Nat.min_eq_right hword]
    exact toNat_packedInfinity sign
  next hfits =>
    have hword : places * leadingBit + kept < infinityWord := by
      simp only [infinityWord, leadingBit] at *
      omega
    rw [Nat.min_eq_left hword.le]
    split
    next hnormal =>
      have hlog : kept.log2 = 52 := by
        change kept.log2 + 1 = 53 at hnormal
        omega
      have hle : leadingBit ≤ kept := ((Nat.log2_eq_iff hpos.ne').1 hlog).1
      rw [toNat_packComponents_ofNat sign (by omega) kept]
      simp only [leadingBit] at *
      omega
    next hsubnormal =>
      have hshort : kept < leadingBit := by
        by_contra hlong
        have hlog : kept.log2 = 52 :=
          (Nat.log2_eq_iff hpos.ne').2 ⟨Nat.le_of_not_lt hlong, hlt⟩
        refine hsubnormal ?_
        rw [hlog]
        rfl
      have hplaces : places = 0 := by
        by_contra hsome
        exact absurd (hfull (Nat.pos_of_ne_zero hsome)) (Nat.not_le.2 hshort)
      rw [hplaces]
      have hzero := toNat_packComponents_ofNat sign (show 0 < 2 ^ 11 by decide) kept
      rw [Nat.mod_eq_of_lt hshort] at hzero
      exact hzero.trans (Nat.add_assoc _ _ _)

/-- A quotient of which enough bits are given is rounded to the nearest word. -/
theorem toNat_pack_roundWithAccuracy (sign : Sign) {exponent : Int} {above below : Nat}
    (hden : 0 < den) (hplace : exponent + unitPlaces = (above : Int) - below)
    (henough : leadingBit ≤ num / den ∨ exponent ≤ -unitPlaces) :
    (pack .binary64 (roundWithAccuracy .binary64 sign (num / den) exponent
        (accuracyOfFraction (num % den) den))).toNat =
      sign.toBitVec.toNat * signBit +
        min (nearestWord (num * 2 ^ above) (den * 2 ^ below)) infinityWord := by
  have htarget := targetExponent_quotient hden hplace
    (henough.imp_left (Nat.lt_of_lt_of_le (by decide)))
  have hlow :
      exponent ≤ (roundedPlaces (num * 2 ^ above) (den * 2 ^ below) : Int) - unitPlaces := by
    rw [← htarget]
    change exponent ≤ max (((num / den).log2 : Int) + 1 + exponent - 53) (-1074)
    simp only [unitPlaces] at henough
    rcases henough with hlong | hbelow
    · have hbits : 52 ≤ (num / den).log2 :=
        (Nat.le_log2 (Nat.lt_of_lt_of_le (by decide) hlong).ne').2 hlong
      omega
    · omega
  obtain ⟨places, hplaces⟩ := Int.eq_ofNat_of_zero_le (Int.sub_nonneg_of_le hlow)
  have hshift : places + above = roundedPlaces (num * 2 ^ above) (den * 2 ^ below) + below := by
    omega
  have hrounded : (extendedQuotient num (den * 2 ^ places)).roundedMantissa =
      nearestQuotient (num * 2 ^ above)
        (den * 2 ^ below * 2 ^ roundedPlaces (num * 2 ^ above) (den * 2 ^ below)) := by
    rw [roundedMantissa_extendedQuotient (Nat.mul_pos hden (Nat.two_pow_pos _)),
      ← nearestQuotient_mul_mul _ _ (Nat.two_pow_pos above), Nat.mul_assoc, Nat.mul_assoc,
      ← Nat.pow_add, ← Nat.pow_add, hshift, Nat.add_comm below]
  have hfirst : shiftToTargetExponent .binary64 (num / den) exponent
      (accuracyOfFraction (num % den) den) =
        (extendedQuotient num (den * 2 ^ places),
          (roundedPlaces (num * 2 ^ above) (den * 2 ^ below) : Int) - unitPlaces) := by
    simp only [shiftToTargetExponent, shiftToExponent, htarget,
      ofMantissaAndAccuracy_fraction hden, hplaces, Int.toNat_natCast,
      shiftRight_extendedQuotient hden]
    exact Prod.ext rfl (by omega)
  obtain ⟨kept, last, hsecond, hlt, hfull, hword⟩ := exists_shiftToTargetExponent
    (nearestQuotient_roundedPlaces_le (num * 2 ^ above) (den * 2 ^ below))
    le_nearestQuotient_roundedPlaces
  rw [nearestWord_eq, ← hword]
  simp only [roundWithAccuracy, hfirst, hrounded, hsecond]
  split
  next hzero =>
    have hlast : last = 0 := by
      by_contra hsome
      exact absurd (hfull (Nat.pos_of_ne_zero hsome)) (by rw [hzero]; decide)
    rw [hzero, hlast, Nat.zero_mul, Nat.zero_add, Nat.zero_min, Nat.add_zero]
    exact toNat_packedZero sign
  next hsome => exact toNat_pack_finite (Nat.pos_of_ne_zero hsome) hlt hfull

/-! ### Operations -/

theorem signOf_mul (a b : Bool) : signOf a * signOf b = signOf (a ^^ b) := by
  cases a <;> cases b <;> rfl

theorem signOf_div (a b : Bool) : signOf a / signOf b = signOf (a ^^ b) := by
  cases a <;> cases b <;> rfl

/-- A double that is packed from a sign and a magnitude. -/
theorem ofFloat_of_toNat_bits {x : Float} {negative : Bool} {word : Nat} (hword : word < signBit)
    (hbits : (bits x).toNat = (signOf negative).toBitVec.toNat * signBit + word) :
    ofFloat x = (negative, word) := by
  have hvalue : x.toBits.toNat = (signOf negative).toBitVec.toNat * signBit + word := hbits
  cases negative with
  | true =>
      have hone : (signOf true).toBitVec.toNat = 1 := rfl
      rw [hone, Nat.one_mul] at hvalue
      rw [ofFloat, hvalue]
      simp [Nat.mod_eq_of_lt hword]
  | false =>
      have hnone : (signOf false).toBitVec.toNat = 0 := rfl
      rw [hnone, Nat.zero_mul, Nat.zero_add] at hvalue
      rw [ofFloat, hvalue]
      simp [Nat.mod_eq_of_lt hword, hword]

theorem bits_mul (x y : Float) :
    bits (x * y) = pack .binary64 (mul .binary64 x.toModel.unpack y.toModel.unpack) := rfl

theorem bits_div (x y : Float) :
    bits (x / y) = pack .binary64 (div .binary64 x.toModel.unpack y.toModel.unpack) := rfl

theorem min_infinityWord_lt (word : Nat) : min word infinityWord < signBit :=
  (Nat.min_le_right _ _).trans_lt (by decide)

/-- Significands are long enough to be multiplied, unless both of them are at the unit. -/
theorem toNat_pack_mul {word word' : Nat} (hpos : 0 < word) (hpos' : 0 < word') (sign : Sign) :
    (pack .binary64 (roundWithAccuracy .binary64 sign (significand word * significand word')
        ((shift word : Int) - unitPlaces + ((shift word' : Int) - unitPlaces)) .exact)).toNat =
      sign.toBitVec.toNat * signBit +
        min (nearestWord (units word * units word') (2 ^ unitPlaces)) infinityWord := by
  have hplace : (shift word : Int) - unitPlaces + ((shift word' : Int) - unitPlaces) + unitPlaces =
      ((shift word + shift word' : Nat) : Int) - unitPlaces := by
    push_cast
    ring
  have henough : leadingBit ≤ significand word * significand word' / 1 ∨
      (shift word : Int) - unitPlaces + ((shift word' : Int) - unitPlaces) ≤ -unitPlaces := by
    rw [Nat.div_one]
    by_cases hlong : leadingBit ≤ significand word
    · exact .inl (hlong.trans (Nat.le_mul_of_pos_right _ (significand_pos hpos')))
    by_cases hlong' : leadingBit ≤ significand word'
    · exact .inl (hlong'.trans (Nat.le_mul_of_pos_left _ (significand_pos hpos)))
    · right
      rw [shift_eq_zero hlong, shift_eq_zero hlong']
      omega
  have hround := toNat_pack_roundWithAccuracy sign Nat.one_pos hplace henough
  rw [Nat.div_one, Nat.mod_one, Nat.one_mul, Nat.pow_add, Nat.mul_mul_mul_comm, ← units_eq,
    ← units_eq] at hround
  exact hround

/-- The product of finite doubles is the exact one, rounded. -/
theorem ofFloat_mul {x y : Float} (hx : x.isFinite = true) (hy : y.isFinite = true) :
    ofFloat (x * y) = ((ofFloat x).1 ^^ (ofFloat y).1,
      min (nearestWord (units (ofFloat x).2 * units (ofFloat y).2) (2 ^ unitPlaces))
        infinityWord) := by
  have hzero : units 0 = 0 := rfl
  rw [isFinite_iff] at hx hy
  refine ofFloat_of_toNat_bits (min_infinityWord_lt _) ?_
  rw [bits_mul, ← signOf_mul]
  rcases Nat.eq_zero_or_pos (ofFloat x).2 with hxzero | hxpos
  · rw [unpack_of_eq_zero hxzero, hxzero, hzero, Nat.zero_mul, nearestWord_zero, Nat.zero_min,
      Nat.add_zero]
    rcases Nat.eq_zero_or_pos (ofFloat y).2 with hyzero | hypos
    · rw [unpack_of_eq_zero hyzero]
      exact toNat_packedZero _
    · rw [unpack_of_pos hy hypos]
      exact toNat_packedZero _
  · rw [unpack_of_pos hx hxpos]
    rcases Nat.eq_zero_or_pos (ofFloat y).2 with hyzero | hypos
    · rw [unpack_of_eq_zero hyzero, hyzero, hzero, Nat.mul_zero, nearestWord_zero, Nat.zero_min,
        Nat.add_zero]
      exact toNat_packedZero _
    · rw [unpack_of_pos hy hypos]
      exact toNat_pack_mul hxpos hypos _

/-- A division computes all the bits of a significand, or all that are above the unit. -/
theorem exists_divCore {m₁ m₂ : Nat} (hm₁ : 0 < m₁) (hm₂ : 0 < m₂) (e₁ e₂ : Int) :
    ∃ (places : Nat) (exponent : Int),
      divCore .binary64 m₁ e₁ m₂ e₂ =
        (m₁ * 2 ^ places / m₂, exponent, accuracyOfFraction (m₁ * 2 ^ places % m₂) m₂) ∧
      exponent + places = e₁ - e₂ ∧
      (leadingBit ≤ m₁ * 2 ^ places / m₂ ∨ exponent ≤ -unitPlaces) := by
  obtain ⟨exponent, hexponent⟩ : ∃ exponent : Int, exponent =
      min (e₁ - e₂) (max ((m₁.log2 + 1 + e₁) - (m₂.log2 + 1 + e₂) - 53) (-1074)) := ⟨_, rfl⟩
  obtain ⟨places, hplaces⟩ := Int.eq_ofNat_of_zero_le (show 0 ≤ e₁ - e₂ - exponent by omega)
  have hcore : divCore .binary64 m₁ e₁ m₂ e₂ =
      (m₁ <<< (e₁ - e₂ - exponent).toNat / m₂, exponent,
        accuracyOfFraction (m₁ <<< (e₁ - e₂ - exponent).toNat % m₂) m₂) := by
    rw [hexponent]
    rfl
  rw [hplaces, Int.toNat_natCast, Nat.shiftLeft_eq] at hcore
  refine ⟨places, exponent, hcore, by omega, ?_⟩
  by_cases hbelow : exponent ≤ -unitPlaces
  · exact .inr hbelow
  · left
    rw [Nat.le_div_iff_mul_le hm₂]
    simp only [unitPlaces] at hbelow
    have hbits : m₂.log2 + 53 ≤ m₁.log2 + places := by omega
    calc leadingBit * m₂ ≤ 2 ^ 52 * 2 ^ (m₂.log2 + 1) := Nat.mul_le_mul_left _ Nat.lt_log2_self.le
      _ = 2 ^ (m₂.log2 + 53) := by rw [← Nat.pow_add]; congr 1; omega
      _ ≤ 2 ^ (m₁.log2 + places) := Nat.pow_le_pow_right two_pos hbits
      _ = 2 ^ m₁.log2 * 2 ^ places := Nat.pow_add ..
      _ ≤ m₁ * 2 ^ places := Nat.mul_le_mul_right _ (Nat.log2_self_le hm₁.ne')

theorem toNat_pack_div {word word' : Nat} (hpos : 0 < word) (hpos' : 0 < word')
    (negative negative' : Bool) :
    (pack .binary64 (div .binary64
        (.finite (signOf negative) (significand word) ((shift word : Int) - unitPlaces)
          (significand_pos hpos))
        (.finite (signOf negative') (significand word') ((shift word' : Int) - unitPlaces)
          (significand_pos hpos')))).toNat =
      (signOf negative / signOf negative').toBitVec.toNat * signBit +
        min (nearestWord (units word * 2 ^ unitPlaces) (units word')) infinityWord := by
  obtain ⟨places, exponent, hcore, hexponent, henough⟩ :=
    exists_divCore (significand_pos hpos) (significand_pos hpos') ((shift word : Int) - unitPlaces)
      ((shift word' : Int) - unitPlaces)
  have hplace : exponent + unitPlaces =
      ((shift word + unitPlaces : Nat) : Int) - ((shift word' + places : Nat) : Int) := by
    push_cast
    linarith
  have hround := toNat_pack_roundWithAccuracy (signOf negative / signOf negative')
    (significand_pos hpos') hplace henough
  have hscaled : significand word * 2 ^ places * 2 ^ (shift word + unitPlaces) =
      units word * 2 ^ unitPlaces * 2 ^ places := by
    rw [Nat.pow_add, units_eq]
    ring
  rw [Nat.pow_add 2 _ places, ← Nat.mul_assoc, hscaled, nearestWord_mul _ _ (Nat.two_pow_pos _),
    ← units_eq] at hround
  simp only [UnpackedFloat.div, hcore]
  exact hround

/-- The quotient of finite doubles is the exact one, rounded. -/
theorem ofFloat_div {x y : Float} (hx : x.isFinite = true) (hy : y.isFinite = true)
    (hypos : 0 < (ofFloat y).2) :
    ofFloat (x / y) = ((ofFloat x).1 ^^ (ofFloat y).1,
      min (nearestWord (units (ofFloat x).2 * 2 ^ unitPlaces) (units (ofFloat y).2))
        infinityWord) := by
  have hzero : units 0 = 0 := rfl
  rw [isFinite_iff] at hx hy
  refine ofFloat_of_toNat_bits (min_infinityWord_lt _) ?_
  rw [bits_div, ← signOf_div, unpack_of_pos hy hypos]
  rcases Nat.eq_zero_or_pos (ofFloat x).2 with hxzero | hxpos
  · rw [unpack_of_eq_zero hxzero, hxzero, hzero, Nat.zero_mul, nearestWord_zero, Nat.zero_min,
      Nat.add_zero]
    exact toNat_packedZero _
  · rw [unpack_of_pos hx hxpos]
    exact toNat_pack_div hxpos hypos _ _

end RecedingHorizon.Binary64
