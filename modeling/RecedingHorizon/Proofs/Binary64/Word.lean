import Mathlib
import RecedingHorizon.Binary64

/-!
Finite doubles and their words. A double is finite if its word lies before `infinityWord`, and a
sign with such a word is the same thing as a finite double: each is read back from the other.
-/

namespace RecedingHorizon.Binary64

open Float.Model (Format UnpackedFloat)
open Float.Model.UnpackedFloat

/-! ### The fields of a word -/

theorem toNat_unpackMantissa (b : BitVec Format.binary64.numBits) :
    (unpackMantissa b).toNat = b.toNat % 2 ^ 52 := by
  simp [unpackMantissa, BitVec.extractLsb]

theorem toNat_unpackExponent (b : BitVec Format.binary64.numBits) :
    (unpackExponent b).toNat = b.toNat / 2 ^ 52 % 2 ^ 11 := by
  simp [unpackExponent, BitVec.extractLsb, Nat.shiftRight_eq_div_pow]

theorem toNat_unpackSign (b : BitVec Format.binary64.numBits) :
    (unpackSign b).toNat = b.toNat / 2 ^ 63 % 2 := by
  simp [unpackSign, BitVec.extractLsb, Nat.shiftRight_eq_div_pow]

theorem toNat_packComponents (sign : Sign) (exponent : BitVec 11) (mantissa : BitVec 52) :
    (packComponents .binary64 sign exponent mantissa).toNat =
      sign.toBitVec.toNat * 2 ^ 63 + exponent.toNat * 2 ^ 52 + mantissa.toNat := by
  have hmantissa := mantissa.isLt
  have hexponent := exponent.isLt
  simp only [packComponents, BitVec.toNat_append]
  rw [← Nat.shiftLeft_add_eq_or_of_lt hexponent, ← Nat.shiftLeft_add_eq_or_of_lt hmantissa]
  simp only [Nat.shiftLeft_eq]
  ring

theorem packComponents_unpack (b : BitVec Format.binary64.numBits) :
    packComponents .binary64 (.ofBitVec (unpackSign b)) (unpackExponent b) (unpackMantissa b) = b := by
  have hsign (v : BitVec 1) : (Sign.ofBitVec v).toBitVec = v := by
    revert v
    decide
  have hb : b.toNat < 2 ^ 64 := b.isLt
  apply BitVec.eq_of_toNat_eq
  rw [toNat_packComponents, hsign, toNat_unpackSign, toNat_unpackExponent, toNat_unpackMantissa]
  omega

/-- All ones in the exponent stand for what is not finite. -/
theorem isFinite_unpack (b : BitVec Format.binary64.numBits) :
    (unpack .binary64 b).isFinite = true ↔ (unpackExponent b).toNat ≠ 2047 := by
  have hones : unpackExponent b = -1#_ ↔ (unpackExponent b).toNat = 2047 := by
    rw [← BitVec.toNat_inj]
    rfl
  simp only [unpack, hones]
  split
  · split <;> simp [UnpackedFloat.isFinite, *]
  · split
    · split <;> simp_all [UnpackedFloat.isFinite]
    · simp_all [UnpackedFloat.isFinite]

/-- A finite double is packed into the word that it was unpacked from. -/
theorem pack_unpack {b : BitVec Format.binary64.numBits}
    (hfinite : (unpack .binary64 b).isFinite = true) : pack .binary64 (unpack .binary64 b) = b := by
  rw [isFinite_unpack] at hfinite
  have hexponent : (unpackExponent b).toNat < 2048 := (unpackExponent b).isLt
  have hmantissa : (unpackMantissa b).toNat < 2 ^ 52 := (unpackMantissa b).isLt
  have hbias : Format.binary64.exponentBias = 1023 := rfl
  have hones : unpackExponent b ≠ -1#_ := by
    intro h
    exact hfinite (congrArg BitVec.toNat h)
  simp only [unpack, if_neg hones]
  by_cases hzero : unpackExponent b = 0#_
  · have hexponent0 : (unpackExponent b).toNat = 0 := congrArg BitVec.toNat hzero
    simp only [if_pos hzero]
    split
    -- a zero, which keeps its sign
    next hnone =>
      rw [pack, packedZero]
      conv_rhs => rw [← packComponents_unpack b, hzero, hnone]
      rfl
    -- a subnormal, whose mantissa is too short to have the leading bit
    next hsome =>
      have hlog : ¬ (unpackMantissa b).toNat.log2 + 1 = Format.binary64.mantissaBits := by
        have hpos : (unpackMantissa b).toNat ≠ 0 := fun h => hsome (BitVec.eq_of_toNat_eq h)
        have := (Nat.log2_lt hpos).2 hmantissa
        simp only [Format.mantissaBits]
        omega
      have hbiased : ((unpackExponent b).toNat - ((1023 : Nat) + (52 : Nat)) + 1 + (1023 : Nat)
          + (52 : Nat) : Int).toNat = 1 := by
        omega
      simp only [pack, hbias, hbiased, if_neg hlog]
      rw [if_neg (by decide), ← hzero, BitVec.ofNat_toNat, BitVec.setWidth_eq,
        packComponents_unpack]
  -- a normal number, with the leading bit before the stored ones
  · simp only [if_neg hzero]
    have hvalue : (1#1 ++ unpackMantissa b).toNat = 2 ^ 52 + (unpackMantissa b).toNat := by
      rw [BitVec.toNat_append, ← Nat.shiftLeft_add_eq_or_of_lt hmantissa]
      rfl
    have hlog : (1#1 ++ unpackMantissa b).toNat.log2 + 1 = Format.binary64.mantissaBits := by
      rw [(Nat.log2_eq_iff (k := 52) (by omega)).2 ⟨by omega, by omega⟩]
      rfl
    have hbiased : ((unpackExponent b).toNat - ((1023 : Nat) + (52 : Nat)) + (1023 : Nat)
        + (52 : Nat) : Int).toNat = (unpackExponent b).toNat := by
      omega
    have hlow : BitVec.ofNat 52 (1#1 ++ unpackMantissa b).toNat = unpackMantissa b := by
      apply BitVec.eq_of_toNat_eq
      rw [BitVec.toNat_ofNat, hvalue]
      omega
    simp only [pack, hbias, hbiased, if_pos hlog]
    rw [if_neg (show ¬ 2 ^ 11 ≤ _ by omega), BitVec.ofNat_toNat, BitVec.setWidth_eq, hlow,
      packComponents_unpack]

/-! ### Doubles -/

theorem isFinite_iff (x : Float) : x.isFinite = true ↔ (ofFloat x).2 < infinityWord := by
  have hbits : x.toBits.toNat < 2 ^ 64 := x.toBits.toNat_lt
  have hexponent := toNat_unpackExponent x.toBits.toBitVec
  change (unpack .binary64 x.toBits.toBitVec).isFinite = true ↔ _
  rw [isFinite_unpack, hexponent]
  simp only [ofFloat, signBit, infinityWord, UInt64.toNat_toBitVec]
  omega

theorem toBits_ofBits {bits : UInt64} (hfinite : bits.toNat % signBit < infinityWord) :
    (Float.ofBits bits).toBits = bits := by
  have hunpack : (unpack .binary64 bits.toBitVec).isFinite = true := by
    have hbits := bits.toNat_lt
    rw [isFinite_unpack, toNat_unpackExponent]
    simp only [signBit, infinityWord, UInt64.toNat_toBitVec] at hfinite ⊢
    omega
  change UInt64.ofBitVec (pack .binary64 (unpack .binary64 bits.toBitVec)) = bits
  rw [pack_unpack hunpack]

theorem ofBits_toBits {x : Float} (hfinite : x.isFinite = true) : Float.ofBits x.toBits = x := by
  have hpack : pack .binary64 (unpack .binary64 x.toBits.toBitVec) = x.toBits.toBitVec :=
    pack_unpack hfinite
  have hmodel : Float.Model.ofBits x.toBits = x.toModel := by
    rw [Float.Model.mk.injEq (Float.Model.ofBits x.toBits).toBits]
    change UInt64.ofBitVec (pack .binary64 (unpack .binary64 x.toBits.toBitVec)) = x.toBits
    rw [hpack]
  change Float.ofModel (Float.Model.ofBits x.toBits) = x
  rw [hmodel]

/-- A finite double is given by its sign and its word. -/
theorem toFloat_ofFloat {x : Float} (hfinite : x.isFinite = true) :
    toFloat (ofFloat x).1 (ofFloat x).2 = x := by
  have hbits : x.toBits.toNat < 2 ^ 64 := x.toBits.toNat_lt
  have hword : x.toBits.toNat % signBit
      + (if decide (signBit ≤ x.toBits.toNat) = true then signBit else 0) = x.toBits.toNat := by
    by_cases hsign : signBit ≤ x.toBits.toNat
    · rw [decide_eq_true hsign, if_pos rfl]
      simp only [signBit] at hsign ⊢
      omega
    · rw [decide_eq_false hsign, if_neg Bool.false_ne_true]
      simp only [signBit] at hsign ⊢
      omega
  rw [toFloat, ofFloat, hword, UInt64.ofNat_toNat, ofBits_toBits hfinite]

/-- A sign and a word before infinity give a double that has them. -/
theorem ofFloat_toFloat {negative : Bool} {word : Nat} (hword : word < infinityWord) :
    ofFloat (toFloat negative word) = (negative, word) := by
  have hbits : (UInt64.ofNat (word + if negative then signBit else 0)).toNat
      = word + if negative then signBit else 0 := by
    apply UInt64.toNat_ofNat_of_lt
    simp only [infinityWord, signBit, UInt64.size] at hword ⊢
    split <;> omega
  have hfinite : (word + if negative then signBit else 0) % signBit < infinityWord := by
    simp only [infinityWord, signBit] at hword ⊢
    split <;> omega
  rw [toFloat, ofFloat, toBits_ofBits (by rwa [hbits]), hbits]
  simp only [infinityWord, signBit] at hword ⊢
  cases negative <;> simp <;> omega

theorem isFinite_toFloat {negative : Bool} {word : Nat} (hword : word < infinityWord) :
    (toFloat negative word).isFinite = true := by
  rw [isFinite_iff, ofFloat_toFloat hword]
  exact hword

end RecedingHorizon.Binary64
