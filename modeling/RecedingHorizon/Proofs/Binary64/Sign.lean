import Mathlib
import RecedingHorizon.Proofs.Binary64.Word

/-!
Signs of doubles. Rounding keeps the sign of a number, though it may make it zero or infinite, so
the sign of a product or a quotient is that of the exact one. Numbers that are compared with zero
or with each other's negation can then be ordered by their signs.
-/

namespace RecedingHorizon.Binary64

open Float.Model (Format UnpackedFloat)
open Float.Model.UnpackedFloat

/-! ### Signs -/

/-- A number with the given sign, which may be zero. -/
def HasSign (sign : Sign) : UnpackedFloat → Prop
  | .notANumber => False
  | .infinity s => s = sign
  | .zero s => s = sign
  | .finite s _ _ _ => s = sign

/-- Zero, or a number with the given sign. -/
def IsOnSide (sign : Sign) : UnpackedFloat → Prop
  | .zero _ => True
  | u => HasSign sign u

theorem HasSign.isOnSide {sign : Sign} {u : UnpackedFloat} (hu : HasSign sign u) :
    IsOnSide sign u := by
  cases u with
  | zero => trivial
  | _ => exact hu

theorem unpackSign_packComponents (sign : Sign) (exponent : BitVec 11) (mantissa : BitVec 52) :
    unpackSign (packComponents .binary64 sign exponent mantissa) = sign.toBitVec := by
  have hsign : sign.toBitVec.toNat < 2 := sign.toBitVec.isLt
  have hexponent : exponent.toNat < 2 ^ 11 := exponent.isLt
  have hmantissa : mantissa.toNat < 2 ^ 52 := mantissa.isLt
  apply BitVec.eq_of_toNat_eq
  rw [toNat_unpackSign, toNat_packComponents]
  omega

/-- What is packed with an exponent of a finite number is unpacked with its sign. -/
theorem hasSign_unpack_packComponents (sign : Sign) {exponent : BitVec 11} (mantissa : BitVec 52)
    (hexponent : exponent ≠ -1#_) :
    HasSign sign (unpack .binary64 (packComponents .binary64 sign exponent mantissa)) := by
  have hsign : Sign.ofBitVec sign.toBitVec = sign := by cases sign <;> rfl
  simp only [unpack, unpackSign_packComponents, unpackExponent_packComponents,
    unpackMantissa_packComponents, hsign, if_neg hexponent]
  split
  · split <;> rfl
  · rfl

/-- An exponent that does not overflow is not all ones. -/
theorem ofNat_ne_ones {exponent : Nat} (hexponent : exponent + 1 < 2 ^ 11) :
    BitVec.ofNat 11 exponent ≠ -1#_ := by
  intro hones
  have hvalue : exponent % 2 ^ 11 = 2047 := congrArg BitVec.toNat hones
  omega

theorem unpack_packedInfinity (sign : Sign) :
    unpack .binary64 (packedInfinity .binary64 sign) = .infinity sign := by
  cases sign <;> rfl

theorem unpack_packedZero (sign : Sign) :
    unpack .binary64 (packedZero .binary64 sign) = .zero sign := by
  cases sign <;> rfl

/-- Packing may overflow, but the sign is kept. -/
theorem HasSign.unpack_pack {sign : Sign} {u : UnpackedFloat} (hu : HasSign sign u) :
    HasSign sign (unpack .binary64 (pack .binary64 u)) := by
  cases u with
  | notANumber => exact hu.elim
  | infinity s =>
      rw [pack, unpack_packedInfinity]
      exact hu
  | zero s =>
      rw [pack, unpack_packedZero]
      exact hu
  | finite s m e hm =>
      obtain rfl : s = sign := hu
      simp only [pack]
      split
      · rw [unpack_packedInfinity]
        rfl
      next hfits =>
        split
        · exact hasSign_unpack_packComponents s _ (ofNat_ne_ones (Nat.lt_of_not_le hfits))
        · exact hasSign_unpack_packComponents s _ (by decide)

theorem IsOnSide.unpack_pack {sign : Sign} {u : UnpackedFloat} (hu : IsOnSide sign u) :
    IsOnSide sign (unpack .binary64 (pack .binary64 u)) := by
  cases u with
  | zero s =>
      rw [pack, unpack_packedZero]
      trivial
  | notANumber => exact hu.elim
  | infinity s => exact (HasSign.unpack_pack (u := .infinity s) hu).isOnSide
  | finite s m e hm => exact (HasSign.unpack_pack (u := .finite s m e hm) hu).isOnSide

/-! ### Operations -/

theorem hasSign_roundWithAccuracy (sign : Sign) (mantissa : Nat) (exponent : Int)
    (accuracy : Accuracy) :
    HasSign sign (roundWithAccuracy .binary64 sign mantissa exponent accuracy) := by
  simp only [roundWithAccuracy]
  split <;> rfl

/-- A square has a positive sign, even where it is rounded to zero. -/
theorem hasSign_mul_self {u : UnpackedFloat} (hu : u.isFinite = true) :
    HasSign .positive (mul .binary64 u u) := by
  cases u with
  | zero s => cases s <;> rfl
  | finite s m e hm => cases s <;> exact hasSign_roundWithAccuracy _ _ _ _
  | _ => cases hu

theorem hasSign_div {m : Nat} {e : Int} {hm : 0 < m} {u : UnpackedFloat}
    (hu : HasSign .positive u) :
    HasSign .positive (div .binary64 (.finite .positive m e hm) u) := by
  cases u with
  | notANumber => exact hu.elim
  | infinity s =>
      obtain rfl : s = .positive := hu
      rfl
  | zero s =>
      obtain rfl : s = .positive := hu
      rfl
  | finite s m' e' hm' =>
      obtain rfl : s = .positive := hu
      exact hasSign_roundWithAccuracy _ _ _ _

theorem isOnSide_mul {m : Nat} {e : Int} {hm : 0 < m} {u : UnpackedFloat}
    (hu : IsOnSide .positive u) :
    IsOnSide .positive (mul .binary64 (.finite .positive m e hm) u) := by
  cases u with
  | notANumber => exact hu.elim
  | zero s => trivial
  | infinity s =>
      obtain rfl : s = .positive := hu
      rfl
  | finite s m' e' hm' =>
      obtain rfl : s = .positive := hu
      exact (hasSign_roundWithAccuracy _ _ _ _).isOnSide

theorem hasSign_abs {u : UnpackedFloat} (hu : u.isFinite = true) : HasSign .positive u.abs := by
  cases u with
  | zero s => rfl
  | finite s m e hm => rfl
  | _ => cases hu

theorem isOnSide_neg {u : UnpackedFloat} (hu : IsOnSide .positive u) :
    IsOnSide .negative u.neg := by
  cases u with
  | notANumber => exact hu.elim
  | zero s => trivial
  | infinity s =>
      obtain rfl : s = .positive := hu
      rfl
  | finite s m e hm =>
      obtain rfl : s = .positive := hu
      rfl

/-! ### Comparisons -/

theorem compare_ne_lt {u v : UnpackedFloat} (hu : IsOnSide .positive u)
    (hv : IsOnSide .negative v) : u.compare v ≠ some .lt := by
  cases u <;> cases v <;> simp_all [IsOnSide, HasSign, UnpackedFloat.compare]

theorem lt_iff {x y : Float} :
    x < y ↔ x.toModel.unpack.compare y.toModel.unpack = some .lt := by
  change (decide (x.toModel < y.toModel)) = true ↔ _
  rw [decide_eq_true_iff]
  change (_ == _) = true ↔ _
  exact beq_iff_eq

theorem le_iff {x y : Float} :
    x ≤ y ↔ (x.toModel.unpack.compare y.toModel.unpack).any (·.isLE) = true := by
  change (decide (x.toModel ≤ y.toModel)) = true ↔ _
  rw [decide_eq_true_iff]
  rfl

theorem unpack_zero : (0 : Float).toModel.unpack = .zero .positive := rfl

theorem zero_le_iff {x : Float} : 0 ≤ x ↔ IsOnSide .positive x.toModel.unpack := by
  rw [le_iff, unpack_zero]
  cases x.toModel.unpack with
  | zero s => exact iff_of_true rfl trivial
  | notANumber => exact iff_of_false nofun id
  | infinity s => cases s <;> simp [IsOnSide, HasSign, UnpackedFloat.compare]
  | finite s m e hm => cases s <;> simp [IsOnSide, HasSign, UnpackedFloat.compare]

/-- Only what is no number is neither below zero nor at least zero. -/
theorem zero_le_of_not_lt {x : Float} (hx : x.isFinite = true) (hlt : ¬ x < 0) : 0 ≤ x := by
  have hfinite : x.toModel.unpack.isFinite = true := hx
  rw [lt_iff, unpack_zero] at hlt
  rw [zero_le_iff]
  cases hu : x.toModel.unpack with
  | zero s => trivial
  | finite s m e hm => cases s <;> simp_all [IsOnSide, HasSign, UnpackedFloat.compare]
  | _ =>
      rw [hu] at hfinite
      cases hfinite

theorem zero_lt_of_not_le {x : Float} (hx : x.isFinite = true) (hle : ¬ x ≤ 0) : 0 < x := by
  have hfinite : x.toModel.unpack.isFinite = true := hx
  rw [le_iff, unpack_zero] at hle
  rw [lt_iff, unpack_zero]
  cases hu : x.toModel.unpack with
  | zero s => simp_all [UnpackedFloat.compare]
  | finite s m e hm => cases s <;> simp_all [UnpackedFloat.compare]
  | _ =>
      rw [hu] at hfinite
      cases hfinite

theorem not_le_of_zero_lt {x : Float} (hx : 0 < x) : ¬ x ≤ 0 := by
  rw [lt_iff, unpack_zero] at hx
  rw [le_iff, unpack_zero]
  cases hu : x.toModel.unpack with
  | finite s m e hm => cases s <;> simp_all [UnpackedFloat.compare]
  | infinity s => cases s <;> simp_all [UnpackedFloat.compare]
  | _ => simp_all [UnpackedFloat.compare]

theorem isFinite_and_not_le_iff {x : Float} :
    x.isFinite = true ∧ ¬ x ≤ 0 ↔ x.isFinite = true ∧ 0 < x :=
  and_congr_right fun hfinite => ⟨zero_lt_of_not_le hfinite, not_le_of_zero_lt⟩

theorem zero_le_one_div_mul_self {x : Float} (hx : x.isFinite = true) : 0 ≤ 1 / (x * x) := by
  have hsquare : HasSign .positive (x * x).toModel.unpack := (hasSign_mul_self hx).unpack_pack
  have hone : (1 : Float).toModel.unpack = .finite .positive (2 ^ 52) (-52) (by decide) := rfl
  refine zero_le_iff.2 (HasSign.unpack_pack ?_).isOnSide
  rw [hone]
  exact hasSign_div hsquare

theorem zero_le_abs {x : Float} (hx : x.isFinite = true) : 0 ≤ x.abs :=
  zero_le_iff.2 (hasSign_abs hx).unpack_pack.isOnSide

theorem zero_le_mul {x : Float} (hx : 0 ≤ x) : 0 ≤ 1e-12 * x := by
  have hfactor : ∃ m e hm, (1e-12 : Float).toModel.unpack = .finite .positive m e hm :=
    ⟨_, _, _, rfl⟩
  obtain ⟨m, e, hm, hfactor⟩ := hfactor
  refine zero_le_iff.2 (IsOnSide.unpack_pack ?_)
  rw [hfactor]
  exact isOnSide_mul (zero_le_iff.1 hx)

theorem not_lt_neg {x y : Float} (hx : 0 ≤ x) (hy : 0 ≤ y) : ¬ x < -y := by
  rw [lt_iff]
  exact compare_ne_lt (zero_le_iff.1 hx) (isOnSide_neg (zero_le_iff.1 hy)).unpack_pack

theorem not_lt_zero {x : Float} (hx : 0 ≤ x) : ¬ x < 0 := by
  rw [lt_iff]
  exact compare_ne_lt (zero_le_iff.1 hx) trivial

end RecedingHorizon.Binary64
