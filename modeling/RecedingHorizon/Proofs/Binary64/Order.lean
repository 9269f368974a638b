import Mathlib
import RecedingHorizon.Proofs.Binary64.Range
import RecedingHorizon.Proofs.Binary64.Sign

/-!
The order of doubles. A double stands for a point of the number line with both infinities, unless it
is NaN, and doubles are compared as these points are. The fields of two finite doubles are compared
one after the other, which is to compare their words and so their magnitudes.
-/

namespace RecedingHorizon.Binary64

open Float.Model (UnpackedFloat)
open Float.Model.UnpackedFloat

/-! ### Fields and words -/

theorem shift_mono : Monotone shift := fun _ _ hle =>
  Nat.sub_le_sub_right (Nat.div_le_div_right hle) 1

theorem compare_fields_of_lt {word word' : Nat} (hlt : word < word') :
    (compare ((shift word : Int) - unitPlaces) ((shift word' : Int) - unitPlaces)).then
      (compare (significand word) (significand word')) = .lt := by
  have hword := shift_mul_add_significand word
  have hword' := shift_mul_add_significand word'
  rcases (shift_mono hlt.le).lt_or_eq with hshift | hshift
  · have hexponent : (shift word : Int) - unitPlaces < (shift word' : Int) - unitPlaces := by omega
    rw [compare_lt_iff_lt.2 hexponent]
    rfl
  · rw [hshift] at hword ⊢
    have hsignificand : significand word < significand word' := by omega
    rw [compare_eq_iff_eq.2 rfl, compare_lt_iff_lt.2 hsignificand]
    rfl

/-- Exponents are compared first and significands second, as words are. -/
theorem compare_fields (word word' : Nat) :
    (compare ((shift word : Int) - unitPlaces) ((shift word' : Int) - unitPlaces)).then
      (compare (significand word) (significand word')) = cmp word word' := by
  rcases lt_trichotomy word word' with hlt | rfl | hgt
  · rw [(cmp_eq_lt_iff _ _).2 hlt, compare_fields_of_lt hlt]
  · rw [compare_eq_iff_eq.2 rfl, compare_eq_iff_eq.2 rfl, cmp_self_eq_eq]
    rfl
  · rw [(cmp_eq_gt_iff _ _).2 hgt, ← Int.compare_swap, ← Nat.compare_swap, ← Ordering.swap_then,
      compare_fields_of_lt hgt]
    rfl

/-! ### Finite doubles -/

variable {x y : Float}

theorem number_eq (hx : x.isFinite = true) :
    number x = (signOf (ofFloat x).1).apply (units (ofFloat x).2) / 2 ^ unitPlaces :=
  (value_unpack ((isFinite_iff x).1 hx)).2

theorem number_of_zero (hx : (ofFloat x).2 = 0) : number x = 0 := by
  rw [number, unpack_of_eq_zero hx]
  rfl

theorem number_of_positive (hx : x.isFinite = true) (hsign : (ofFloat x).1 = false) :
    number x = units (ofFloat x).2 / 2 ^ unitPlaces := by
  rw [number_eq hx, hsign]
  simp [signOf, Sign.apply]

theorem number_of_negative (hx : x.isFinite = true) (hsign : (ofFloat x).1 = true) :
    number x = -(units (ofFloat x).2 / 2 ^ unitPlaces) := by
  rw [number_eq hx, hsign, ← neg_div]
  simp [signOf, Sign.apply]

theorem magnitude_strictMono : StrictMono fun word : Nat => (units word : ℚ) / 2 ^ unitPlaces :=
  fun _ _ hlt => div_lt_div_of_pos_right (Nat.cast_lt.2 (units_strictMono hlt)) (pow_pos two_pos _)

theorem number_pos (hx : x.isFinite = true) (hpos : 0 < (ofFloat x).2)
    (hsign : (ofFloat x).1 = false) : 0 < number x := by
  rw [number_of_positive hx hsign]
  exact div_pos (Nat.cast_pos.2 (units_strictMono hpos)) (pow_pos two_pos _)

theorem number_neg (hx : x.isFinite = true) (hpos : 0 < (ofFloat x).2)
    (hsign : (ofFloat x).1 = true) : number x < 0 := by
  rw [number_of_negative hx hsign]
  exact neg_neg_of_pos (div_pos (Nat.cast_pos.2 (units_strictMono hpos)) (pow_pos two_pos _))

/-- Doubles other than zero are compared by their signs, and by their words if these agree. -/
theorem compare_unpack_of_pos (hx : x.isFinite = true) (hy : y.isFinite = true)
    (hposx : 0 < (ofFloat x).2) (hposy : 0 < (ofFloat y).2) :
    x.toModel.unpack.compare y.toModel.unpack = some (cmp (number x) (number y)) := by
  rw [unpack_of_pos ((isFinite_iff x).1 hx) hposx, unpack_of_pos ((isFinite_iff y).1 hy) hposy]
  cases hsignx : (ofFloat x).1 <;> cases hsigny : (ofFloat y).1
  case false.false =>
    rw [number_of_positive hx hsignx, number_of_positive hy hsigny,
      magnitude_strictMono.cmp_map_eq, ← compare_fields]
    rfl
  case false.true =>
    have hgt := (number_neg hy hposy hsigny).trans (number_pos hx hposx hsignx)
    rw [(cmp_eq_gt_iff _ _).2 hgt]
    rfl
  case true.false =>
    have hlt := (number_neg hx hposx hsignx).trans (number_pos hy hposy hsigny)
    rw [(cmp_eq_lt_iff _ _).2 hlt]
    rfl
  case true.true =>
    rw [number_of_negative hx hsignx, number_of_negative hy hsigny,
      magnitude_strictMono.neg.cmp_map_eq, ← cmp_swap, ← compare_fields]
    rfl

theorem compare_unpack_of_zero (hx : (ofFloat x).2 = 0) (hy : y.isFinite = true) :
    x.toModel.unpack.compare y.toModel.unpack = some (cmp (number x) (number y)) := by
  rw [unpack_of_eq_zero hx, number_of_zero hx]
  rcases Nat.eq_zero_or_pos (ofFloat y).2 with hzero | hpos
  · rw [unpack_of_eq_zero hzero, number_of_zero hzero, cmp_self_eq_eq]
    rfl
  · rw [unpack_of_pos ((isFinite_iff y).1 hy) hpos]
    cases hsign : (ofFloat y).1 with
    | false =>
        rw [(cmp_eq_lt_iff _ _).2 (number_pos hy hpos hsign)]
        rfl
    | true =>
        rw [(cmp_eq_gt_iff _ _).2 (number_neg hy hpos hsign)]
        rfl

/-- Operands that change places are compared the other way round. -/
theorem compare_swap (u v : UnpackedFloat) : v.compare u = (u.compare v).map Ordering.swap := by
  cases u <;> cases v
  case finite.finite s m e hm s' m' e' hm' =>
    have hfields : ((compare e e').then (compare m m')).swap =
        (compare e' e).then (compare m' m) := by
      rw [Ordering.swap_then, Int.compare_swap, Nat.compare_swap]
    cases s <;> cases s' <;> simp [UnpackedFloat.compare, hfields]
  case infinity.infinity s s' => cases s <;> cases s' <;> rfl
  case infinity.zero s _ => cases s <;> rfl
  case infinity.finite s _ _ _ _ => cases s <;> rfl
  case zero.infinity s => cases s <;> rfl
  case finite.infinity s => cases s <;> rfl
  case zero.finite s _ _ _ => cases s <;> rfl
  case finite.zero s _ _ _ _ => cases s <;> rfl
  all_goals rfl

/-- Finite doubles are compared as the numbers that they stand for. -/
theorem compare_unpack (hx : x.isFinite = true) (hy : y.isFinite = true) :
    x.toModel.unpack.compare y.toModel.unpack = some (cmp (number x) (number y)) := by
  rcases Nat.eq_zero_or_pos (ofFloat x).2 with hzerox | hposx
  · exact compare_unpack_of_zero hzerox hy
  · rcases Nat.eq_zero_or_pos (ofFloat y).2 with hzeroy | hposy
    · rw [compare_swap, compare_unpack_of_zero hzeroy hx, Option.map_some, cmp_swap]
    · exact compare_unpack_of_pos hx hy hposx hposy

/-! ### The extended line -/

/-- The end of the extended line on the side of a sign. -/
noncomputable def endOf : Sign → EReal
  | .positive => ⊤
  | .negative => ⊥

/-- The point of the extended line that a double stands for. NaN stands for none. -/
noncomputable def point? (x : Float) : Option EReal :=
  match x.toModel.unpack with
  | .notANumber => none
  | .infinity sign => some (endOf sign)
  | u => some ((value u : ℝ) : EReal)

theorem point?_of_isFinite (hx : x.isFinite = true) : point? x = some ((number x : ℝ) : EReal) := by
  have hfinite : x.toModel.unpack.isFinite = true := hx
  unfold point? number
  cases hunpack : x.toModel.unpack with
  | zero => rfl
  | finite => rfl
  | _ =>
      rw [hunpack] at hfinite
      cases hfinite

theorem unpack_of_not_isFinite (hx : ¬ x.isFinite = true) :
    x.toModel.unpack = .notANumber ∨ ∃ sign, x.toModel.unpack = .infinity sign := by
  have hinfinite : ¬ x.toModel.unpack.isFinite = true := hx
  cases hunpack : x.toModel.unpack with
  | notANumber => exact .inl rfl
  | infinity sign => exact .inr ⟨sign, rfl⟩
  | _ =>
      rw [hunpack] at hinfinite
      exact absurd rfl hinfinite

theorem cmp_coe (p q : ℚ) : cmp ((p : ℝ) : EReal) ((q : ℝ) : EReal) = cmp p q := by
  have hmono : StrictMono fun p : ℚ => ((p : ℝ) : EReal) := fun _ _ hlt =>
    EReal.coe_lt_coe (Rat.cast_lt.2 hlt)
  exact hmono.cmp_map_eq p q

/-- An infinity is compared as an end of the line. -/
theorem compare_infinity (sign : Sign) (y : Float) :
    (UnpackedFloat.infinity sign).compare y.toModel.unpack = (point? y).map (cmp (endOf sign)) := by
  have htop (r : ℝ) : cmp (⊤ : EReal) r = .gt := (cmp_eq_gt_iff _ _).2 (EReal.coe_lt_top r)
  have hbot (r : ℝ) : cmp (⊥ : EReal) r = .lt := (cmp_eq_lt_iff _ _).2 (EReal.bot_lt_coe r)
  have hbetween : cmp (⊥ : EReal) ⊤ = .lt := (cmp_eq_lt_iff _ _).2 bot_lt_top
  unfold point?
  cases y.toModel.unpack with
  | notANumber => rfl
  | infinity sign' =>
      cases sign <;> cases sign' <;>
        simp [UnpackedFloat.compare, endOf, hbetween, ← cmp_swap (⊥ : EReal) ⊤] <;> rfl
  | _ => cases sign <;> simp [UnpackedFloat.compare, endOf, htop, hbot]

theorem compare_notANumber (u : UnpackedFloat) : UnpackedFloat.notANumber.compare u = none := by
  cases u <;> rfl

/-- Doubles are compared as the points that they stand for. -/
theorem compare_points (x y : Float) :
    x.toModel.unpack.compare y.toModel.unpack =
      (point? x).bind fun a => (point? y).map (cmp a) := by
  by_cases hx : x.isFinite = true
  · by_cases hy : y.isFinite = true
    · rw [compare_unpack hx hy, point?_of_isFinite hx, point?_of_isFinite hy, Option.bind_some,
        Option.map_some, cmp_coe]
    · rcases unpack_of_not_isFinite hy with hnan | ⟨sign, hinfinity⟩
      · rw [compare_swap, hnan, compare_notANumber]
        simp [point?, hnan]
      · rw [compare_swap, hinfinity, compare_infinity, point?_of_isFinite hx]
        simp [point?, hinfinity, cmp_swap]
  · rcases unpack_of_not_isFinite hx with hnan | ⟨sign, hinfinity⟩
    · rw [hnan, compare_notANumber]
      simp [point?, hnan]
    · rw [hinfinity, compare_infinity]
      simp [point?, hinfinity]

theorem isLE_cmp {a b : EReal} : (cmp a b).isLE = true ↔ a ≤ b := by
  rcases lt_trichotomy a b with hlt | rfl | hgt
  · rw [(cmp_eq_lt_iff _ _).2 hlt]
    exact iff_of_true rfl hlt.le
  · rw [cmp_self_eq_eq]
    exact iff_of_true rfl le_rfl
  · rw [(cmp_eq_gt_iff _ _).2 hgt]
    exact iff_of_false nofun hgt.not_ge

theorem le_iff_point : x ≤ y ↔ ∃ a ∈ point? x, ∃ b ∈ point? y, a ≤ b := by
  rw [le_iff, compare_points]
  cases point? x <;> cases point? y <;> simp [isLE_cmp]

theorem lt_iff_point : x < y ↔ ∃ a ∈ point? x, ∃ b ∈ point? y, a < b := by
  rw [lt_iff, compare_points]
  cases point? x <;> cases point? y <;> simp [cmp_eq_lt_iff]

theorem point?_eq_none_iff : point? x = none ↔ x.isNaN = true := by
  have hnan : x.isNaN = x.toModel.unpack.isNaN := rfl
  rw [hnan, point?]
  cases x.toModel.unpack <;> simp [UnpackedFloat.isNaN]

end RecedingHorizon.Binary64
