import Mathlib
import RecedingHorizon.Proofs.Binary64.Order

/-!
Floors of doubles. What the floor of a double is at least is decided by the point that the double
stands for; so floors follow the order of doubles. A double that is a whole number is its own floor,
and every whole number up to `2 ^ 53` is a double.
-/

namespace RecedingHorizon.Binary64

open Float.Model.UnpackedFloat

variable {x y : Float}

/-! ### Floors -/

/-- A whole number other than zero is at most a floor if it is at most the double and the bound. -/
theorem le_clampedFloor_iff {k last : Nat} (hk : k ≠ 0) :
    k ≤ clampedFloor last x ↔ k ≤ last ∧ ∃ r ∈ point? x, (k : EReal) ≤ r := by
  by_cases hx : x.isFinite = true
  · have hcast : (k : EReal) ≤ ((number x : ℝ) : EReal) ↔ (k : ℚ) ≤ number x := by
      rw [← EReal.coe_natCast, EReal.coe_le_coe_iff]
      exact_mod_cast Iff.rfl
    have hvalue : value x.toModel.unpack = number x := rfl
    rw [clampedFloor_of_isFinite hx, point?_of_isFinite hx, hvalue, Int.floor_toNat, le_min_iff,
      Nat.le_floor_iff' hk, and_comm]
    simp [hcast]
  · rw [clampedFloor, point?]
    rcases unpack_of_not_isFinite hx with hnan | ⟨sign, hinfinity⟩
    · simp [hnan, hk]
    · cases sign <;> simp [hinfinity, endOf, hk, EReal.natCast_ne_bot]

theorem clampedFloor_mono (last : Nat) (hle : x ≤ y) :
    clampedFloor last x ≤ clampedFloor last y := by
  obtain ⟨a, ha, b, hb, hab⟩ := le_iff_point.1 hle
  by_cases hzero : clampedFloor last x = 0
  · exact hzero ▸ Nat.zero_le _
  · obtain ⟨hlast, r, hr, hkr⟩ := (le_clampedFloor_iff hzero).1 le_rfl
    cases Option.mem_unique ha hr
    exact (le_clampedFloor_iff hzero).2 ⟨hlast, b, hb, hkr.trans hab⟩

/-- The floor of a double that is between a whole number and the next. -/
theorem clampedFloor_eq {k last : Nat} {r : EReal} (hr : point? x = some r) (hk : k ≤ last)
    (hle : (k : EReal) ≤ r) (hlt : r < k + 1) : clampedFloor last x = k := by
  apply le_antisymm
  · by_contra hgt
    obtain ⟨-, r', hr', hkr⟩ := (le_clampedFloor_iff k.succ_ne_zero).1 (Nat.lt_of_not_le hgt)
    cases Option.mem_unique hr hr'
    rw [Nat.succ_eq_add_one, Nat.cast_add, Nat.cast_one] at hkr
    exact hkr.not_gt hlt
  · rcases eq_or_ne k 0 with rfl | hne
    · exact Nat.zero_le _
    · exact (le_clampedFloor_iff hne).2 ⟨hk, r, hr, hle⟩

theorem clampedFloor_le (last : Nat) (x : Float) : clampedFloor last x ≤ last :=
  floorUpTo_eq_clampedFloor last x ▸ floorUpTo_le last x

theorem clampedFloor_eq_last {last : Nat} {r : EReal} (hr : point? x = some r)
    (hle : (last : EReal) ≤ r) : clampedFloor last x = last := by
  refine le_antisymm (clampedFloor_le last x) ?_
  rcases eq_or_ne last 0 with rfl | hne
  · exact Nat.zero_le _
  · exact (le_clampedFloor_iff hne).2 ⟨le_rfl, r, hr, hle⟩

theorem point?_one : point? 1 = some 1 := by
  have hunpack : (1 : Float).toModel.unpack = .finite .positive (2 ^ 52) (-52) (by decide) := rfl
  have hnumber : number 1 = 1 := by
    rw [number, hunpack]
    norm_num [value, Sign.apply]
  rw [point?_of_isFinite (by decide), hnumber, Rat.cast_one, EReal.coe_one]

theorem clampedFloor_eq_zero (last : Nat) (hx : x.isNaN = true ∨ x < 1) :
    clampedFloor last x = 0 := by
  by_contra hne
  obtain ⟨-, r, hr, hle⟩ := (le_clampedFloor_iff one_ne_zero).1 (Nat.one_le_iff_ne_zero.2 hne)
  rcases hx with hnan | hlt
  · rw [point?_eq_none_iff.2 hnan] at hr
    cases hr
  · obtain ⟨a, ha, b, hb, hab⟩ := lt_iff_point.1 hlt
    cases Option.mem_unique ha hr
    cases Option.mem_unique hb point?_one
    rw [Nat.cast_one] at hle
    exact hle.not_gt hab

/-! ### Whole numbers -/

/-- A whole number that fits a significand, shifted so far that it has its leading bit. -/
theorem mul_two_pow_log2_bounds {k : Nat} (hpos : 0 < k) (hk : k ≤ 2 ^ 53) :
    leadingBit ≤ k * 2 ^ (52 - k.log2) ∧ k * 2 ^ (52 - k.log2) ≤ 2 * leadingBit := by
  have hbit : leadingBit = 2 ^ 52 := rfl
  rw [hbit, ← pow_succ']
  constructor
  · calc 2 ^ 52 ≤ 2 ^ (k.log2 + (52 - k.log2)) := Nat.pow_le_pow_right two_pos (by omega)
      _ = 2 ^ k.log2 * 2 ^ (52 - k.log2) := pow_add 2 _ _
      _ ≤ k * 2 ^ (52 - k.log2) := Nat.mul_le_mul_right _ (Nat.log2_self_le hpos.ne')
  · rcases Nat.le_total k.log2 52 with hlow | hhigh
    · calc k * 2 ^ (52 - k.log2) ≤ 2 ^ (k.log2 + 1) * 2 ^ (52 - k.log2) :=
            Nat.mul_le_mul_right _ Nat.lt_log2_self.le
        _ = 2 ^ (52 + 1) := by rw [← pow_add]; congr 1; omega
    · rwa [Nat.sub_eq_zero_of_le hhigh, pow_zero, mul_one]

/-- Doubles count whole numbers without a gap up to `2 ^ 53`. -/
theorem exists_point?_eq_natCast {k : Nat} (hk : k ≤ 2 ^ 53) :
    ∃ x, point? x = some (k : EReal) := by
  rcases Nat.eq_zero_or_pos k with rfl | hpos
  · refine ⟨0, ?_⟩
    rw [point?_of_isFinite (by decide), number_of_zero (by decide)]
    simp
  · obtain ⟨hfull, hle⟩ := mul_two_pow_log2_bounds hpos hk
    have hplaces : 52 - k.log2 ≤ unitPlaces := (Nat.sub_le _ _).trans (by decide)
    have hword : (unitPlaces - (52 - k.log2)) * leadingBit + k * 2 ^ (52 - k.log2) <
        infinityWord := by
      simp only [unitPlaces, leadingBit, infinityWord] at hle ⊢
      omega
    have hunits : units ((unitPlaces - (52 - k.log2)) * leadingBit + k * 2 ^ (52 - k.log2)) =
        k * 2 ^ unitPlaces := by
      rw [units_add hle fun _ => hfull, mul_assoc, ← pow_add, Nat.add_sub_cancel' hplaces]
    refine ⟨toFloat false _, (point?_of_isFinite (isFinite_toFloat hword)).trans ?_⟩
    rw [number_of_positive (isFinite_toFloat hword) (by rw [ofFloat_toFloat hword]),
      ofFloat_toFloat hword, hunits, Nat.cast_mul, Nat.cast_pow, Nat.cast_ofNat,
      mul_div_cancel_right₀ _ (pow_ne_zero _ two_ne_zero), Rat.cast_natCast, EReal.coe_natCast]

theorem natCast_lt_add_one (k : Nat) : (k : EReal) < k + 1 := by
  exact_mod_cast Nat.lt_succ_self k

/-- A double that is a whole number is its own floor, unless the bound cuts it off. -/
theorem clampedFloor_of_point?_eq_natCast {k last : Nat} (hk : k ≤ last)
    (hx : point? x = some (k : EReal)) : clampedFloor last x = k :=
  clampedFloor_eq hx hk le_rfl (natCast_lt_add_one k)

end RecedingHorizon.Binary64
