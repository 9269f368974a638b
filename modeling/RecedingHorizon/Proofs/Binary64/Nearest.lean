import Mathlib
import RecedingHorizon.Binary64

/-!
Nearest words. Words count magnitudes in order, each being the significand that it ends with, shifted
as far as it says; and the word that a quotient is rounded to is the nearest one, so that it is at
most another word exactly if the quotient is below the middle between that word and the next.
-/

namespace RecedingHorizon.Binary64

/-! ### Nearest numbers -/

theorem nearestQuotient_le (num den : Nat) : nearestQuotient num den ≤ num / den + 1 := by
  have hodd := Nat.mod_lt (num / den) (show 0 < 2 by decide)
  simp only [nearestQuotient]
  split
  · omega
  · split <;> omega

theorem le_nearestQuotient (num den : Nat) : num / den ≤ nearestQuotient num den := by
  simp only [nearestQuotient]
  split
  · exact le_rfl
  · split <;> omega

/-- A quotient is rounded to at most `n` if it is below the middle between `n` and the next number,
or at the middle if `n` is even. -/
theorem nearestQuotient_le_iff {num den n : Nat} (hden : 0 < den) :
    nearestQuotient num den ≤ n ↔
      2 * num < (2 * n + 1) * den ∨ 2 * num = (2 * n + 1) * den ∧ n % 2 = 0 := by
  have hrest := Nat.mod_lt num hden
  have hnum := Nat.div_add_mod num den
  have hlower := le_nearestQuotient num den
  have hupper := nearestQuotient_le num den
  have hmiddle : (2 * n + 1) * den = 2 * (den * n) + den := by ring
  rw [hmiddle]
  rcases Nat.lt_trichotomy (num / den) n with hlt | rfl | hgt
  · have hproduct : den * (num / den) + den ≤ den * n := Nat.mul_le_mul_left den hlt
    exact iff_of_true (by omega) (.inl (by omega))
  · simp only [nearestQuotient]
    split
    · omega
    · split <;> omega
  · have hproduct : den * n + den ≤ den * (num / den) := Nat.mul_le_mul_left den hgt
    exact iff_of_false (by omega) (by omega)

/-! ### Words and their magnitudes -/

theorem significand_lt (word : Nat) : significand word < 2 * leadingBit := by
  have hlow := Nat.mod_lt word (show 0 < leadingBit by decide)
  unfold significand
  split <;> omega

theorem shift_mul_add_significand (word : Nat) :
    shift word * leadingBit + significand word = word := by
  unfold shift significand
  split
  all_goals
    simp only [leadingBit] at *
    omega

theorem leadingBit_le_significand {word : Nat} (hshift : 0 < shift word) :
    leadingBit ≤ significand word := by
  unfold shift at hshift
  unfold significand
  split
  next hlow =>
    rw [Nat.div_eq_of_lt hlow] at hshift
    exact absurd hshift (by decide)
  next => exact Nat.le_add_left _ _

theorem shift_eq_zero {word : Nat} (hlow : ¬ leadingBit ≤ significand word) : shift word = 0 := by
  by_contra hsome
  exact hlow (leadingBit_le_significand (Nat.pos_of_ne_zero hsome))

theorem units_eq (word : Nat) : units word = significand word * 2 ^ shift word :=
  Nat.shiftLeft_eq _ _

/-- A significand with its leading bit may stand at any place, and one without at the unit. Twice
the leading bit carries into the next place. -/
theorem units_add {places kept : Nat} (hle : kept ≤ 2 * leadingBit)
    (hfull : 0 < places → leadingBit ≤ kept) :
    units (places * leadingBit + kept) = kept * 2 ^ places := by
  have hbit : 0 < leadingBit := by decide
  rw [units_eq, shift, significand]
  rcases Nat.lt_or_ge kept leadingBit with hshort | hlong
  · have hplaces : places = 0 := by
      by_contra hsome
      exact absurd (hfull (Nat.pos_of_ne_zero hsome)) (Nat.not_le.2 hshort)
    rw [hplaces, Nat.zero_mul, Nat.zero_add, if_pos hshort, Nat.div_eq_of_lt hshort]
  · rw [if_neg (Nat.not_lt.2 (hlong.trans (Nat.le_add_left _ _))), Nat.mul_add_mod_self_right,
      Nat.add_comm (places * leadingBit), Nat.add_mul_div_right _ _ hbit]
    rcases Nat.lt_or_eq_of_le hle with hlt | rfl
    · obtain ⟨low, rfl⟩ := Nat.exists_eq_add_of_le hlong
      have hlow : low < leadingBit := by omega
      rw [Nat.add_mod_left, Nat.mod_eq_of_lt hlow, Nat.add_div_left _ hbit,
        Nat.div_eq_of_lt hlow, Nat.add_comm low]
      congr 2
      omega
    · rw [Nat.mul_mod_left, Nat.mul_div_left _ hbit, Nat.zero_add]
      have hcarry : 2 + places - 1 = places + 1 := by omega
      rw [hcarry, Nat.pow_succ, Nat.mul_comm 2, Nat.mul_assoc, Nat.mul_comm 2]

theorem units_succ (word : Nat) : units (word + 1) = units word + 2 ^ shift word := by
  have hfull (hshift : 0 < shift word) : leadingBit ≤ significand word + 1 :=
    (leadingBit_le_significand hshift).trans (Nat.le_succ _)
  have hnext := units_add (significand_lt word) hfull
  rw [Nat.succ_eq_add_one, ← Nat.add_assoc, shift_mul_add_significand] at hnext
  rw [hnext, units_eq]
  ring

theorem units_strictMono : StrictMono units :=
  strictMono_nat_of_lt_succ fun word => by
    rw [units_succ]
    exact Nat.lt_add_of_pos_right (Nat.two_pow_pos _)

/-! ### Nearest words -/

/-- How far above the unit the last digit of a rounded quotient stands. -/
def roundedPlaces (num den : Nat) : Nat :=
  if num / den < 2 * leadingBit then 0 else (num / den).log2 - fractionBits

variable {num den : Nat}

theorem nearestWord_zero (den : Nat) : nearestWord 0 den = 0 := by
  simp [nearestWord, nearestQuotient, leadingBit, eq_comm]

theorem nearestWord_eq (num den : Nat) :
    nearestWord num den = roundedPlaces num den * leadingBit +
      nearestQuotient num (den * 2 ^ roundedPlaces num den) := by
  rw [← Nat.shiftLeft_eq]
  rfl

theorem div_roundedPlaces_lt (num den : Nat) :
    num / (den * 2 ^ roundedPlaces num den) < 2 * leadingBit := by
  rw [← Nat.div_div_eq_div_mul, roundedPlaces]
  split
  next hshort => simpa using hshort
  next hlong =>
    have hsome : num / den ≠ 0 := fun hzero => hlong (hzero ▸ by decide)
    have hbits : ¬ (num / den).log2 < 53 := (Nat.log2_lt hsome).not.2 hlong
    rw [Nat.div_lt_iff_lt_mul (Nat.two_pow_pos _)]
    calc num / den < 2 ^ ((num / den).log2 + 1) := Nat.lt_log2_self
      _ = 2 ^ 53 * 2 ^ ((num / den).log2 - fractionBits) := by
          rw [← Nat.pow_add]
          congr 1
          simp only [fractionBits]
          omega

theorem le_div_roundedPlaces (hplaces : 0 < roundedPlaces num den) :
    leadingBit ≤ num / (den * 2 ^ roundedPlaces num den) := by
  rw [← Nat.div_div_eq_div_mul]
  rw [roundedPlaces] at hplaces ⊢
  split at hplaces
  next => exact absurd hplaces (lt_irrefl 0)
  next hlong =>
    rw [if_neg hlong, Nat.le_div_iff_mul_le (Nat.two_pow_pos _)]
    calc 2 ^ 52 * 2 ^ ((num / den).log2 - fractionBits) = 2 ^ (num / den).log2 := by
          rw [← Nat.pow_add]
          congr 1
          simp only [fractionBits] at hplaces ⊢
          omega
      _ ≤ num / den := Nat.log2_self_le (by simp only [leadingBit] at hlong; omega)

theorem nearestQuotient_roundedPlaces_le (num den : Nat) :
    nearestQuotient num (den * 2 ^ roundedPlaces num den) ≤ 2 * leadingBit :=
  (nearestQuotient_le _ _).trans (div_roundedPlaces_lt num den)

theorem le_nearestQuotient_roundedPlaces (hplaces : 0 < roundedPlaces num den) :
    leadingBit ≤ nearestQuotient num (den * 2 ^ roundedPlaces num den) :=
  (le_div_roundedPlaces hplaces).trans (le_nearestQuotient _ _)

/-- Twice the middle between a word and the next one. -/
theorem units_add_units_succ {places kept : Nat} (hkept : kept < 2 * leadingBit)
    (hfull : 0 < places → leadingBit ≤ kept) :
    units (places * leadingBit + kept) + units (places * leadingBit + kept + 1) =
      (2 * kept + 1) * 2 ^ places := by
  have hnext : kept + 1 ≤ 2 * leadingBit := hkept
  rw [Nat.add_assoc, units_add hkept.le hfull,
    units_add hnext fun hsome => (hfull hsome).trans (Nat.le_add_right _ _)]
  ring

/-- A quotient is rounded to at most the given word if it is below the middle between that word and
the next one, or at the middle if the word is even. -/
theorem nearestWord_le_iff {word : Nat} (hden : 0 < den) :
    nearestWord num den ≤ word ↔
      2 * num < (units word + units (word + 1)) * den ∨
        2 * num = (units word + units (word + 1)) * den ∧ word % 2 = 0 := by
  have hscaled : 0 < den * 2 ^ roundedPlaces num den := Nat.mul_pos hden (Nat.two_pow_pos _)
  have hlt := div_roundedPlaces_lt num den
  have hupper := nearestQuotient_roundedPlaces_le num den
  have hwhole := @le_div_roundedPlaces num den
  have hlower := @le_nearestQuotient_roundedPlaces num den
  rw [nearestWord_eq]
  rw [Nat.div_lt_iff_lt_mul hscaled] at hlt
  rw [Nat.le_div_iff_mul_le hscaled] at hwhole
  generalize roundedPlaces num den = places at *
  have hnext : units word < units (word + 1) := units_strictMono (Nat.lt_succ_self word)
  rcases Nat.lt_or_ge word (places * leadingBit + 2 * leadingBit) with hbelow | habove
  · by_cases hkept : 0 < places → places * leadingBit + leadingBit ≤ word
    -- a word with the same places
    · obtain ⟨kept, rfl⟩ : ∃ kept, word = places * leadingBit + kept := by
        refine Nat.exists_eq_add_of_le ?_
        rcases Nat.eq_zero_or_pos places with rfl | hsome
        · exact (Nat.zero_mul _).le.trans (Nat.zero_le _)
        · exact (Nat.le_add_right _ _).trans (hkept hsome)
      have hfull (hsome : 0 < places) : leadingBit ≤ kept := Nat.le_of_add_le_add_left (hkept hsome)
      have hmiddle : (units (places * leadingBit + kept) + units (places * leadingBit + kept + 1)) *
          den = (2 * kept + 1) * (den * 2 ^ places) := by
        rw [units_add_units_succ (by omega) hfull, Nat.mul_assoc, Nat.mul_comm den]
      have hparity : (places * leadingBit + kept) % 2 = kept % 2 := by
        simp only [leadingBit]
        omega
      rw [hmiddle, hparity, Nat.add_le_add_iff_left, nearestQuotient_le_iff hscaled]
    -- a word with fewer places
    · obtain ⟨hsome, hlow⟩ : 0 < places ∧ word < places * leadingBit + leadingBit := by
        rwa [Classical.not_imp, Nat.not_le] at hkept
      have hunits : units (word + 1) * den ≤ num := by
        refine Nat.le_trans (Nat.mul_le_mul_right den (units_strictMono.monotone hlow)) ?_
        rw [units_add (by omega) fun _ => le_rfl, Nat.mul_assoc, Nat.mul_comm _ den]
        exact hwhole hsome
      have hdouble : units word * den < units (word + 1) * den :=
        Nat.mul_lt_mul_of_pos_right hnext hden
      have hlower := hlower hsome
      rw [Nat.add_mul]
      exact iff_of_false (by omega) (by omega)
  -- a word with more places
  · have hunits : num < units word * den := by
      refine Nat.lt_of_lt_of_le hlt ?_
      rw [Nat.mul_comm den, ← Nat.mul_assoc]
      refine Nat.mul_le_mul_right den (Nat.le_trans (Nat.le_of_eq ?_) (units_strictMono.monotone habove))
      rw [units_add le_rfl fun _ => by omega]
    have hdouble : units word * den < units (word + 1) * den :=
      Nat.mul_lt_mul_of_pos_right hnext hden
    rw [Nat.add_mul]
    exact iff_of_true (by omega) (.inl (by omega))

/-- Magnitudes from here on, in units, are rounded to infinity. It is the middle between the largest
double and the next power of two. -/
def overflowUnits : Nat := (2 ^ 54 - 1) * 2 ^ 2044

theorem nearestWord_lt_infinityWord_iff (hden : 0 < den) :
    nearestWord num den < infinityWord ↔ num < overflowUnits * den := by
  have hlast : infinityWord = (infinityWord - 1) + 1 := by decide
  have hmiddle : units (infinityWord - 1) + units (infinityWord - 1 + 1) = 2 * overflowUnits := by
    decide +kernel
  have hodd : (infinityWord - 1) % 2 ≠ 0 := by decide
  rw [hlast, Nat.lt_succ_iff, nearestWord_le_iff hden, hmiddle, Nat.mul_assoc 2]
  simp only [hodd, and_false, or_false]
  exact Nat.mul_lt_mul_left (by decide)

theorem nearestWord_lt {places : Nat} (hplaces : places ≤ 2044) (hnum : num < 2 ^ places) :
    nearestWord num 1 < infinityWord := by
  have hbound : 2 ^ 2044 ≤ overflowUnits := by decide +kernel
  rw [nearestWord_lt_infinityWord_iff Nat.one_pos, Nat.mul_one]
  exact hnum.trans_le (le_trans (pow_le_pow_right₀ one_le_two hplaces) hbound)

end RecedingHorizon.Binary64
