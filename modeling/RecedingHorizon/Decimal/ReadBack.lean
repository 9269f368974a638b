import Mathlib
import RecedingHorizon.Decimal

/-!
Decimals that read back. Rounding gives every magnitude that some word has exactly to that word, so
the exact decimal of a word reads back as the word, and so does its shortest decimal. Digits that
are taken from a number give the number again.
-/

namespace RecedingHorizon

namespace Binary64

theorem log2_shiftLeft_significand (low places : Nat) (hlow : low < leadingBit) :
    ((low + leadingBit) <<< places).log2 = fractionBits + places := by
  have hpos : 0 < (low + leadingBit) * 2 ^ places :=
    Nat.mul_pos (by simp only [leadingBit]; omega) (Nat.two_pow_pos places)
  have hbit : leadingBit = 2 ^ fractionBits := by decide
  rw [Nat.shiftLeft_eq, Nat.log2_eq_iff (Nat.ne_of_gt hpos)]
  rw [show fractionBits + places + 1 = (fractionBits + 1) + places by omega,
    Nat.pow_add 2 fractionBits, Nat.pow_add 2 (fractionBits + 1), Nat.pow_succ, ← hbit]
  exact ⟨Nat.mul_le_mul_right _ (by omega),
    Nat.mul_lt_mul_of_pos_right (by omega) (Nat.two_pow_pos places)⟩

/-- A magnitude that some word has exactly is rounded to that word. -/
theorem nearestWord_units (word : Nat) : nearestWord (units word) 1 = word := by
  by_cases hsmall : word < 2 * leadingBit
  · have hshift : shift word = 0 := by
      simp only [shift, leadingBit] at hsmall ⊢
      omega
    have hunits : units word = word := by
      rw [units, hshift, Nat.shiftLeft_zero]
      by_cases hnormal : word < leadingBit
      · rw [significand, if_pos hnormal]
      · rw [significand, if_neg hnormal]
        simp only [leadingBit] at hsmall hnormal ⊢
        omega
    have hexact : nearestQuotient word 1 = word := by
      simpa using nearestQuotient_mul word Nat.zero_lt_one
    simp only [nearestWord, Nat.div_one, hunits, if_pos hsmall, Nat.zero_mul,
      Nat.shiftLeft_zero, hexact, Nat.zero_add]
  · have hlow : word % leadingBit < leadingBit := Nat.mod_lt _ (by decide)
    have hsignificand : significand word = word % leadingBit + leadingBit := by
      rw [significand, if_neg (by omega)]
    have hplaces : 1 ≤ shift word := by
      simp only [shift, leadingBit] at hsmall ⊢
      omega
    have hlarge : ¬ units word < 2 * leadingBit := by
      have hdouble : 2 ^ 1 ≤ 2 ^ shift word := Nat.pow_le_pow_right (by decide) hplaces
      have hproduct := Nat.mul_le_mul (show leadingBit ≤ significand word by omega) hdouble
      rw [units, Nat.shiftLeft_eq]
      omega
    have hlog : (units word).log2 - fractionBits = shift word := by
      rw [units, hsignificand, log2_shiftLeft_significand _ _ hlow]
      omega
    simp only [nearestWord, Nat.div_one, hlarge, if_false, hlog]
    rw [units, Nat.shiftLeft_eq, Nat.shiftLeft_eq, Nat.one_mul,
      nearestQuotient_mul _ (Nat.two_pow_pos _), hsignificand]
    simp only [shift, leadingBit] at hplaces ⊢
    omega

end Binary64

namespace Decimal

open Binary64

theorem toWord_ofNat (digits zeros : Nat) :
    toWord ⟨digits, .ofNat zeros⟩ =
      if digits = 0 then 0
      else if overflowZeros ≤ zeros then infinityWord
      else nearestWord ((digits * Nat.pow 10 zeros) <<< unitPlaces) 1 := rfl

theorem toWord_negSucc (digits places : Nat) :
    toWord ⟨digits, .negSucc places⟩ =
      if digits.log2 + 1 ≤ 3 * (places + 1 - vanishingPlaces) then 0
      else nearestWord (digits <<< unitPlaces) (Nat.pow 10 (places + 1)) := rfl

/-- A power of five has more than two binary places for every factor. -/
theorem le_log2_mul_five_pow {m places : Nat} (hm : 0 < m) (hplaces : places ≤ 1287) :
    3 * (places - vanishingPlaces) ≤ (m * 5 ^ places).log2 := by
  have hpos : 0 < m * 5 ^ places := Nat.mul_pos hm (Nat.pow_pos (by decide))
  rw [Nat.le_log2 (Nat.ne_of_gt hpos), vanishingPlaces]
  calc
    2 ^ (3 * (places - 324)) ≤ 2 ^ (9 * (places / 4)) :=
      Nat.pow_le_pow_right (by decide) (by omega)
    _ = 512 ^ (places / 4) := by rw [Nat.pow_mul]
    _ ≤ 625 ^ (places / 4) := Nat.pow_le_pow_left (by decide) _
    _ = 5 ^ (4 * (places / 4)) := by rw [Nat.pow_mul]
    _ ≤ 5 ^ places := Nat.pow_le_pow_right (by decide) (by omega)
    _ ≤ m * 5 ^ places := Nat.le_mul_of_pos_left _ hm

/-- The exact decimal of a word reads back as the word. -/
theorem toWord_exact (word : Nat) : (exact word).toWord = word := by
  by_cases hzero : significand word = 0
  · have hword : word = 0 := by
      by_cases hnormal : word < leadingBit
      · rwa [significand, if_pos hnormal] at hzero
      · rw [significand, if_neg hnormal, leadingBit] at hzero
        omega
    subst hword
    decide +kernel
  by_cases hshift : unitPlaces ≤ shift word
  · have hunits : (significand word <<< (shift word - unitPlaces)) <<< unitPlaces = units word := by
      rw [← Nat.shiftLeft_add, Nat.sub_add_cancel hshift, units]
    have hdigits : ¬ significand word <<< (shift word - unitPlaces) = 0 := by
      rw [Nat.shiftLeft_eq]
      exact Nat.ne_of_gt (Nat.mul_pos (Nat.pos_of_ne_zero hzero) (Nat.two_pow_pos _))
    have hexact : exact word = ⟨significand word <<< (shift word - unitPlaces), .ofNat 0⟩ := by
      simp only [exact, Nat.sub_eq_zero_of_le hshift, Nat.pow_eq, Nat.pow_zero, Nat.mul_one]
      rfl
    rw [hexact, toWord_ofNat, if_neg hdigits, if_neg (by decide), Nat.pow_eq, Nat.pow_zero,
      Nat.mul_one, hunits, nearestWord_units]
  · obtain ⟨places, hplaces⟩ : ∃ places, unitPlaces - shift word = places + 1 :=
      ⟨unitPlaces - shift word - 1, by omega⟩
    have hlarge := le_log2_mul_five_pow (Nat.pos_of_ne_zero hzero)
      (show places + 1 ≤ 1287 by simp only [unitPlaces] at hplaces; omega)
    have hunits : (significand word * 5 ^ (places + 1)) <<< unitPlaces
        = units word * 10 ^ (places + 1) := by
      rw [Nat.shiftLeft_eq, units, Nat.shiftLeft_eq,
        show unitPlaces = shift word + (places + 1) by omega, Nat.pow_add 2 (shift word),
        show 10 = 5 * 2 from rfl, Nat.mul_pow]
      ring
    have hexact : exact word = ⟨significand word * 5 ^ (places + 1), .negSucc places⟩ := by
      simp only [exact, hplaces, Nat.sub_eq_zero_of_le (show shift word ≤ unitPlaces by omega),
        Nat.shiftLeft_zero, Nat.pow_eq]
      rfl
    have hquotient : nearestWord (units word * 10 ^ (places + 1)) (10 ^ (places + 1))
        = nearestWord (units word) 1 := by
      simpa using nearestWord_mul (units word) 1 (show 0 < 10 ^ (places + 1) by positivity)
    rw [hexact, toWord_negSucc, if_neg (by omega), hunits, Nat.pow_eq, hquotient,
      nearestWord_units]

/-- Whatever is found reads back, and the exact value does where nothing is found. -/
theorem toWord_shortest (tie : Tie) (word : Nat) : (shortest tie word).toWord = word := by
  simp only [shortest]
  cases hshort : (List.range enoughDigits).findSome? fun length =>
      [(neighbours tie (exact word) (digitCount (exact word).digits - (length + 1))).1,
        (neighbours tie (exact word) (digitCount (exact word).digits - (length + 1))).2].find?
          fun d => d.toWord = word with
  | none => simpa [hshort] using toWord_exact word
  | some d =>
    obtain ⟨_, _, hfound⟩ := List.exists_of_findSome?_eq_some hshort
    simpa [hshort] using List.find?_some hfound

theorem ofDigits_lastDigits (count n : Nat) : ofDigits (lastDigits count n) = n % 10 ^ count := by
  induction count generalizing n with
  | zero => simp [lastDigits, ofDigits, Nat.mod_one]
  | succ count ih =>
      simp only [ofDigits] at ih
      simp only [lastDigits, ofDigits, List.foldl_append, List.foldl_cons, List.foldl_nil, ih]
      rw [Nat.pow_succ', Nat.mod_mul, Fin.val_ofNat]
      omega

theorem ofDigits_digitList (n : Nat) : ofDigits (digitList n) = n := by
  rw [digitList, ofDigits_lastDigits]
  exact Nat.mod_eq_of_lt
    ((Nat.length_toDigits_le_iff (by decide) Nat.length_toDigits_pos).1 (Nat.le_refl _))

end Decimal

end RecedingHorizon
