import Mathlib
import RecedingHorizon.Decimal.ReadBack
import RecedingHorizon.Json.Numeral
import RecedingHorizon.Proofs.Binary64.Nearest
import RecedingHorizon.Proofs.Binary64.Word

/-!
Numbers read back. The numeral of a finite double has the double as its value, and a numeral that is
written is scanned again, whatever stands behind it, as long as that cannot go on with the number.
-/

namespace RecedingHorizon

namespace Decimal

open Binary64

theorem foldl_ofDigits (n : Nat) (digits : List (Fin 10)) :
    digits.foldl (fun n digit => 10 * n + digit.val) n = n * 10 ^ digits.length + ofDigits digits := by
  induction digits generalizing n with
  | nil => simp [ofDigits]
  | cons first rest ih =>
      rw [ofDigits, List.foldl_cons, List.foldl_cons, ih, ih (10 * 0 + first.val),
        List.length_cons, pow_succ]
      ring

theorem ofDigits_cons (first : Fin 10) (rest : List (Fin 10)) :
    ofDigits (first :: rest) = first.val * 10 ^ rest.length + ofDigits rest := by
  rw [ofDigits, List.foldl_cons, foldl_ofDigits, Nat.mul_zero, Nat.zero_add]

theorem ofDigits_lt (digits : List (Fin 10)) : ofDigits digits < 10 ^ digits.length := by
  induction digits with
  | nil => simp [ofDigits]
  | cons first rest ih =>
      have hfirst : (first.val + 1) * 10 ^ rest.length ≤ 10 * 10 ^ rest.length :=
        Nat.mul_le_mul_right _ first.isLt
      rw [ofDigits_cons, List.length_cons, pow_succ]
      linarith

theorem digitList_ne_nil (n : Nat) : digitList n ≠ [] := by
  have hlength : (digitList n).length = (Nat.toDigits 10 n).length := length_lastDigits _ _
  have hpos : 0 < (Nat.toDigits 10 n).length := Nat.length_toDigits_pos
  intro h
  simp [h] at hlength
  omega

/-- The digits of a number do not start with a zero, those of zero apart. -/
theorem head_digitList_ne_zero {n : Nat} (hn : 0 < n) {first : Fin 10} {rest : List (Fin 10)}
    (h : digitList n = first :: rest) : first ≠ 0 := by
  rintro rfl
  have hvalue : ofDigits rest = n := by
    rw [← ofDigits_digitList n, h, ofDigits_cons]
    simp
  have hcount : (Nat.toDigits 10 n).length = rest.length + 1 := by
    have hlength : (digitList n).length = (Nat.toDigits 10 n).length := length_lastDigits _ _
    rw [← hlength, h, List.length_cons]
  have hshort : ¬ (Nat.toDigits 10 n).length ≤ rest.length := by omega
  rw [Nat.length_toDigits_le_iff (by decide)] at hshort
  · have := ofDigits_lt rest
    omega
  · rw [List.length_pos_iff]
    rintro rfl
    simp only [ofDigits, List.foldl_nil] at hvalue
    omega

theorem toWord_zero (exponent : Int) : toWord ⟨0, exponent⟩ = 0 := by
  cases exponent with
  | ofNat zeros => rw [toWord_ofNat, if_pos rfl]
  | negSucc places =>
      have hnone : nearestWord (0 * 10 ^ (places + 1)) (1 * 10 ^ (places + 1)) = 0 := by
        rw [nearestWord_mul _ _ (by positivity)]
        exact nearestWord_units 0
      rw [toWord_negSucc, Nat.zero_shiftLeft, Nat.pow_eq]
      simpa using fun _ => hnone

/-- A zero after the point changes nothing. -/
theorem toWord_mul_ten {digits zeros : Nat} (hzeros : zeros < overflowZeros) :
    toWord ⟨digits * 10 ^ zeros * 10, -1⟩ = toWord ⟨digits, .ofNat zeros⟩ := by
  by_cases hdigits : digits = 0
  · rw [hdigits, Nat.zero_mul, Nat.zero_mul, toWord_zero, toWord_zero]
  · have hshift : (digits * 10 ^ zeros * 10) <<< unitPlaces
        = (digits * 10 ^ zeros) <<< unitPlaces * 10 := by
      rw [Nat.shiftLeft_eq, Nat.shiftLeft_eq]
      ring
    have hten := nearestWord_mul ((digits * 10 ^ zeros) <<< unitPlaces) 1 (show 0 < 10 by decide)
    change toWord ⟨digits * 10 ^ zeros * 10, .negSucc 0⟩ = _
    rw [toWord_negSucc, if_neg (by simp [vanishingPlaces]), hshift, toWord_ofNat, if_neg hdigits,
      if_neg (by omega)]
    exact hten

end Decimal

namespace Json.Numeral

open Binary64 Decimal

/-- Writing a decimal out keeps its value. -/
theorem toWord_toDecimal_ofDecimal (negative : Bool) (d : Decimal) :
    (ofDecimal negative d).toDecimal.toWord = d.toWord := by
  obtain ⟨digits, exponent⟩ := d
  simp only [ofDecimal]
  split
  next hpositional =>
    cases exponent with
    -- a whole number is written with one zero behind the point
    | ofNat zeros =>
        have hzeros : zeros < overflowZeros := by
          have hleading : zeros + ((digitList digits).length - 1) < 16 :=
            of_decide_eq_true hpositional
          simp only [overflowZeros]
          omega
        simpa [positional, toDecimal, zeroDigit, ofDigits] using toWord_mul_ten hzeros
    | negSucc places =>
        have hfraction : (lastDigits (places + 1) digits).isEmpty = false := by
          rw [List.isEmpty_eq_false_iff, ← List.length_pos_iff, length_lastDigits]
          exact Nat.succ_pos places
        have hdigits : digits / 10 ^ (places + 1) * 10 ^ (places + 1) + digits % 10 ^ (places + 1)
            = digits := Nat.div_add_mod' digits _
        simp only [positional, hfraction, toDecimal, Bool.false_eq_true, if_false, length_lastDigits,
          ofDigits_lastDigits, Nat.pow_eq, hdigits, Option.getD_none]
        congr 2
  next =>
    split
    next hnil => exact absurd hnil (digitList_ne_nil digits)
    next first rest hdigits =>
      have hvalue : first.val * 10 ^ rest.length + ofDigits rest = digits := by
        rw [← ofDigits_cons, ← hdigits, ofDigits_digitList]
      simp only [toDecimal, Nat.pow_eq, hvalue, hdigits, Option.getD_some, List.length_cons]
      congr 2
      omega

@[simp] theorem negative_ofDecimal (negative : Bool) (d : Decimal) :
    (ofDecimal negative d).negative = negative := by
  simp only [ofDecimal]
  split
  · rfl
  · split <;> rfl

theorem toFloat?_of_toWord {n : Numeral} {x : Float} (hfinite : x.isFinite = true)
    (hword : n.toDecimal.toWord = (Binary64.ofFloat x).2) (hsign : n.negative = (Binary64.ofFloat x).1) :
    n.toFloat? = some x := by
  rw [toFloat?, hword, if_pos ((isFinite_iff x).1 hfinite), hsign, toFloat_ofFloat hfinite]

/-- A finite double is the value of its numeral. -/
theorem toFloat?_ofFloat? {x : Float} (hfinite : x.isFinite = true) :
    ∃ n, ofFloat? x = some n ∧ n.toFloat? = some x := by
  have hword := (isFinite_iff x).1 hfinite
  by_cases hzero : (Binary64.ofFloat x).2 = 0
  · refine ⟨⟨(Binary64.ofFloat x).1, 0, [zeroDigit], none⟩, by simp [ofFloat?, hzero], ?_⟩
    apply toFloat?_of_toWord hfinite _ rfl
    rw [hzero]
    exact toWord_zero (-1)
  · refine ⟨ofDecimal (Binary64.ofFloat x).1 (shortest .even (Binary64.ofFloat x).2), ?_, ?_⟩
    · simp only [ofFloat?, if_neg hzero, if_pos hword]
    · apply toFloat?_of_toWord hfinite _ (negative_ofDecimal _ _)
      rw [toWord_toDecimal_ofDecimal, toWord_shortest]

/-- What is not finite has no numeral. -/
theorem ofFloat?_eq_none {x : Float} (hinfinite : ¬ x.isFinite = true) : ofFloat? x = none := by
  rw [isFinite_iff] at hinfinite
  have hnonzero : (Binary64.ofFloat x).2 ≠ 0 := by
    intro hzero
    exact hinfinite (by rw [hzero]; decide)
  simp only [ofFloat?, if_neg hnonzero, if_neg hinfinite]

/-- Only finite doubles are read. -/
theorem isFinite_of_toFloat? {n : Numeral} {x : Float} (h : n.toFloat? = some x) :
    x.isFinite = true := by
  simp only [toFloat?] at h
  split at h
  next hword =>
    cases h
    exact isFinite_toFloat hword
  next => cases h

/-- Every size is a number that a double can come close to. -/
theorem isSome_toFloat?_ofNat {n : Nat} (hn : n < sizeBound) : (ofNat n).toFloat?.isSome = true := by
  have hword : (ofNat n).toDecimal.toWord < infinityWord := by
    have hdecimal : (ofNat n).toDecimal = ⟨n, .ofNat 0⟩ := by
      simp [ofNat, toDecimal, ofDigits]
    rw [hdecimal, toWord_ofNat]
    split
    · decide
    · rw [if_neg (by decide)]
      have hplaces : 64 + unitPlaces ≤ 2044 := by decide
      refine nearestWord_lt hplaces ?_
      rw [Nat.shiftLeft_eq, pow_add]
      apply Nat.mul_lt_mul_of_pos_right _ (Nat.two_pow_pos _)
      simpa [sizeBound] using hn
  simp only [toFloat?, if_pos hword, Option.isSome_some]

/-! ### Scanning what is written -/

/-- No number goes on with what is in front. -/
def Ends (rest : Bytes) : Prop :=
  ∀ b ∈ rest.head?, digit? b = none ∧ b ≠ 46 ∧ b ≠ 101 ∧ b ≠ 69

theorem digit?_digitByte (digit : Fin 10) : digit? (digitByte digit) = some digit := by
  revert digit
  decide

theorem scanDigits_append (digits : List (Fin 10)) {rest : Bytes}
    (hrest : ∀ b ∈ rest.head?, digit? b = none) :
    scanDigits (digits.map digitByte ++ rest) = (digits, rest) := by
  induction digits with
  | nil =>
      cases rest with
      | nil => rfl
      | cons b rest => simp [scanDigits, hrest b rfl]
  | cons first digits ih => simp [scanDigits, digit?_digitByte, ih]

theorem exists_digitBytes_eq_cons (n : Nat) :
    ∃ digit tail, digitBytes n = digitByte digit :: tail := by
  obtain ⟨first, digits, hdigits⟩ := List.exists_cons_of_ne_nil (digitList_ne_nil n)
  exact ⟨first, digits.map digitByte, by rw [digitBytes, hdigits, List.map_cons]⟩

theorem digitByte_ne_minus : ∀ digit : Fin 10, digitByte digit ≠ 45 := by decide

theorem digitByte_ne_zero : ∀ {digit : Fin 10}, digit ≠ 0 → digitByte digit ≠ 48 := by
  decide

theorem scanWhole_append (n : Nat) {rest : Bytes} (hrest : ∀ b ∈ rest.head?, digit? b = none) :
    scanWhole (digitBytes n ++ rest) = some (n, rest) := by
  rcases Nat.eq_zero_or_pos n with rfl | hn
  · rfl
  · have hscan := scanDigits_append (digitList n) hrest
    obtain ⟨first, digits, hdigits⟩ := List.exists_cons_of_ne_nil (digitList_ne_nil n)
    have hfirst := digitByte_ne_zero (head_digitList_ne_zero hn hdigits)
    have hempty : (digitList n).isEmpty = false := by simp [hdigits]
    rw [digitBytes]
    unfold scanWhole
    split
    -- a zero stands for itself alone, but the number is positive
    next heq =>
      rw [hdigits] at heq
      injection heq with hhead
      exact absurd hhead hfirst
    next => simp only [hscan, hempty, ofDigits_digitList, Bool.false_eq_true, if_false]

def renderFraction (fraction : List (Fin 10)) : Bytes :=
  if fraction.isEmpty then [] else ascii "." ++ fraction.map digitByte

def renderExponent : Option Int → Bytes
  | none => []
  | some (.ofNat e) => ascii "e+" ++ digitBytes e
  | some (.negSucc e) => ascii "e-" ++ digitBytes (e + 1)

theorem render_eq (n : Numeral) :
    n.render = (if n.negative then ascii "-" else [])
      ++ (digitBytes n.whole ++ (renderFraction n.fraction ++ renderExponent n.exponent)) := by
  obtain ⟨negative, whole, fraction, exponent⟩ := n
  simp only [render, renderFraction, List.append_assoc]
  rfl

theorem head_renderFraction (fraction : List (Fin 10)) {rest : Bytes}
    (hrest : ∀ b ∈ rest.head?, digit? b = none ∧ b ≠ 46) :
    ∀ b ∈ (renderFraction fraction ++ rest).head?, digit? b = none := by
  cases fraction with
  | nil => exact fun b hb => (hrest b hb).1
  | cons first digits =>
      rintro b ⟨⟩
      decide

theorem head_renderExponent (exponent : Option Int) {rest : Bytes} (hrest : Ends rest) :
    ∀ b ∈ (renderExponent exponent ++ rest).head?, digit? b = none ∧ b ≠ 46 := by
  match exponent with
  | none => exact fun b hb => ⟨(hrest b hb).1, (hrest b hb).2.1⟩
  | some (.ofNat e) =>
      rintro b ⟨⟩
      decide
  | some (.negSucc e) =>
      rintro b ⟨⟩
      decide

theorem scanFraction_append (fraction : List (Fin 10)) {rest : Bytes}
    (hrest : ∀ b ∈ rest.head?, digit? b = none ∧ b ≠ 46) :
    scanFraction (renderFraction fraction ++ rest) = some (fraction, rest) := by
  cases fraction with
  | nil =>
      change scanFraction rest = _
      unfold scanFraction
      split
      next => exact absurd rfl (hrest 46 rfl).2
      next => rfl
  | cons first digits =>
      have hscan := scanDigits_append (first :: digits) fun b hb => (hrest b hb).1
      have hpoint : ascii "." = [46] := rfl
      rw [List.map_cons, List.cons_append] at hscan
      simp [renderFraction, hpoint, scanFraction, hscan]

theorem scanExponent_append (exponent : Option Int) {rest : Bytes} (hrest : Ends rest) :
    scanExponent (renderExponent exponent ++ rest) = some (exponent, rest) := by
  have hdigits (n : Nat) : scanDigits (digitBytes n ++ rest) = (digitList n, rest) :=
    scanDigits_append (digitList n) fun b hb => (hrest b hb).1
  have hempty (n : Nat) : (digitList n).isEmpty = false := by simp [digitList_ne_nil]
  match exponent with
  | none =>
      cases rest with
      | nil => rfl
      | cons b rest =>
          obtain ⟨-, -, hlower, hupper⟩ := hrest b rfl
          simp [renderExponent, scanExponent, hlower, hupper]
  | some (.ofNat e) =>
      have hmark : ascii "e+" = [101, 43] := rfl
      simp [renderExponent, hmark, scanExponent, scanSign, hdigits, hempty, ofDigits_digitList]
  | some (.negSucc e) =>
      have hmark : ascii "e-" = [101, 45] := rfl
      simp [renderExponent, hmark, scanExponent, scanSign, hdigits, hempty, ofDigits_digitList]
      omega

/-- A number that is written is read again, up to where it ends. -/
theorem scan_render (n : Numeral) {rest : Bytes} (hrest : Ends rest) :
    scan (n.render ++ rest) = some (n, rest) := by
  obtain ⟨negative, whole, fraction, exponent⟩ := n
  have htail := head_renderExponent exponent hrest
  have hwhole := scanWhole_append whole (head_renderFraction fraction htail)
  have hfraction := scanFraction_append fraction htail
  have hexponent := scanExponent_append exponent hrest
  rw [render_eq]
  simp only [List.append_assoc]
  cases negative with
  | true =>
      have hsign : ascii "-" = [45] := rfl
      simp [hsign, scan, hwhole, hfraction, hexponent]
  | false =>
      obtain ⟨digit, tail, hdigits⟩ := exists_digitBytes_eq_cons whole
      rw [hdigits, List.cons_append] at hwhole
      simp [scan, hdigits, digitByte_ne_minus, hwhole, hfraction, hexponent]

/-- What a number may start with. -/
def starts : List UInt8 := 45 :: (List.finRange 10).map digitByte

theorem exists_render_eq_cons (n : Numeral) : ∃ b tail, n.render = b :: tail ∧ b ∈ starts := by
  obtain ⟨digit, tail, hdigits⟩ := exists_digitBytes_eq_cons n.whole
  rw [render_eq, hdigits]
  cases n.negative with
  | true => exact ⟨45, _, rfl, by simp [starts]⟩
  | false => exact ⟨digitByte digit, _, rfl, by simp [starts]⟩

end Json.Numeral

end RecedingHorizon
