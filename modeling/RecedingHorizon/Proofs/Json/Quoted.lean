import Mathlib
import RecedingHorizon.Json.Quoted

/-!
Strings read back. What `encode` writes is scanned up to the closing quote and decodes to the
string; both go byte by byte, along the three ways in which a byte is written.
-/

namespace RecedingHorizon.Json.Quoted

theorem hexValue?_hexDigit : ∀ n < 16, hexValue? (hexDigit n) = some n := by decide

/-- A byte is written as a short escape, as a code unit or as it is. -/
theorem encodeByte_cases (b : UInt8) :
    (∃ letter, encodeByte b = [92, letter] ∧ letter ≠ 117 ∧
      readEscapes.find? (fun escape => escape.1 = letter) = some (letter, b)) ∨
    (∃ high low, encodeByte b = [92, 117, 48, 48, high, low] ∧
      codeUnit? 48 48 high low = some b.toNat ∧ b.toNat < 32) ∨
    (encodeByte b = [b] ∧ b ≠ 92 ∧ b ≠ 34 ∧ ¬ b < 32) := by
  cases hshort : shortEscapes.find? fun escape => escape.2 = b with
  | some escape =>
      have hmem := List.mem_of_find?_eq_some hshort
      have hb : escape.2 = b := by simpa using List.find?_some hshort
      subst hb
      left
      simp only [shortEscapes, List.mem_cons, List.not_mem_nil, or_false] at hmem
      rcases hmem with rfl | rfl | rfl | rfl | rfl | rfl | rfl
      all_goals exact ⟨_, rfl, by decide, by decide⟩
  | none =>
      right
      by_cases hcontrol : b < 32
      · left
        have hb : b.toNat < 32 := hcontrol
        refine ⟨hexDigit (b.toNat / 16), hexDigit (b.toNat % 16), ?_, ?_, hb⟩
        · have hmark : ascii "\\u00" = [92, 117, 48, 48] := rfl
          simp [encodeByte, hshort, hcontrol, hmark]
        · have hzero : hexValue? 48 = some 0 := rfl
          simp only [codeUnit?, hzero, hexValue?_hexDigit _ (show b.toNat / 16 < 16 by omega),
            hexValue?_hexDigit _ (show b.toNat % 16 < 16 by omega), Option.bind_eq_bind,
            Option.bind_some, Option.pure_def]
          congr 1
          omega
      · right
        refine ⟨by simp [encodeByte, hshort, hcontrol], ?_, ?_, hcontrol⟩
        all_goals
          rintro rfl
          simp [shortEscapes] at hshort

theorem utf8_of_lt {n : Nat} (hn : n < 128) : utf8 n = [n.toUInt8] := by
  have hvalid : n.isValidChar := .inl (by omega)
  have hval : (Char.ofNat n).val.toNat = n := by
    change (Char.ofNat n).toNat = n
    rw [Char.toNat_ofNat, if_pos hvalid]
  simp [utf8, String.utf8EncodeChar, hval, show n ≤ 127 by omega]

/-- The bytes of an array from a place on, as its loop collects them. -/
theorem toList_loop (bytes : ByteArray) (i : Nat) (read : List UInt8) :
    ByteArray.toList.loop bytes i read = read.reverse ++ bytes.data.toList.drop i := by
  fun_induction ByteArray.toList.loop bytes i read with
  | case1 i read hi ih =>
      have hget : bytes.get! i = bytes.data.toList[i] := getElem!_pos bytes.data i hi
      rw [ih, List.reverse_cons, List.append_assoc, hget, List.singleton_append, List.cons_getElem_drop_succ]
  | case2 i read hi =>
      rw [List.drop_eq_nil_of_le, List.append_nil]
      simpa using hi

theorem toByteArray_toList (bytes : ByteArray) : bytes.toList.toByteArray = bytes := by
  ext1
  rw [ByteArray.toList, toList_loop]
  simp

theorem unescape_encodeByte_append (b : UInt8) (q : Quoted) :
    unescape (encodeByte b ++ q) = (unescape q).map (b :: ·) := by
  rcases encodeByte_cases b with
    ⟨letter, hb, hletter, hfind⟩ | ⟨high, low, hb, hunit, hsmall⟩ | ⟨hb, hbackslash, -, -⟩
  · simp [hb, unescape, hletter, hfind]
  · have hutf8 : utf8 b.toNat = [b] := by simp [utf8_of_lt (show b.toNat < 128 by omega)]
    simp [hb, unescape, hunit, hutf8]
    omega
  · simp [hb, unescape, backslash, hbackslash]

theorem scan_encodeByte_append (b : UInt8) (q : Quoted) :
    scan (encodeByte b ++ q) = (scan q).map fun (read, rest) => (encodeByte b ++ read, rest) := by
  rcases encodeByte_cases b with
    ⟨letter, hb, hletter, hfind⟩ | ⟨high, low, hb, hunit, -⟩ | ⟨hb, hbackslash, hquote, hcontrol⟩
  · simp [hb, scan, hletter, hfind]
    cases scan q <;> rfl
  · simp [hb, scan, hunit]
    cases scan q <;> rfl
  · simp [hb, scan, backslash, quote, hbackslash, hquote, hcontrol]
    cases scan q <;> rfl

theorem unescape_encode (bytes : Bytes) : unescape (bytes.flatMap encodeByte) = some bytes := by
  induction bytes with
  | nil => rfl
  | cons b bytes ih => rw [List.flatMap_cons, unescape_encodeByte_append, ih, Option.map_some]

/-- A string that is written reads as itself. -/
theorem decode?_encode (text : String) : decode? (encode text) = some text := by
  simp [decode?, encode, unescape_encode, toByteArray_toList, String.fromUTF8?,
    text.isValidUTF8, String.fromUTF8]

/-- A string that is written is scanned up to its closing quote. -/
theorem scan_encode (text : String) (rest : Bytes) :
    scan (encode text ++ quote :: rest) = some (encode text, rest) := by
  have hscan (bytes : Bytes) : scan (bytes.flatMap encodeByte ++ quote :: rest)
      = some (bytes.flatMap encodeByte, rest) := by
    induction bytes with
    | nil => simp [scan, quote]
    | cons b bytes ih =>
        rw [List.flatMap_cons, List.append_assoc, scan_encodeByte_append, ih, Option.map_some]
  exact hscan text.toByteArray.toList

end RecedingHorizon.Json.Quoted
