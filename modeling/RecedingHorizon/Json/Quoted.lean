/-!
JSON text is a list of bytes, and a quoted string is kept as the bytes between its quotes, the way
they are written. `encode` writes a string and `decode?` reads one. Scanning a string checks its
shape only: what nobody reads may hold bytes that are no text.
-/

namespace RecedingHorizon

abbrev Bytes := List UInt8

/-- The bytes of text that has ASCII characters only. -/
def ascii (text : String) : Bytes := text.toList.map fun c => c.toNat.toUInt8

namespace Json

/-- The bytes between the quotes of a string. -/
abbrev Quoted := Bytes

namespace Quoted

def quote : UInt8 := 34

def backslash : UInt8 := 92

/-- Escapes of one character, with the byte that each stands for. -/
def shortEscapes : List (UInt8 × UInt8) :=
  [(34, 34), (92, 92), (98, 8), (116, 9), (110, 10), (102, 12), (114, 13)]

/-- Escapes that are read; a slash is written as it is. -/
def readEscapes : List (UInt8 × UInt8) := (47, 47) :: shortEscapes

def hexDigit (n : Nat) : UInt8 := (if n < 10 then 48 + n else 87 + n).toUInt8

def hexValue? (b : UInt8) : Option Nat :=
  let n := b.toNat
  if 48 ≤ n ∧ n ≤ 57 then some (n - 48)
  else if 97 ≤ n ∧ n ≤ 102 then some (n - 87)
  else if 65 ≤ n ∧ n ≤ 70 then some (n - 55)
  else none

/-- The code unit written with four hexadecimal digits. -/
def codeUnit? (a b c d : UInt8) : Option Nat := do
  let a ← hexValue? a
  let b ← hexValue? b
  let c ← hexValue? c
  let d ← hexValue? d
  pure (((a * 16 + b) * 16 + c) * 16 + d)

/-- A quote, a backslash and the control characters are escaped; all else stands for itself. -/
def encodeByte (b : UInt8) : Quoted :=
  match shortEscapes.find? fun escape => escape.2 = b with
  | some escape => [backslash, escape.1]
  | none =>
    if b < 32 then
      ascii "\\u00" ++ [hexDigit (b.toNat / 16), hexDigit (b.toNat % 16)]
    else [b]

def encode (text : String) : Quoted := text.toByteArray.toList.flatMap encodeByte

def utf8 (codePoint : Nat) : Bytes := String.utf8EncodeChar (Char.ofNat codePoint)

/-- Replaces every escape by the bytes it stands for. Code units beyond the basic plane come in
pairs, and half a pair stands for nothing. -/
def unescape : Quoted → Option Bytes
  | [] => some []
  | 92 :: 117 :: a :: b :: c :: d :: rest => do
    let unit ← codeUnit? a b c d
    if unit < 0xD800 ∨ 0xE000 ≤ unit then
      (unescape rest).map (utf8 unit ++ ·)
    else if 0xDC00 ≤ unit then none
    else match rest with
      | 92 :: 117 :: a :: b :: c :: d :: rest => do
        let low ← codeUnit? a b c d
        if 0xDC00 ≤ low ∧ low < 0xE000 then
          (unescape rest).map (utf8 (0x10000 + (unit - 0xD800) * 1024 + (low - 0xDC00)) ++ ·)
        else none
      | _ => none
  | 92 :: letter :: rest => do
    let (_, meaning) ← readEscapes.find? fun escape => escape.1 = letter
    (unescape rest).map (meaning :: ·)
  | b :: rest => if b = backslash then none else (unescape rest).map (b :: ·)

/-- The string with the given bytes between its quotes, if they are text. -/
def decode? (q : Quoted) : Option String := do
  let bytes ← unescape q
  String.fromUTF8? bytes.toByteArray

/-- Reads up to the closing quote, which is left out of both results. -/
def scan : Bytes → Option (Quoted × Bytes)
  | [] => none
  | 92 :: 117 :: a :: b :: c :: d :: rest => do
    let _ ← codeUnit? a b c d
    let (q, rest) ← scan rest
    pure (92 :: 117 :: a :: b :: c :: d :: q, rest)
  | 92 :: letter :: rest => do
    let _ ← readEscapes.find? fun escape => escape.1 = letter
    let (q, rest) ← scan rest
    pure (92 :: letter :: q, rest)
  | b :: rest =>
    if b = quote then some ([], rest)
    else if b = backslash ∨ b < 32 then none
    else do
      let (q, rest) ← scan rest
      pure (b :: q, rest)

end Quoted

end Json

end RecedingHorizon
