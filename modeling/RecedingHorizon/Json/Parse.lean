import RecedingHorizon.Json.Basic

/-!
Reading JSON documents. The grammar is the strict one, with blanks between tokens and around the
document and nothing else after it.
-/

namespace RecedingHorizon.Json

def isBlank (b : UInt8) : Bool := b = 32 || b = 10 || b = 9 || b = 13

def skipBlanks (bytes : Bytes) : Bytes := bytes.dropWhile isBlank

/-- Reads a name and the colon after it. -/
def scanName (bytes : Bytes) : Option (Quoted × Bytes) :=
  match skipBlanks bytes with
  | 34 :: rest => do
    let (name, rest) ← Quoted.scan rest
    match skipBlanks rest with
    | 58 :: rest => some (name, rest)
    | _ => none
  | _ => none

mutual

/-- Reads a value. The first argument bounds the nesting and the number of items, and twice the
number of bytes is always enough. -/
def scanValue : Nat → Bytes → Option (Json × Bytes)
  | 0, _ => none
  | fuel + 1, bytes =>
    match skipBlanks bytes with
    | 110 :: 117 :: 108 :: 108 :: rest => some (.null, rest)
    | 116 :: 114 :: 117 :: 101 :: rest => some (.bool true, rest)
    | 102 :: 97 :: 108 :: 115 :: 101 :: rest => some (.bool false, rest)
    | 34 :: rest => do
      let (literal, rest) ← Quoted.scan rest
      pure (.string literal, rest)
    | 91 :: rest =>
      match skipBlanks rest with
      | 93 :: rest => some (.array [], rest)
      | _ => do
        let (item, rest) ← scanValue fuel rest
        let (items, rest) ← scanItems fuel rest
        pure (.array (item :: items), rest)
    | 123 :: rest =>
      match skipBlanks rest with
      | 125 :: rest => some (.object [], rest)
      | _ => do
        let (name, rest) ← scanName rest
        let (value, rest) ← scanValue fuel rest
        let (members, rest) ← scanMembers fuel rest
        pure (.object ((name, value) :: members), rest)
    | bytes => do
      let (literal, rest) ← Numeral.scan bytes
      pure (.number literal, rest)

/-- Reads the items after the first, and the closing bracket. -/
def scanItems : Nat → Bytes → Option (List Json × Bytes)
  | 0, _ => none
  | fuel + 1, bytes =>
    match skipBlanks bytes with
    | 93 :: rest => some ([], rest)
    | 44 :: rest => do
      let (item, rest) ← scanValue fuel rest
      let (items, rest) ← scanItems fuel rest
      pure (item :: items, rest)
    | _ => none

/-- Reads the members after the first, and the closing brace. -/
def scanMembers : Nat → Bytes → Option (List (Quoted × Json) × Bytes)
  | 0, _ => none
  | fuel + 1, bytes =>
    match skipBlanks bytes with
    | 125 :: rest => some ([], rest)
    | 44 :: rest => do
      let (name, rest) ← scanName rest
      let (value, rest) ← scanValue fuel rest
      let (members, rest) ← scanMembers fuel rest
      pure ((name, value) :: members, rest)
    | _ => none

end

/-- The document that the bytes hold, if they hold one. -/
def parse? (bytes : Bytes) : Option Json := do
  let (value, rest) ← scanValue (2 * bytes.length + 1) bytes
  if (skipBlanks rest).isEmpty then some value else none

end RecedingHorizon.Json
