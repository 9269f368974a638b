import RecedingHorizon.Json.Numeral

/-!
JSON documents and how they are written. Numbers and strings are kept the way they are written, and
the members of an object in the order they are written, with every repetition. A document is written
either without any blanks or with one item per line, indented by two spaces for every level.
-/

namespace RecedingHorizon

inductive Json where
  | null
  | bool (value : Bool)
  | number (literal : Json.Numeral)
  | string (literal : Json.Quoted)
  | array (items : List Json)
  | object (members : List (Json.Quoted × Json))

namespace Json

def ofNat (n : Nat) : Json := .number (.ofNat n)

def ofString (text : String) : Json := .string (Quoted.encode text)

/-- A double, or null in place of what is no number. -/
def ofFloat (x : Float) : Json :=
  match Numeral.ofFloat? x with
  | some numeral => .number numeral
  | none => .null

def ofList {β : Type} (f : β → Json) (items : List β) : Json := .array (items.map f)

def ofOption {β : Type} (f : β → Json) : Option β → Json
  | some value => f value
  | none => .null

/-- An object with the given members. -/
def record (members : List (String × Json)) : Json :=
  .object (members.map fun (name, value) => (Quoted.encode name, value))

/-! ### Writing -/

inductive Layout where
  | compact
  | indented
  deriving DecidableEq

/-- What stands before an item at the given depth. -/
def Layout.newline : Layout → Nat → Bytes
  | .compact, _ => []
  | .indented, depth => 10 :: List.replicate (2 * depth) 32

/-- What stands between a name and its value. -/
def Layout.colon : Layout → Bytes
  | .compact => ascii ":"
  | .indented => ascii ": "

def renderQuoted (q : Quoted) : Bytes := Quoted.quote :: q ++ [Quoted.quote]

mutual

def renderAt (layout : Layout) (depth : Nat) : Json → Bytes
  | .null => ascii "null"
  | .bool true => ascii "true"
  | .bool false => ascii "false"
  | .number literal => literal.render
  | .string literal => renderQuoted literal
  | .array [] => ascii "[]"
  | .array (item :: items) =>
    ascii "[" ++ layout.newline (depth + 1) ++ renderAt layout (depth + 1) item
      ++ renderItems layout depth items
  | .object [] => ascii "\x7b\x7d"
  | .object ((name, value) :: members) =>
    ascii "\x7b" ++ layout.newline (depth + 1) ++ renderQuoted name ++ layout.colon
      ++ renderAt layout (depth + 1) value ++ renderMembers layout depth members

/-- The items after the first, and the closing bracket. -/
def renderItems (layout : Layout) (depth : Nat) : List Json → Bytes
  | [] => layout.newline depth ++ ascii "]"
  | item :: items =>
    ascii "," ++ layout.newline (depth + 1) ++ renderAt layout (depth + 1) item
      ++ renderItems layout depth items

/-- The members after the first, and the closing brace. -/
def renderMembers (layout : Layout) (depth : Nat) : List (Quoted × Json) → Bytes
  | [] => layout.newline depth ++ ascii "\x7d"
  | (name, value) :: members =>
    ascii "," ++ layout.newline (depth + 1) ++ renderQuoted name ++ layout.colon
      ++ renderAt layout (depth + 1) value ++ renderMembers layout depth members

end

def render (layout : Layout) (j : Json) : Bytes := renderAt layout 0 j

end Json

end RecedingHorizon
