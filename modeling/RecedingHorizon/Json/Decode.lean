import RecedingHorizon.Json.Basic

/-!
Reading values out of JSON documents. A record is an object with its fields in any order, or the
list of its fields in their own order; an object may have further members, but no field twice.
-/

namespace RecedingHorizon.Json

def toSize? : Json → Option Nat
  | .number literal => literal.toSize?
  | _ => none

def toFloat? : Json → Option Float
  | .number literal => literal.toFloat?
  | _ => none

def toString? : Json → Option String
  | .string literal => Quoted.decode? literal
  | _ => none

def toList? {β : Type} (f : Json → Option β) : Json → Option (List β)
  | .array items => items.mapM f
  | _ => none

def isNull : Json → Bool
  | .null => true
  | _ => false

/-- The members under their names as text. -/
def decodeNames (members : List (Quoted × Json)) : Option (List (String × Json)) :=
  members.mapM fun (name, value) => (Quoted.decode? name).map fun name => (name, value)

/-- The value of a field, `some none` if it is not there, and `none` if it is there twice. -/
def field? (members : List (String × Json)) (name : String) : Option (Option Json) :=
  match members.filter fun member => member.1 = name with
  | [] => some none
  | [member] => some (some member.2)
  | _ => none

/-- The fields of a record, in the order of `names`. -/
def fields? (names : List String) : Json → Option (List (Option Json))
  | .object members => do
    let members ← decodeNames members
    names.mapM (field? members)
  | .array items => if items.length = names.length then some (items.map some) else none
  | _ => none

def required {β : Type} (f : Json → Option β) (value : Option Json) : Option β := value.bind f

/-- A field that may be missing or null. -/
def optional {β : Type} (f : Json → Option β) : Option Json → Option (Option β)
  | none | some .null => some none
  | some value => (f value).map some

/-- The choice that a document names: its name as a string, or as the only member of an object
with the value null. -/
def choice? {β : Type} (choices : List (String × β)) (j : Json) : Option β := do
  let name ← match j with
    | .object [(name, .null)] => Quoted.decode? name
    | j => j.toString?
  choices.lookup name

mutual

/-- Everything in a value can be read: its strings are text, its numbers are doubles, and at
most `depth` brackets are open at once. -/
def isReadable : Nat → Json → Bool
  | _, .null => true
  | _, .bool _ => true
  | _, .number literal => literal.toFloat?.isSome
  | _, .string literal => (Quoted.decode? literal).isSome
  | 0, .array _ => false
  | depth + 1, .array items => areReadable depth items
  | 0, .object _ => false
  | depth + 1, .object members => areReadableMembers depth members

def areReadable : Nat → List Json → Bool
  | _, [] => true
  | depth, item :: items => isReadable depth item && areReadable depth items

def areReadableMembers : Nat → List (Quoted × Json) → Bool
  | _, [] => true
  | depth, (name, value) :: members =>
    (Quoted.decode? name).isSome && isReadable depth value && areReadableMembers depth members

end

end RecedingHorizon.Json
