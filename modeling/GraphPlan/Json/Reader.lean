import GraphPlan.Json.Basic

/-!
# Decoding JSON values

A `Reader` decodes one value. Its first argument is the number of arrays and objects that may still
be opened: a document nests at most `maxNesting` of them, and a value that nobody reads is not
counted. A record is read from an object, whose unknown fields are passed over and whose known
fields may stand once, or from an array of its fields in declaration order, of which the last ones
may be missing when they have defaults.
-/

namespace GraphPlan.Json

/-- The number of arrays and objects that may be open at once. -/
def maxNesting : Nat := 127

/-- Decodes a value that may open the given number of arrays and objects. -/
abbrev Reader (α : Type) := Nat → Json → Option α

/-- A field of a record: its value, or nothing when the field is missing. -/
abbrev Slot := Option Json

namespace Reader

/-- A text. -/
def text : Reader String := fun _ j => j.text?

/-- A truth value. -/
def bool : Reader Bool
  | _, .bool b => some b
  | _, _ => none

/-- An integer of 64 bits with sign. -/
def int64 : Reader Int64
  | _, .num n => do
    let i ← n.toInt?
    if Int64.minValue.toInt ≤ i ∧ i ≤ Int64.maxValue.toInt then return Int64.ofInt i else none
  | _, _ => none

/-- An integer of 64 bits without sign. -/
def uint64 : Reader UInt64
  | _, .num n => do
    let i ← n.toInt?
    if 0 ≤ i ∧ i < UInt64.size then return UInt64.ofNat i.toNat else none
  | _, _ => none

/-- A number, rounded to the nearest double. -/
def binary64 : Reader Binary64
  | _, .num n => n.toBinary64?
  | _, _ => none

/-- A value or `null`. -/
def nullable {α : Type} (r : Reader α) : Reader (Option α)
  | _, .null => some none
  | depth, j => (r depth j).map some

/-- A list. -/
def list {α : Type} (r : Reader α) : Reader (List α)
  | depth + 1, .arr items => items.mapM (r depth)
  | _, _ => none

/-- The entry of a table with the given name. -/
def named {α : Type} (table : List (String × α)) (raw : List Char) : Option α := do
  table.lookup (← (Json.str raw).text?)

/-- One of finitely many names. A name may also be the only field of an object, with the value
`null`. -/
def oneOf {α : Type} (table : List (String × α)) : Reader α
  | _, .str raw => named table raw
  | _, .obj [(raw, .null)] => named table raw
  | _, _ => none

/-- `oneOf`, where the field of the object may also hold an empty object. -/
def oneOfLenient {α : Type} (table : List (String × α)) : Reader α
  | _, .obj [(raw, .obj [])] => named table raw
  | depth, j => oneOf table depth j

end Reader

/-- The fields of an object with their names decoded. -/
def namedFields (fields : List (List Char × Json)) : Option (List (String × Json)) :=
  fields.mapM fun (raw, value) => (unescape? raw).map fun name => (String.ofList name, value)

/-- The value of the field `name`, which may stand at most once. -/
def slot (fields : List (String × Json)) (name : String) : Option Slot :=
  match fields.filter (fun field => field.1 == name) with
  | [] => some none
  | [(_, value)] => some (some value)
  | _ => none

/-- Fields given by position, filled up with missing ones; too many are refused. -/
def positionalSlots (items : List Json) (width : Nat) : Option (List Slot) :=
  if items.length ≤ width then
    some (items.map some ++ List.replicate (width - items.length) none)
  else
    none

/-- The fields of a record with the given names, in their order. -/
def slots (names : List String) : Json → Option (List Slot)
  | .arr items => positionalSlots items names.length
  | .obj fields => do
    let named ← namedFields fields
    names.mapM (slot named)
  | _ => none

/-- Reads a field that has to be present. -/
def required {α : Type} (r : Reader α) (depth : Nat) (s : Slot) : Option α :=
  s.bind (r depth)

/-- Reads a field that has a default. -/
def withDefault {α : Type} (default : α) (r : Reader α) (depth : Nat) : Slot → Option α
  | none => some default
  | some j => r depth j

mutual

/-- Whether a value opens at most `depth` arrays and objects, all its numbers are in the range of
doubles and all its strings have a text. -/
def readable : Nat → Json → Bool
  | _, .null => true
  | _, .bool _ => true
  | _, .num n => n.toBinary64?.isSome
  | _, .str raw => (unescape? raw).isSome
  | 0, .arr _ => false
  | 0, .obj _ => false
  | depth + 1, .arr items => readableItems depth items
  | depth + 1, .obj fields => readableFields depth fields

/-- `readable` for every item. -/
def readableItems : Nat → List Json → Bool
  | _, [] => true
  | depth, item :: items => readable depth item && readableItems depth items

/-- `readable` for every field. -/
def readableFields : Nat → List (List Char × Json) → Bool
  | _, [] => true
  | depth, (name, value) :: fields =>
    (unescape? name).isSome && readable depth value && readableFields depth fields

end

end GraphPlan.Json
