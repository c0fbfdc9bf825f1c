import GraphPlan.Json.Basic

/-!
# Writing JSON text

Two layouts: `compact` has no blanks at all, `pretty` puts every item and field on a line of its
own, indented by two spaces per level, with empty arrays and objects closed on the spot.
-/

namespace GraphPlan.Json

/-- A string between its quotes. -/
def quoted (raw : List Char) : String :=
  "\"" ++ String.ofList raw ++ "\""

/-- The words for truth values. -/
def boolText (b : Bool) : String :=
  if b then "true" else "false"

mutual

/-- The text of a document without blanks. -/
def compact : Json → String
  | null => "null"
  | bool b => boolText b
  | num n => n.text true
  | str raw => quoted raw
  | arr items => "[" ++ compactItems items ++ "]"
  | obj fields => "\x7b" ++ compactFields fields ++ "\x7d"

/-- The items of an array, divided by commas. -/
def compactItems : List Json → String
  | [] => ""
  | [item] => compact item
  | item :: items => compact item ++ "," ++ compactItems items

/-- The fields of an object, divided by commas. -/
def compactFields : List (List Char × Json) → String
  | [] => ""
  | [(name, value)] => quoted name ++ ":" ++ compact value
  | (name, value) :: fields => quoted name ++ ":" ++ compact value ++ "," ++ compactFields fields

end

/-- A line break followed by the blanks of an indentation level. -/
def newline (level : Nat) : String :=
  "\n" ++ String.ofList (List.replicate (2 * level) ' ')

mutual

/-- The text of a document over several lines, inside `level` arrays and objects. -/
def pretty (level : Nat) : Json → String
  | null => "null"
  | bool b => boolText b
  | num n => n.text true
  | str raw => quoted raw
  | arr [] => "[]"
  | arr (item :: items) =>
    "[" ++ newline (level + 1) ++ pretty (level + 1) item ++ prettyItems (level + 1) items ++
      newline level ++ "]"
  | obj [] => "\x7b\x7d"
  | obj ((name, value) :: fields) =>
    "\x7b" ++ newline (level + 1) ++ quoted name ++ ": " ++ pretty (level + 1) value ++
      prettyFields (level + 1) fields ++ newline level ++ "\x7d"

/-- The items after the first. -/
def prettyItems (level : Nat) : List Json → String
  | [] => ""
  | item :: items => "," ++ newline level ++ pretty level item ++ prettyItems level items

/-- The fields after the first. -/
def prettyFields (level : Nat) : List (List Char × Json) → String
  | [] => ""
  | (name, value) :: fields =>
    "," ++ newline level ++ quoted name ++ ": " ++ pretty level value ++ prettyFields level fields

end

end GraphPlan.Json
