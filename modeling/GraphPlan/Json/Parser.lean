import GraphPlan.Json.Basic

/-!
# Reading JSON text

`Json.parse?` accepts exactly one document with blanks around it. The grammar is strict: no trailing
commas, no comments, no leading zeros, no bare control characters in strings. The recursive part
takes a bound on the number of nested calls; twice the length of the text is always enough, since at
least one character is consumed between two calls of the same function.
-/

namespace GraphPlan.Json

/-- The four blanks that may stand between tokens. -/
def isBlank (c : Char) : Bool :=
  c == ' ' || c == '\n' || c == '\t' || c == '\r'

/-- The text after its leading blanks. -/
def skipBlank (cs : List Char) : List Char :=
  cs.dropWhile isBlank

/-- Splits off the leading decimal digits. -/
def spanDigits (cs : List Char) : List Char × List Char :=
  cs.span Char.isDigit

/-- The digits after a point, at least one. -/
def parseFraction : List Char → Option (List Char × List Char)
  | '.' :: cs =>
    let (digits, rest) := spanDigits cs
    if digits.isEmpty then none else some (digits, rest)
  | cs => some ([], cs)

/-- The digits of an exponent, at least one. -/
def parseExponentDigits (negative : Bool) (cs : List Char) : Option (Option Int × List Char) :=
  let (digits, rest) := spanDigits cs
  if digits.isEmpty then
    none
  else
    let value : Int := digitsValue digits
    some (some (if negative then -value else value), rest)

/-- An exponent, if one stands here. -/
def parseExponent : List Char → Option (Option Int × List Char)
  | 'e' :: '-' :: cs | 'E' :: '-' :: cs => parseExponentDigits true cs
  | 'e' :: '+' :: cs | 'E' :: '+' :: cs => parseExponentDigits false cs
  | 'e' :: cs | 'E' :: cs => parseExponentDigits false cs
  | cs => some (none, cs)

/-- A number without its sign. A leading zero is the whole integer part. -/
def parseMagnitude (negative : Bool) (cs : List Char) : Option (Numeral × List Char) := do
  let (whole, rest) := spanDigits cs
  match whole with
  | [] => none
  | '0' :: _ :: _ => none
  | _ =>
    let (fraction, rest) ← parseFraction rest
    let (exponent, rest) ← parseExponent rest
    return (⟨negative, whole, fraction, exponent⟩, rest)

/-- A number. -/
def parseNumber : List Char → Option (Numeral × List Char)
  | '-' :: cs => parseMagnitude true cs
  | cs => parseMagnitude false cs

/-- Puts characters in front of the string that was read. -/
def prepend (front : List Char) (r : Option (List Char × List Char)) :
    Option (List Char × List Char) :=
  r.map fun (raw, rest) => (front ++ raw, rest)

/-- The rest of a string after its opening quote, with the spelling of its content. Escapes are
checked for their shape only. -/
def scanString : List Char → Option (List Char × List Char)
  | [] => none
  | '"' :: rest => some ([], rest)
  | '\\' :: 'u' :: a :: b :: c :: d :: rest =>
    if (hex4? a b c d).isSome then prepend ['\\', 'u', a, b, c, d] (scanString rest) else none
  | '\\' :: c :: rest =>
    if (simpleEscape? c).isSome then prepend ['\\', c] (scanString rest) else none
  | c :: rest => if c.toNat < 0x20 then none else prepend [c] (scanString rest)
termination_by structural cs => cs

mutual

/-- One value with the text after it. -/
def parseValue : Nat → List Char → Option (Json × List Char)
  | 0, _ => none
  | fuel + 1, cs =>
    match skipBlank cs with
    | 'n' :: 'u' :: 'l' :: 'l' :: rest => some (.null, rest)
    | 't' :: 'r' :: 'u' :: 'e' :: rest => some (.bool true, rest)
    | 'f' :: 'a' :: 'l' :: 's' :: 'e' :: rest => some (.bool false, rest)
    | '"' :: rest => (scanString rest).map fun (raw, rest) => (.str raw, rest)
    | '[' :: rest =>
      match skipBlank rest with
      | ']' :: rest => some (.arr [], rest)
      | rest => (parseItems fuel rest).map fun (items, rest) => (.arr items, rest)
    | '\x7b' :: rest =>
      match skipBlank rest with
      | '\x7d' :: rest => some (.obj [], rest)
      | rest => (parseFields fuel rest).map fun (fields, rest) => (.obj fields, rest)
    | rest => (parseNumber rest).map fun (n, rest) => (.num n, rest)

/-- The items of an array up to and including its closing bracket; at least one. -/
def parseItems : Nat → List Char → Option (List Json × List Char)
  | 0, _ => none
  | fuel + 1, cs => do
    let (item, rest) ← parseValue fuel cs
    match skipBlank rest with
    | ',' :: rest =>
      let (items, rest) ← parseItems fuel rest
      return (item :: items, rest)
    | ']' :: rest => return ([item], rest)
    | _ => none

/-- The fields of an object up to and including its closing brace; at least one. -/
def parseFields : Nat → List Char → Option (List (List Char × Json) × List Char)
  | 0, _ => none
  | fuel + 1, cs =>
    match skipBlank cs with
    | '"' :: rest => do
      let (name, rest) ← scanString rest
      match skipBlank rest with
      | ':' :: rest =>
        let (value, rest) ← parseValue fuel rest
        match skipBlank rest with
        | ',' :: rest =>
          let (fields, rest) ← parseFields fuel rest
          return ((name, value) :: fields, rest)
        | '\x7d' :: rest => return ([(name, value)], rest)
        | _ => none
      | _ => none
    | _ => none

end

/-- The document that a text spells, if it spells exactly one. -/
def parse? (text : String) : Option Json := do
  let cs := text.toList
  let (value, rest) ← parseValue (2 * cs.length + 2) cs
  if (skipBlank rest).isEmpty then return value else none

end GraphPlan.Json
