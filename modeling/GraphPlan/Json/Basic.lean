import GraphPlan.Decimal.Numeral

/-!
# JSON documents as written

A document is kept the way it is spelled: numbers are numerals that nobody has evaluated, strings
still hold their escapes, and an object is the list of its fields in order, repeated names included.
Whoever looks at a value decides what it means, so a value that nobody looks at may be out of range.
`escape` and `unescape?` lead from characters to the spelling of a string and back.
-/

namespace GraphPlan

/-- A JSON document. -/
inductive Json where
  /-- The word `null`. -/
  | null
  /-- The word `true` or `false`. -/
  | bool (value : Bool)
  /-- A number as written. -/
  | num (value : Numeral)
  /-- The characters between the quotes, escapes included. -/
  | str (raw : List Char)
  /-- The items of an array. -/
  | arr (items : List Json)
  /-- The fields of an object in the order in which they stand. -/
  | obj (fields : List (List Char × Json))
deriving Inhabited

namespace Json

/-- The hexadecimal digit of a number below sixteen, in lower case. -/
def hexDigit (n : Nat) : Char :=
  Nat.digitChar n

/-- The value of a hexadecimal digit. -/
def hexValue? (c : Char) : Option Nat :=
  if '0' ≤ c ∧ c ≤ '9' then some (c.toNat - '0'.toNat)
  else if 'a' ≤ c ∧ c ≤ 'f' then some (c.toNat - 'a'.toNat + 10)
  else if 'A' ≤ c ∧ c ≤ 'F' then some (c.toNat - 'A'.toNat + 10)
  else none

/-- The number that four hexadecimal digits denote. -/
def hex4? (a b c d : Char) : Option Nat := do
  return (((← hexValue? a) * 16 + (← hexValue? b)) * 16 + (← hexValue? c)) * 16 + (← hexValue? d)

/-- The spelling of one character inside a string: quotes, backslashes and control characters are
escaped, all else stands for itself. -/
def escapeChar (c : Char) : List Char :=
  if c = '"' then ['\\', '"']
  else if c = '\\' then ['\\', '\\']
  else if c = '\x08' then ['\\', 'b']
  else if c = '\x0c' then ['\\', 'f']
  else if c = '\n' then ['\\', 'n']
  else if c = '\r' then ['\\', 'r']
  else if c = '\t' then ['\\', 't']
  else if c.toNat < 0x20 then
    ['\\', 'u', '0', '0', hexDigit (c.toNat / 16), hexDigit (c.toNat % 16)]
  else [c]

/-- The spelling of a text between quotes. -/
def escape (text : List Char) : List Char :=
  text.flatMap escapeChar

/-- The character behind a one-letter escape. -/
def simpleEscape? (c : Char) : Option Char :=
  if c = '"' then some '"'
  else if c = '\\' then some '\\'
  else if c = '/' then some '/'
  else if c = 'b' then some '\x08'
  else if c = 'f' then some '\x0c'
  else if c = 'n' then some '\n'
  else if c = 'r' then some '\r'
  else if c = 't' then some '\t'
  else none

/-- The first half of a surrogate pair. -/
def isHighSurrogate (u : Nat) : Bool :=
  0xD800 ≤ u && u < 0xDC00

/-- The second half of a surrogate pair. -/
def isLowSurrogate (u : Nat) : Bool :=
  0xDC00 ≤ u && u < 0xE000

/-- The character of a surrogate pair. -/
def pairChar (high low : Nat) : Char :=
  Char.ofNat (0x10000 + (high - 0xD800) * 0x400 + (low - 0xDC00))

/-- The text that a spelling denotes. A surrogate escape needs its other half beside it. -/
def unescape? : List Char → Option (List Char)
  | [] => some []
  | '\\' :: 'u' :: a :: b :: c :: d :: rest =>
    match hex4? a b c d with
    | none => none
    | some u =>
      if isHighSurrogate u then
        match rest with
        | '\\' :: 'u' :: e :: f :: g :: h :: rest' =>
          match hex4? e f g h with
          | none => none
          | some w =>
            if isLowSurrogate w then (unescape? rest').map (pairChar u w :: ·) else none
        | _ => none
      else if isLowSurrogate u then
        none
      else
        (unescape? rest).map (Char.ofNat u :: ·)
  | '\\' :: c :: rest =>
    match simpleEscape? c with
    | none => none
    | some plain => (unescape? rest).map (plain :: ·)
  | c :: rest => (unescape? rest).map (c :: ·)
termination_by structural raw => raw

/-- A character other than a backslash stands for itself. -/
theorem unescape?_cons {c : Char} (h : c ≠ '\\') (rest : List Char) :
    unescape? (c :: rest) = (unescape? rest).map (c :: ·) := by
  rw [unescape?] <;> simp [h]

/-- The spelling of a character is read as the character. -/
theorem unescape?_escapeChar (c : Char) (rest : List Char) :
    unescape? (escapeChar c ++ rest) = (unescape? rest).map (c :: ·) := by
  unfold escapeChar
  split
  · next h => simp [unescape?, simpleEscape?, h]
  split
  · next h => simp [unescape?, simpleEscape?, h]
  split
  · next h => simp [unescape?, simpleEscape?, h]
  split
  · next h => simp [unescape?, simpleEscape?, h]
  split
  · next h => simp [unescape?, simpleEscape?, h]
  split
  · next h => simp [unescape?, simpleEscape?, h]
  split
  · next h => simp [unescape?, simpleEscape?, h]
  split
  · next h =>
    have digits : ∀ n < 0x20, hex4? '0' '0' (hexDigit (n / 16)) (hexDigit (n % 16)) = some n := by
      decide
    have plain : ¬ isHighSurrogate c.toNat ∧ ¬ isLowSurrogate c.toNat := by
      simp [isHighSurrogate, isLowSurrogate]
      omega
    simp [unescape?, digits c.toNat h, plain.1, plain.2]
  · exact unescape?_cons ‹_› rest

/-- The spelling of a text denotes the text. -/
theorem unescape?_escape (text : List Char) : unescape? (escape text) = some text := by
  induction text with
  | nil => rfl
  | cons c text ih =>
    rw [escape, List.flatMap_cons, unescape?_escapeChar, ← escape, ih]
    rfl

/-- A string value. -/
def ofString (s : String) : Json :=
  .str (escape s.toList)

/-- An integer value. -/
def ofInt (i : Int) : Json :=
  .num (Numeral.ofInt i)

/-- An integer value that is not negative. -/
def ofNat (n : Nat) : Json :=
  ofInt n

/-- A finite double as a number; the others have no numeral and become `null`. -/
def ofBinary64 (v : Binary64) : Json :=
  if v.isFinite then .num (Layout.json.numeral v) else .null

/-- An object from plain field names. -/
def ofFields (fields : List (String × Json)) : Json :=
  .obj (fields.map fun (name, value) => (escape name.toList, value))

/-- The value or `null`. -/
def ofOption {α : Type} (f : α → Json) : Option α → Json
  | none => .null
  | some a => f a

/-- The text of a string value. -/
def text? : Json → Option String
  | .str raw => (unescape? raw).map String.ofList
  | _ => none

/-- A string value has its text. -/
@[simp]
theorem text?_ofString (s : String) : (ofString s).text? = some s := by
  simp [text?, ofString, unescape?_escape]

end Json

end GraphPlan
