import GraphPlan.Json.Basic

/-!
# TOML strings

Strings have four forms: between double quotes with escapes, between single quotes without, and
either of them over several lines between three quotes. The readers below start after the opening
quotes and give the text with what follows the closing quotes. Line breaks of two characters count
as one.
-/

namespace GraphPlan.Toml

/-- Blanks within a line. -/
def isBlank (c : Char) : Bool :=
  c == ' ' || c == '\t'

/-- The text after its leading blanks. -/
def skipBlank (cs : List Char) : List Char :=
  cs.dropWhile isBlank

/-- The text after a line break, if it starts with one. -/
def afterNewline? : List Char → Option (List Char)
  | '\n' :: cs => some cs
  | '\r' :: '\n' :: cs => some cs
  | _ => none

/-- Characters that may stand in comments and strings: no control characters but the tab. -/
def isPlain (c : Char) : Bool :=
  c == '\t' || (0x20 ≤ c.toNat && c.toNat != 0x7f)

/-- The character with a given code point, which must not be a surrogate. -/
def scalar? (n : Nat) : Option Char :=
  if n < 0xD800 ∨ (0xE000 ≤ n ∧ n < 0x110000) then some (Char.ofNat n) else none

/-- The character behind a one-letter escape. -/
def simpleEscape? (c : Char) : Option Char :=
  if c = 'b' then some '\x08'
  else if c = 't' then some '\t'
  else if c = 'n' then some '\n'
  else if c = 'f' then some '\x0c'
  else if c = 'r' then some '\r'
  else if c = '"' then some '"'
  else if c = '\\' then some '\\'
  else none

/-- An escape after its backslash. -/
def readEscape : List Char → Option (Char × List Char)
  | 'u' :: a :: b :: c :: d :: rest => do
    return (← scalar? (← Json.hex4? a b c d), rest)
  | 'U' :: a :: b :: c :: d :: e :: f :: g :: h :: rest => do
    return (← scalar? ((← Json.hex4? a b c d) * 65536 + (← Json.hex4? e f g h)), rest)
  | c :: rest => (simpleEscape? c).map fun c => (c, rest)
  | [] => none

/-- Puts characters in front of the text that was read. -/
def prepend (front : List Char) (r : Option (List Char × List Char)) :
    Option (List Char × List Char) :=
  r.map fun (text, rest) => (front ++ text, rest)

/-- The rest of a string between double quotes; `fuel` bounds the number of its characters. -/
def readBasic : Nat → List Char → Option (List Char × List Char)
  | 0, _ => none
  | _ + 1, [] => none
  | _ + 1, '"' :: rest => some ([], rest)
  | fuel + 1, '\\' :: rest => do
    let (c, rest) ← readEscape rest
    prepend [c] (readBasic fuel rest)
  | fuel + 1, c :: rest => if isPlain c then prepend [c] (readBasic fuel rest) else none

/-- The rest of a string between single quotes. -/
def readLiteral : List Char → Option (List Char × List Char)
  | [] => none
  | '\'' :: rest => some ([], rest)
  | c :: rest => if isPlain c then prepend [c] (readLiteral rest) else none

/-- After three closing quotes: up to two more belong to the text. -/
def closingQuotes (quote : Char) : List Char → List Char × List Char
  | a :: b :: rest =>
    if a = quote ∧ b = quote then ([quote, quote], rest)
    else if a = quote then ([quote], b :: rest)
    else ([], a :: b :: rest)
  | [a] => if a = quote then ([quote], []) else ([], [a])
  | [] => ([], [])

/-- The text after blanks and line breaks. -/
def skipLines : List Char → List Char
  | '\n' :: rest => skipLines rest
  | '\r' :: '\n' :: rest => skipLines rest
  | c :: rest => if isBlank c then skipLines rest else c :: rest
  | [] => []

/-- The rest of a string between three double quotes. A backslash at the end of a line takes away
the line break and the blanks after it. -/
def readMultiBasic : Nat → List Char → Option (List Char × List Char)
  | 0, _ => none
  | _ + 1, [] => none
  | _ + 1, '"' :: '"' :: '"' :: rest => some (closingQuotes '"' rest)
  | fuel + 1, '\\' :: rest =>
    match afterNewline? (skipBlank rest) with
    | some after => readMultiBasic fuel (skipLines after)
    | none => do
      let (c, rest) ← readEscape rest
      prepend [c] (readMultiBasic fuel rest)
  | fuel + 1, '\n' :: rest => prepend ['\n'] (readMultiBasic fuel rest)
  | fuel + 1, '\r' :: '\n' :: rest => prepend ['\n'] (readMultiBasic fuel rest)
  | fuel + 1, c :: rest => if isPlain c then prepend [c] (readMultiBasic fuel rest) else none

/-- The rest of a string between three single quotes. -/
def readMultiLiteral : List Char → Option (List Char × List Char)
  | [] => none
  | '\'' :: '\'' :: '\'' :: rest => some (closingQuotes '\'' rest)
  | '\n' :: rest => prepend ['\n'] (readMultiLiteral rest)
  | '\r' :: '\n' :: rest => prepend ['\n'] (readMultiLiteral rest)
  | c :: rest => if isPlain c then prepend [c] (readMultiLiteral rest) else none

/-- The text after a line break that follows opening quotes. -/
def skipNewline (cs : List Char) : List Char :=
  (afterNewline? cs).getD cs

/-- A string in any of the four forms. -/
def readString : List Char → Option (List Char × List Char)
  | '"' :: '"' :: '"' :: rest => readMultiBasic (rest.length + 1) (skipNewline rest)
  | '\'' :: '\'' :: '\'' :: rest => readMultiLiteral (skipNewline rest)
  | '"' :: rest => readBasic (rest.length + 1) rest
  | '\'' :: rest => readLiteral rest
  | _ => none

/-! ## Writing -/

/-- Whether a text has a run of at least three quotes. -/
def hasTripleQuote (quote : Char) : List Char → Bool
  | a :: b :: c :: rest =>
    (a == quote && b == quote && c == quote) || hasTripleQuote quote (b :: c :: rest)
  | _ => false

/-- Control characters that only an escape can write. -/
def needsEscape (c : Char) : Bool :=
  (c.toNat < 0x20 && c != '\t' && c != '\n') || c.toNat == 0x7f

/-- The forms in which a string can be written. -/
inductive Form where
  /-- Between double quotes. -/
  | basic
  /-- Between single quotes. -/
  | literal
  /-- Between three double quotes. -/
  | multiBasic
  /-- Between three single quotes. -/
  | multiLiteral
deriving DecidableEq

/-- The form that needs least escaping. -/
def formOf (text : List Char) : Form :=
  let control := text.any needsEscape
  let newline := text.contains '\n'
  let backslash := text.contains '\\'
  if !control && !backslash && !text.contains '"' && !newline then .basic
  else if !control && !text.contains '\'' && !newline then .literal
  else if !control && !backslash && !hasTripleQuote '"' text then .multiBasic
  else if !control && !hasTripleQuote '\'' text then .multiLiteral
  else if newline then .multiBasic
  else .basic

/-- A hexadecimal digit in upper case. -/
def upperHexDigit (n : Nat) : Char :=
  (Nat.digitChar n).toUpper

/-- A control character or a backslash as an escape; other characters stand for themselves. -/
def escapeControl (c : Char) : List Char :=
  if c = '\\' then ['\\', '\\']
  else if c = '\x08' then ['\\', 'b']
  else if c = '\t' then ['\\', 't']
  else if c = '\x0c' then ['\\', 'f']
  else if c = '\r' then ['\\', 'r']
  else if c.toNat < 0x20 || c.toNat == 0x7f then
    ['\\', 'u', '0', '0', upperHexDigit (c.toNat / 16), upperHexDigit (c.toNat % 16)]
  else [c]

/-- The inside of a string between double quotes. -/
def escapeBasic (text : List Char) : List Char :=
  text.flatMap fun c =>
    if c = '"' then ['\\', '"'] else if c = '\n' then ['\\', 'n'] else escapeControl c

/-- The inside of a string between three double quotes; `run` counts the quotes just before. Every
third quote of a run is escaped. -/
def escapeMultiBasic : Nat → List Char → List Char
  | _, [] => []
  | run, c :: rest =>
    if c = '"' then
      if run = 2 then '\\' :: '"' :: escapeMultiBasic 0 rest
      else '"' :: escapeMultiBasic (run + 1) rest
    else if c = '\n' then '\n' :: escapeMultiBasic 0 rest
    else escapeControl c ++ escapeMultiBasic 0 rest

/-- A string as it is written. Over several lines, the text starts on a line of its own. -/
def writeString (text : List Char) : List Char :=
  let start : List Char := if text.contains '\n' then ['\n'] else []
  match formOf text with
  | .basic => ['"'] ++ escapeBasic text ++ ['"']
  | .literal => ['\''] ++ text ++ ['\'']
  | .multiBasic => ['"', '"', '"'] ++ start ++ escapeMultiBasic 0 text ++ ['"', '"', '"']
  | .multiLiteral => ['\'', '\'', '\''] ++ start ++ text ++ ['\'', '\'', '\'']

end GraphPlan.Toml
