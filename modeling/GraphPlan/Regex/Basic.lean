/-!
# Regular expressions

The syntax trees of regular expressions, and which of them a matcher can be built for. Every leaf
holds the mode in which it was written. A matcher decides byte by byte and has no tables of
characters: classes of Unicode characters, their cases and their word boundaries are out of its
reach, and outside Unicode mode it accepts whole characters only.
-/

namespace GraphPlan

namespace Regex

/-- How a part of an expression is read. -/
structure Mode where
  /-- Whether classes contain characters rather than bytes. -/
  unicode : Bool
  /-- Whether upper and lower case count as the same. -/
  ignoreCase : Bool
  /-- Whether blanks and comments are passed over. -/
  verbose : Bool
deriving DecidableEq

/-- The mode at the start of an expression. -/
def Mode.initial : Mode :=
  ⟨true, false, false⟩

/-- A character that stands for itself. -/
structure Literal where
  /-- The character. -/
  char : Char
  /-- Whether it is written as a byte of two hexadecimal digits. -/
  asByte : Bool
deriving DecidableEq

/-- What stands between brackets. -/
inductive CharSet where
  /-- Nothing, as a side of an operator. -/
  | empty
  /-- One character. -/
  | literal (l : Literal)
  /-- A range of characters. -/
  | range (first last : Literal)
  /-- A class with a name, such as the letters. -/
  | named (negated : Bool)
  /-- A class with a letter of its own: digits, blanks or the characters of words. -/
  | shorthand (negated : Bool)
  /-- Two or more items. -/
  | union (items : List CharSet)
  /-- Two sets with an operator between them. -/
  | combine (lhs rhs : CharSet)
  /-- A set between brackets of its own. -/
  | bracketed (negated : Bool) (s : CharSet)

/-- The number of enclosing constructs around the innermost item. -/
def CharSet.depth : CharSet → Nat
  | empty => 0
  | literal _ => 0
  | range _ _ => 0
  | named _ => 0
  | shorthand _ => 0
  | union items => 1 + depths items
  | combine lhs rhs => 1 + max lhs.depth rhs.depth
  | bracketed _ s => 1 + s.depth
where
  /-- The greatest depth of the items. -/
  depths : List CharSet → Nat
    | [] => 0
    | item :: items => max item.depth (depths items)

end Regex

/-- A regular expression. -/
inductive Regex where
  /-- The empty text. -/
  | empty
  /-- A change of the mode for what follows. -/
  | modeChange
  /-- One character. -/
  | literal (m : Regex.Mode) (l : Regex.Literal)
  /-- Any character. -/
  | any (m : Regex.Mode)
  /-- The start or the end of a text or of a line. -/
  | anchor
  /-- The start, the end or the inside of a word. -/
  | wordBoundary (m : Regex.Mode)
  /-- A class with a letter of its own. -/
  | shorthand (m : Regex.Mode) (negated : Bool)
  /-- A set of characters between brackets. -/
  | set (m : Regex.Mode) (negated : Bool) (s : Regex.CharSet)
  /-- An expression between parentheses. -/
  | group (r : Regex)
  /-- An expression that may occur another number of times than once. -/
  | repetition (r : Regex)
  /-- Two or more expressions, one after the other. -/
  | sequence (rs : List Regex)
  /-- Two or more expressions to choose from. -/
  | alternatives (rs : List Regex)

namespace Regex

/-- The number of enclosing constructs around the innermost part. -/
def depth : Regex → Nat
  | empty => 0
  | modeChange => 0
  | literal _ _ => 0
  | any _ => 0
  | anchor => 0
  | wordBoundary _ => 0
  | shorthand _ _ => 0
  | set _ _ s => 1 + s.depth
  | group r => 1 + r.depth
  | repetition r => 1 + r.depth
  | sequence rs => 1 + depths rs
  | alternatives rs => 1 + depths rs
where
  /-- The greatest depth of the parts. -/
  depths : List Regex → Nat
    | [] => 0
    | r :: rs => max r.depth (depths rs)

/-- The greatest depth of an expression. -/
def maxDepth : Nat := 250

/-! ## Expressions with a matcher -/

/-- Whether a character of one byte stands here. -/
def Literal.isAscii (l : Literal) : Bool :=
  l.char.toNat < 0x80

/-- Whether a matcher can look for a character: in Unicode mode if case matters, otherwise if it is
not half of a character. -/
def Literal.isSupported (m : Mode) (l : Literal) : Bool :=
  if m.unicode then !m.ignoreCase else !l.asByte || l.isAscii

/-- Whether a matcher can look for the characters of a set. Outside Unicode mode a set contains
characters of one byte only. -/
def CharSet.isSupported (m : Mode) : CharSet → Bool
  | empty => true
  | literal l => inSet l
  | range first last => inSet first && inSet last
  | named negated => if m.unicode then !m.ignoreCase else !negated
  | shorthand negated => !m.unicode && !negated
  | union items => areSupported items
  | combine lhs rhs => lhs.isSupported m && rhs.isSupported m
  | bracketed negated s => (m.unicode || !negated) && s.isSupported m
where
  /-- Whether a character may be in a set. -/
  inSet (l : Literal) : Bool :=
    if m.unicode then !m.ignoreCase else l.isAscii
  /-- `isSupported` for every item. -/
  areSupported : List CharSet → Bool
    | [] => true
    | item :: items => item.isSupported m && areSupported items

/-- Whether a matcher can be built for an expression of whatever depth. -/
def isSupported : Regex → Bool
  | empty => true
  | modeChange => true
  | literal m l => l.isSupported m
  | any m => m.unicode
  | anchor => true
  | wordBoundary m => !m.unicode
  | shorthand m negated => !m.unicode && !negated
  | set m negated s => (m.unicode || !negated) && s.isSupported m
  | group r => r.isSupported
  | repetition r => r.isSupported
  | sequence rs => areSupported rs
  | alternatives rs => areSupported rs
where
  /-- `isSupported` for every part. -/
  areSupported : List Regex → Bool
    | [] => true
    | r :: rs => r.isSupported && areSupported rs

/-- Whether a matcher can be built for an expression. -/
def hasMatcher (r : Regex) : Bool :=
  r.depth ≤ maxDepth && r.isSupported

/-! ## Composition -/

/-- Expressions one after the other; a single one stands for itself. -/
def ofSequence : List Regex → Regex
  | [] => empty
  | [r] => r
  | rs => sequence rs

/-- A choice of expressions; a single one stands for itself. -/
def ofAlternatives : List Regex → Regex
  | [] => empty
  | [r] => r
  | rs => alternatives rs

/-- The union of items; a single one stands for itself. -/
def CharSet.ofItems : List CharSet → CharSet
  | [] => empty
  | [item] => item
  | items => union items

end Regex

end GraphPlan
