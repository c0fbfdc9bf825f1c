import GraphPlan.Json.Basic
import GraphPlan.Regex.Basic
import GraphPlan.Text.Blank
import GraphPlan.Text.Numeric

/-!
# Reading regular expressions

`Regex.parse?` reads an expression. The usual operators are understood, with groups, modes and sets
of characters, but no counted repetition, since the braces of one cannot be closed within a field of
a log filter; a brace that opens outside a set is refused. Classes by Unicode property are refused
as well, since there is no matcher for them. The recursive functions take a bound on the number of
nested calls, for which the length of the text is always enough.
-/

namespace GraphPlan.Regex

/-! ## Blanks and comments -/

/-- The text after blanks and comments; the first argument says whether a comment is open. -/
def skipFiller : Bool → List Char → List Char
  | _, [] => []
  | true, c :: cs => skipFiller (c ≠ '\n') cs
  | false, c :: cs =>
    if Text.isBlank c then skipFiller false cs
    else if c = '#' then skipFiller true cs
    else c :: cs

/-- The text after what the mode passes over. -/
def skip (m : Mode) (cs : List Char) : List Char :=
  if m.verbose then skipFiller false cs else cs

/-- The next character that counts, where of a comment only its mark is passed over. -/
def peek? (m : Mode) (cs : List Char) : Option Char :=
  if m.verbose then
    match cs.dropWhile Text.isBlank with
    | '#' :: rest => (rest.dropWhile Text.isBlank).head?
    | rest => rest.head?
  else
    cs.head?

/-! ## Escapes -/

/-- What an escape stands for. -/
inductive Escape where
  /-- A character. -/
  | literal (l : Literal)
  /-- A class of characters. -/
  | shorthand (negated : Bool)
  /-- The start or the end of the text. -/
  | anchor
  /-- The start, the end or the inside of a word. -/
  | wordBoundary

/-- The value of `n` hexadecimal digits. -/
def readHex? (m : Mode) : (n value : Nat) → List Char → Option (Nat × List Char)
  | 0, value, cs => some (value, cs)
  | n + 1, value, cs =>
    match skip m cs with
    | [] => none
    | c :: rest => do
      let digit ← Json.hexValue? c
      readHex? m n (16 * value + digit) rest

/-- A character given by the hexadecimal digits of its code point. -/
def readCodePoint? (m : Mode) (digits : Nat) (cs : List Char) : Option (Char × List Char) := do
  let (value, rest) ← readHex? m digits 0 cs
  if value.isValidChar then return (Char.ofNat value, rest) else none

/-- The characters that have a letter as their escape. -/
def control? (c : Char) : Option Char :=
  [('a', '\x07'), ('f', '\x0c'), ('t', '\t'), ('n', '\n'), ('r', '\r'), ('v', '\x0b')].lookup c

/-- Whether a character stands for itself after a backslash. -/
def isPunctuation (c : Char) : Bool :=
  c.toNat < 0x80 && !c.isAlphanum

/-- An escape after its backslash. -/
def readEscape? (m : Mode) : List Char → Option (Escape × List Char)
  | [] => none
  | 'x' :: rest => (readCodePoint? m 2 rest).map fun (c, rest) => (.literal ⟨c, true⟩, rest)
  | 'u' :: rest => (readCodePoint? m 4 rest).map fun (c, rest) => (.literal ⟨c, false⟩, rest)
  | 'U' :: rest => (readCodePoint? m 8 rest).map fun (c, rest) => (.literal ⟨c, false⟩, rest)
  | c :: rest =>
    if ['d', 's', 'w'].contains c then some (.shorthand false, rest)
    else if ['D', 'S', 'W'].contains c then some (.shorthand true, rest)
    else if ['A', 'z'].contains c then some (.anchor, rest)
    else if ['b', 'B', '<', '>'].contains c then some (.wordBoundary, rest)
    else if isPunctuation c then some (.literal ⟨c, false⟩, rest)
    else (control? c).map fun c => (.literal ⟨c, false⟩, rest)

/-! ## Sets of characters -/

/-- The names of classes that stand between brackets and colons. -/
def classNames : List String :=
  ["alnum", "alpha", "ascii", "blank", "cntrl", "digit", "graph", "lower", "print", "punct",
   "space", "upper", "word", "xdigit"]

/-- A class with a name, after its bracket. -/
def readNamed? : List Char → Option (CharSet × List Char)
  | ':' :: cs =>
    let (negated, cs) := match cs with
      | '^' :: rest => (true, rest)
      | _ => (false, cs)
    match cs.span (· ≠ ':') with
    | (name, ':' :: ']' :: rest) =>
      if classNames.contains (String.ofList name) then some (.named negated, rest) else none
    | _ => none
  | _ => none

/-- A character or a class within a set. -/
def readMember? (m : Mode) : List Char → Option (CharSet × List Char)
  | [] => none
  | '\\' :: rest => do
    match ← readEscape? m rest with
    | (.literal l, rest) => return (.literal l, rest)
    | (.shorthand negated, rest) => return (.shorthand negated, rest)
    | _ => none
  | c :: rest => some (.literal ⟨c, false⟩, rest)

/-- The range between two members, which have to be characters in their order. -/
def range? : CharSet → CharSet → Option CharSet
  | .literal first, .literal last =>
    if first.char ≤ last.char then some (.range first last) else none
  | _, _ => none

/-- A member of a set, or a range of characters. A dash before the closing bracket or before another
dash makes no range. -/
def readRange? (m : Mode) (cs : List Char) : Option (CharSet × List Char) := do
  let (first, rest) ← readMember? m cs
  match skip m rest with
  | '-' :: after =>
    if peek? m after == some ']' || peek? m after == some '-' then
      return (first, '-' :: after)
    else
      let (last, rest) ← readMember? m (skip m after)
      return (← range? first last, rest)
  | rest => return (first, rest)

/-- The dashes at the start of a set. -/
def readDashes (m : Mode) : Nat → List Char → List CharSet × List Char
  | 0, cs => ([], cs)
  | fuel + 1, cs =>
    match skip m cs with
    | '-' :: rest =>
      let (items, rest) := readDashes m fuel rest
      (.literal ⟨'-', false⟩ :: items, rest)
    | rest => ([], rest)

/-- The start of a set, after its bracket: whether it is negated, and what stands for itself there
only: dashes, or a bracket that would otherwise close the set. -/
def readSetStart (m : Mode) (cs : List Char) : Bool × List CharSet × List Char :=
  let (negated, cs) := match skip m cs with
    | '^' :: rest => (true, rest)
    | rest => (false, rest)
  match readDashes m (cs.length + 1) cs with
  | ([], ']' :: rest) => (negated, [.literal ⟨']', false⟩], rest)
  | (items, rest) => (negated, items, rest)

/-- A set of the given items, the last one first, to the right of an operator if there is one. -/
def operand (lhs : Option CharSet) (items : List CharSet) : CharSet :=
  match lhs with
  | none => .ofItems items.reverse
  | some lhs => .combine lhs (.ofItems items.reverse)

/-- The rest of a set with its closing bracket. The arguments hold what stands to the left of the
last operator, and the items after it, the last one first. -/
def readSet? (m : Mode) :
    Nat → Option CharSet → List CharSet → List Char → Option (CharSet × List Char)
  | 0, _, _, _ => none
  | fuel + 1, lhs, items, cs =>
    match skip m cs with
    | [] => none
    | ']' :: rest => some (operand lhs items, rest)
    | '[' :: rest =>
      match readNamed? rest with
      | some (item, rest) => readSet? m fuel lhs (item :: items) rest
      | none => do
        let (negated, start, rest) := readSetStart m rest
        let (inner, rest) ← readSet? m fuel none start.reverse rest
        readSet? m fuel lhs (.bracketed negated inner :: items) rest
    | '&' :: '&' :: rest => readSet? m fuel (some (operand lhs items)) [] rest
    | '-' :: '-' :: rest => readSet? m fuel (some (operand lhs items)) [] rest
    | '~' :: '~' :: rest => readSet? m fuel (some (operand lhs items)) [] rest
    | rest => do
      let (item, rest) ← readRange? m rest
      readSet? m fuel lhs (item :: items) rest

/-! ## Groups -/

/-- The letters that change the mode. -/
def flags : List Char :=
  ['i', 'm', 's', 'U', 'u', 'R', 'x']

/-- Switches the mode of a letter on or off; some letters concern the way of matching only. -/
def Mode.switch (m : Mode) (flag : Char) (enabled : Bool) : Mode :=
  if flag = 'u' then { m with unicode := enabled }
  else if flag = 'i' then { m with ignoreCase := enabled }
  else if flag = 'x' then { m with verbose := enabled }
  else m

/-- The letters of a group up to its colon or parenthesis. Each stands once, and those after a dash
switch off. -/
def readFlags? : (negated : Bool) → (seen : List Char) → Mode → List Char →
    Option (Mode × List Char)
  | _, _, _, [] => none
  | _, _, m, ':' :: rest => some (m, ':' :: rest)
  | _, _, m, ')' :: rest => some (m, ')' :: rest)
  | negated, seen, m, '-' :: rest =>
    if negated || rest.head? == some ':' || rest.head? == some ')' then none
    else readFlags? true seen m rest
  | negated, seen, m, c :: rest =>
    if flags.contains c && !seen.contains c then
      readFlags? negated (c :: seen) (m.switch c (!negated)) rest
    else
      none

/-- The name of a group and its closing bracket. -/
def readName? (cs : List Char) : Option (List Char × List Char) :=
  match cs.span (· ≠ '>') with
  | (c :: name, '>' :: rest) =>
    if (c == '_' || Text.isAlphabetic c) && name.all isNameChar then some (c :: name, rest)
    else none
  | _ => none
where
  /-- Characters after the first one of a name. -/
  isNameChar (c : Char) : Bool :=
    ['_', '.', '[', ']'].contains c || Text.isAlphanumeric c

/-- What an opening parenthesis starts. -/
inductive Opening where
  /-- A change of the mode, without a group. -/
  | change (m : Mode)
  /-- A group with the mode of its inside and the names of groups up to here. -/
  | group (inner : Mode) (names : List (List Char))

/-- The start of a group after its parenthesis. No two groups have the same name. -/
def readOpening? (m : Mode) (names : List (List Char)) (cs : List Char) :
    Option (Opening × List Char) :=
  match skip m cs with
  | '?' :: 'P' :: '<' :: rest => readNamedGroup rest
  | '?' :: '<' :: rest => readNamedGroup rest
  | '?' :: ')' :: _ => none
  | '?' :: rest =>
    match readFlags? false [] m rest with
    | some (inner, ':' :: rest) => some (.group inner names, rest)
    | some (inner, ')' :: rest) => some (.change inner, rest)
    | _ => none
  | rest => some (.group m names, rest)
where
  /-- A group after the bracket before its name. -/
  readNamedGroup (cs : List Char) : Option (Opening × List Char) := do
    let (name, rest) ← readName? cs
    if names.contains name then none else return (.group m (name :: names), rest)

/-! ## Expressions -/

/-- A part of an expression that is neither an operator nor a group nor a set. -/
def readSingle? (m : Mode) : List Char → Option (Regex × List Char)
  | [] => none
  | '\\' :: rest => do
    match ← readEscape? m rest with
    | (.literal l, rest) => return (.literal m l, rest)
    | (.shorthand negated, rest) => return (.shorthand m negated, rest)
    | (.anchor, rest) => return (.anchor, rest)
    | (.wordBoundary, rest) => return (.wordBoundary m, rest)
  | '.' :: rest => some (.any m, rest)
  | '^' :: rest => some (.anchor, rest)
  | '$' :: rest => some (.anchor, rest)
  | '\x7b' :: _ => none
  | c :: rest => some (.literal m ⟨c, false⟩, rest)

/-- Repeats the last part of a sequence, which has to be there; the last one stands first. -/
def repeatLast? : List Regex → Option (List Regex)
  | [] => none
  | .modeChange :: _ => none
  | last :: parts => some (.repetition last :: parts)

/-- The text after a question mark, which makes a repetition prefer fewer rounds. -/
def skipLazy : List Char → List Char
  | '?' :: rest => rest
  | cs => cs

/-- A choice between branches, the last one first, of which the last is the sequence of some parts,
the last one first. -/
def close (branches : List Regex) (parts : List Regex) : Regex :=
  ofAlternatives (ofSequence parts.reverse :: branches).reverse

/-- An expression up to its end or to a parenthesis that it did not open. The arguments hold the
names of groups, the branches before the current one and the parts of that; the result holds the
names of groups and what follows. -/
def readBranches? : Nat → Mode → List (List Char) → List Regex → List Regex → List Char →
    Option (Regex × List (List Char) × List Char)
  | 0, _, _, _, _, _ => none
  | fuel + 1, m, names, branches, parts, cs =>
    match skip m cs with
    | [] => some (close branches parts, names, [])
    | ')' :: rest => some (close branches parts, names, ')' :: rest)
    | '|' :: rest => readBranches? fuel m names (ofSequence parts.reverse :: branches) [] rest
    | '(' :: rest => do
      match ← readOpening? m names rest with
      | (.change m, rest) => readBranches? fuel m names branches (.modeChange :: parts) rest
      | (.group inner names, rest) =>
        match ← readBranches? fuel inner names [] [] rest with
        | (r, names, ')' :: rest) => readBranches? fuel m names branches (.group r :: parts) rest
        | _ => none
    | '[' :: rest => do
      let (negated, start, rest) := readSetStart m rest
      let (s, rest) ← readSet? m (rest.length + 1) none start.reverse rest
      readBranches? fuel m names branches (.set m negated s :: parts) rest
    | c :: rest =>
      if ['?', '*', '+'].contains c then do
        readBranches? fuel m names branches (← repeatLast? parts) (skipLazy rest)
      else do
        let (r, rest) ← readSingle? m (c :: rest)
        readBranches? fuel m names branches (r :: parts) rest

/-- The expression that a text spells. -/
def parse? (cs : List Char) : Option Regex :=
  match readBranches? (cs.length + 1) .initial [] [] [] cs with
  | some (r, _, []) => some r
  | _ => none

/-- Whether a text spells an expression that has a matcher. -/
def isPattern (cs : List Char) : Bool :=
  (parse? cs).any hasMatcher

end GraphPlan.Regex
