import GraphPlan.Toml.Number
import GraphPlan.Toml.Text

/-!
# Reading TOML text

`Toml.parse?` reads a document line by line: key and value, header of a table, header of an array of
tables, comment or nothing. A key has at most `maxNesting` parts, and a value opens at most as many
arrays and tables. The recursive functions take a bound on the number of nested calls, for which the
length of the text is always enough.
-/

namespace GraphPlan.Toml

/-- The number of parts of a key, and of arrays and tables between braces that may be open at
once. -/
def maxNesting : Nat := 79

/-- The text after a comment, if one stands here. -/
def skipComment : List Char → List Char
  | '#' :: cs => cs.dropWhile isPlain
  | cs => cs

/-- The text after the end of a line, before which only blanks and a comment may stand. -/
def endLine? (cs : List Char) : Option (List Char) :=
  match skipComment (skipBlank cs) with
  | [] => some []
  | rest => afterNewline? rest

/-- Characters of keys without quotes. -/
def isKeyChar (c : Char) : Bool :=
  c.isAlphanum || c == '_' || c == '-'

/-- A key without dots. -/
def readSimpleKey? (cs : List Char) : Option (String × List Char) :=
  match cs with
  | '"' :: rest =>
    (readBasic (rest.length + 1) rest).map fun (key, rest) => (String.ofList key, rest)
  | '\'' :: rest => (readLiteral rest).map fun (key, rest) => (String.ofList key, rest)
  | _ =>
    match cs.span isKeyChar with
    | ([], _) => none
    | (key, rest) => some (String.ofList key, rest)

/-- A key with at most `parts` parts, divided by dots: the path and the last part. -/
def readParts? : Nat → List Char → Option (List String × String × List Char)
  | 0, _ => none
  | parts + 1, cs => do
    let (first, rest) ← readSimpleKey? (skipBlank cs)
    match skipBlank rest with
    | '.' :: rest =>
      let (path, last, rest) ← readParts? parts rest
      return (first :: path, last, rest)
    | rest => return ([], first, rest)

/-- A key with its dots: the path and the last part. -/
def readKey? (cs : List Char) : Option (List String × String × List Char) :=
  readParts? maxNesting cs

/-- The text after blanks, line breaks and comments. -/
def skipFiller : Nat → List Char → Option (List Char)
  | 0, cs => some cs
  | fuel + 1, cs =>
    match skipBlank cs with
    | '#' :: rest =>
      match rest.dropWhile isPlain with
      | [] => some []
      | rest => (afterNewline? rest).bind (skipFiller fuel)
    | rest =>
      match afterNewline? rest with
      | some rest => skipFiller fuel rest
      | none => some rest

mutual

/-- A value that may open `depth` arrays and tables. -/
def readValue? : Nat → Nat → List Char → Option (Value × List Char)
  | 0, _, _ => none
  | fuel + 1, depth, cs =>
    match cs, depth with
    | '"' :: _, _ | '\'' :: _, _ =>
      (readString cs).map fun (s, rest) => (.string (String.ofList s), rest)
    | 't' :: 'r' :: 'u' :: 'e' :: rest, _ => some (.boolean, rest)
    | 'f' :: 'a' :: 'l' :: 's' :: 'e' :: rest, _ => some (.boolean, rest)
    | '[' :: rest, depth + 1 => (readItems? fuel depth rest).map fun rest => (.array, rest)
    | '\x7b' :: rest, depth + 1 =>
      match skipBlank rest with
      | '\x7d' :: rest => some (.inlineTable, rest)
      | rest => (readFields? fuel depth .empty rest).map fun rest => (.inlineTable, rest)
    | _, _ => readNumber? cs

/-- The items of an array and its closing bracket. Lines may end anywhere, and a comma may follow
the last item. -/
def readItems? : Nat → Nat → List Char → Option (List Char)
  | 0, _, _ => none
  | fuel + 1, depth, cs => do
    match ← skipFiller (cs.length + 1) cs with
    | ']' :: rest => return rest
    | cs =>
      let (_, rest) ← readValue? fuel depth cs
      match ← skipFiller (rest.length + 1) rest with
      | ',' :: rest => readItems? fuel depth rest
      | ']' :: rest => return rest
      | _ => none

/-- The entries of a table between braces and its closing brace; at least one. -/
def readFields? : Nat → Nat → Table → List Char → Option (List Char)
  | 0, _, _, _ => none
  | fuel + 1, depth, table, cs => do
    let (path, key, rest) ← readKey? cs
    let (value, rest) ← readValue? fuel depth (skipBlank (← expect? '=' rest))
    let table ← table.insertPath path key value
    match skipBlank rest with
    | ',' :: rest => readFields? fuel depth table rest
    | '\x7d' :: rest => return rest
    | _ => none

end

/-- A document under construction. -/
structure Document where
  /-- The root table. -/
  root : Table
  /-- The path of the last header, to which keys belong. -/
  current : List String

/-- A line with a key and a value. -/
def readEntry? (doc : Document) (cs : List Char) : Option (Document × List Char) := do
  let (path, key, rest) ← readKey? cs
  let rest := skipBlank (← expect? '=' rest)
  let (value, rest) ← readValue? (2 * rest.length + 2) maxNesting rest
  let root ← doc.root.modifyPath false (Table.insertPath path key value) doc.current
  return ({ doc with root := root }, ← endLine? rest)

/-- The header of a table, after its bracket. -/
def readHeader? (doc : Document) (cs : List Char) : Option (Document × List Char) := do
  let (path, key, rest) ← readKey? cs
  let rest ← expect? ']' rest
  let root ← doc.root.defineTable path key
  return (⟨root, path ++ [key]⟩, ← endLine? rest)

/-- The header of an array of tables, after its brackets. -/
def readArrayHeader? (doc : Document) (cs : List Char) : Option (Document × List Char) := do
  let (path, key, rest) ← readKey? cs
  let rest ← expect? ']' (← expect? ']' rest)
  let root ← doc.root.defineArrayTable path key
  return (⟨root, path ++ [key]⟩, ← endLine? rest)

/-- The lines of a document. -/
def readLines? : Nat → Document → List Char → Option Table
  | 0, _, _ => none
  | fuel + 1, doc, cs =>
    match skipBlank cs with
    | [] => some doc.root
    | '[' :: '[' :: rest => do
      let (doc, rest) ← readArrayHeader? doc rest
      readLines? fuel doc rest
    | '[' :: rest => do
      let (doc, rest) ← readHeader? doc rest
      readLines? fuel doc rest
    | rest =>
      match endLine? rest with
      | some rest => readLines? fuel doc rest
      | none => do
        let (doc, rest) ← readEntry? doc rest
        readLines? fuel doc rest

/-- The text without a byte-order mark. -/
def skipMark : List Char → List Char
  | c :: cs => if c = '\ufeff' then cs else c :: cs
  | [] => []

/-- The document that a text spells. -/
def parse? (text : String) : Option Table :=
  let cs := skipMark text.toList
  readLines? (cs.length + 2) ⟨.empty, []⟩ cs

end GraphPlan.Toml
