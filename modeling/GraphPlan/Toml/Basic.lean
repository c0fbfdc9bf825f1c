/-!
# TOML documents

A document is a tree of tables. A table remembers how it came about, since that decides whether it
may be defined or extended later: by a header, as a part of the path of a header, or as a part of
the path of a dotted key. Changes follow a path from the root and fail where the path runs into
something that may not be extended.
-/

namespace GraphPlan.Toml

/-- A value. Only the type of values other than strings is kept. -/
inductive Value where
  /-- A string. -/
  | string (s : String)
  /-- An integer. -/
  | integer
  /-- A floating-point number. -/
  | float
  /-- A truth value. -/
  | boolean
  /-- A date, a time or both. -/
  | datetime
  /-- An array. -/
  | array
  /-- A table between braces. -/
  | inlineTable
deriving DecidableEq, Inhabited

/-- How a table came about. -/
inductive Origin where
  /-- By a header of its own, or as the document. -/
  | header
  /-- As a part of the path of a header. -/
  | headerPath
  /-- As a part of the path of a dotted key. -/
  | dottedKey
deriving DecidableEq, Inhabited

mutual

/-- What stands under a key. -/
inductive Item where
  /-- A value. -/
  | value (v : Value)
  /-- A table. -/
  | table (t : Table)
  /-- The tables of an array, the last one first. -/
  | tables (last : Table) (earlier : List Table)

/-- A table. -/
inductive Table where
  /-- How the table came about, and its entries. -/
  | mk (origin : Origin) (entries : List (String × Item))

end

namespace Table

/-- How the table came about. -/
def origin : Table → Origin
  | mk origin _ => origin

/-- The keys with what stands under them. -/
def entries : Table → List (String × Item)
  | mk _ entries => entries

/-- What stands under a key. -/
def get? (t : Table) (key : String) : Option Item :=
  t.entries.lookup key

/-- Puts something under a key. -/
def set (t : Table) (key : String) (item : Item) : Table :=
  mk t.origin ((key, item) :: t.entries.filter fun e => e.1 ≠ key)

/-- The document without entries. -/
def empty : Table :=
  mk .header []

/-- Changes the table at the end of a path. Missing tables are added. A path of a dotted key does
not enter a table that has a header of its own. -/
def modifyPath (dotted : Bool) (change : Table → Option Table) : List String → Table → Option Table
  | [], t => change t
  | key :: path, t =>
    match t.get? key with
    | none => do
      let sub ← modifyPath dotted change path
        (mk (if dotted then .dottedKey else .headerPath) [])
      return t.set key (.table sub)
    | some (.value _) => none
    | some (.tables last earlier) => do
      let last ← modifyPath dotted change path last
      return t.set key (.tables last earlier)
    | some (.table sub) =>
      if dotted && sub.origin == .header then
        none
      else do
        let sub ← modifyPath dotted change path sub
        return t.set key (.table sub)

/-- Puts a value under a key that is not taken. A table that came about by dotted keys takes entries
by dotted keys only, and other tables take none of those. -/
def insertNew (dotted : Bool) (key : String) (v : Value) (t : Table) : Option Table :=
  if (t.origin == .dottedKey) != dotted then none
  else
    match t.get? key with
    | some _ => none
    | none => some (t.set key (.value v))

/-- Puts a value under a dotted key. -/
def insertPath (path : List String) (key : String) (v : Value) (t : Table) : Option Table :=
  t.modifyPath true (insertNew (!path.isEmpty) key v) path

/-- Defines the table of a header. -/
def defineTable (path : List String) (key : String) (t : Table) : Option Table :=
  t.modifyPath false
    (fun parent =>
      match parent.get? key with
      | none => some (parent.set key (.table .empty))
      | some (.table (.mk .headerPath entries)) =>
        some (parent.set key (.table (.mk .header entries)))
      | some _ => none)
    path

/-- Adds a table to the array of a header. -/
def defineArrayTable (path : List String) (key : String) (t : Table) : Option Table :=
  t.modifyPath false
    (fun parent =>
      match parent.get? key with
      | none => some (parent.set key (.tables .empty []))
      | some (.tables last earlier) => some (parent.set key (.tables .empty (last :: earlier)))
      | some _ => none)
    path

end Table

end GraphPlan.Toml
