import GraphPlan.Error
import GraphPlan.Table

/-!
# Schemas

A schema lists the columns of a plan. Beside the list it keeps an index from column keys to
positions, in which a later column with the same key takes the place of an earlier one, and a table
of aliases. Operations that can fail are `SchemaM` actions: they return the schema that they leave
behind, also with an error.
-/

namespace GraphPlan

/-- The columns of a plan with the ways to look them up. -/
structure Schema where
  /-- The columns in order of their positions. -/
  columns : List Column
  /-- The position of the last column with a given key. -/
  keys : Table ColumnKey Nat
  /-- The positions that names were declared for. -/
  aliases : Table String Nat
  /-- The number of the next computed column. It stands for one of 64 bits and agrees with it as long
  as fewer than `2 ^ 64` computed columns are made. -/
  nextSerial : Nat
deriving Inhabited

/-- Actions that change a schema and may fail. -/
abbrev SchemaM := EStateM PlanError Schema

namespace Schema

/-- The schema without columns. -/
def empty : Schema :=
  ⟨[], .empty, .empty, 0⟩

/-- The number of columns. -/
def width (s : Schema) : Nat :=
  s.columns.length

/-! ## Adding columns -/

/-- Appends a column. Its position is the width of the schema before. -/
def push (s : Schema) (content : Content) : Schema :=
  { s with
    columns := s.columns ++ [⟨s.width, content⟩]
    keys := s.keys.insert content.key s.width }

@[simp]
theorem columns_push (s : Schema) (content : Content) :
    (s.push content).columns = s.columns ++ [⟨s.width, content⟩] :=
  rfl

@[simp]
theorem width_push (s : Schema) (content : Content) : (s.push content).width = s.width + 1 := by
  simp [width]

@[simp]
theorem aliases_push (s : Schema) (content : Content) : (s.push content).aliases = s.aliases :=
  rfl

/-- A new column takes its key over from an earlier one, and no other key. -/
theorem get?_keys_push (s : Schema) (content : Content) (key : ColumnKey) :
    (s.push content).keys.get? key =
      if key = content.key then some s.width else s.keys.get? key := by
  simp [push, Table.get?_insert]

/-- Appends a column for a variable. -/
def addVariable (s : Schema) (var : String) : Schema :=
  s.push (.var var)

/-- Appends a column for an attribute. -/
def addAttribute (s : Schema) (var attr : String) : Schema :=
  s.push (.attr var attr)

/-- Appends a column for the label of a variable. -/
def addLabel (s : Schema) (var : String) : Schema :=
  s.push (.label var)

/-- Appends a scratch column. -/
def addScratch (s : Schema) (tag : String) : Schema :=
  s.push (.scratch tag)

/-- Appends a computed column under the next number. -/
def addComputed (s : Schema) : Schema :=
  { s with nextSerial := s.nextSerial + 1 }.push (.computed s.nextSerial)

/-- Appends a column for an aggregate, with the text of the aggregate as an alias. -/
def addAggregate (s : Schema) (kind : AggregateKind) (source : String) : Schema :=
  let t := s.push (.aggregate kind source)
  { t with aliases := t.aliases.insert (aggregateText kind source) s.width }

/-! ## Lookups -/

/-- The position of the column of a variable. -/
def varColumn? (s : Schema) (var : String) : Option Nat :=
  s.keys.get? (.var var)

/-- The position of the column of an attribute. -/
def attrColumn? (s : Schema) (var attr : String) : Option Nat :=
  s.keys.get? (.attr var attr)

/-- The position of the column of a label. -/
def labelColumn? (s : Schema) (var : String) : Option Nat :=
  s.keys.get? (.label var)

/-- The position of the column of the aggregate with the given text. -/
def aggregateColumn? (s : Schema) (text : String) : Option Nat :=
  s.keys.get? (.aggregate text)

/-- The position that an alias was declared for. -/
def aliasColumn? (s : Schema) (name : String) : Option Nat :=
  s.aliases.get? name

/-- Whether a variable has a column. -/
def hasVariable (s : Schema) (var : String) : Bool :=
  (s.varColumn? var).isSome

/-- Whether an attribute has a column. -/
def hasAttribute (s : Schema) (var attr : String) : Bool :=
  (s.attrColumn? var attr).isSome

/-- Whether the label of a variable has a column. -/
def hasLabel (s : Schema) (var : String) : Bool :=
  (s.labelColumn? var).isSome

/-- The variables that have a column, in the order of the columns. -/
def vars (s : Schema) : List String :=
  s.columns.filterMap fun c =>
    match c.content with
    | .var name => some name
    | _ => none

/-! ## Aliases -/

/-- Declares a name for a column. -/
def setAlias (name : String) (column : Nat) : SchemaM Unit := fun s =>
  if column < s.width then
    .ok () { s with aliases := s.aliases.insert name column }
  else
    .error (.aliasOutOfRange name column s.width) s

/-! ## Merging -/

/-- Appends copies of the columns of another schema, as a join or a product of the plans does.
Aliases are not taken over, and a schema with computed columns or aggregates is refused. -/
def append (other : Schema) : SchemaM Unit := fun s =>
  match other.columns.find? fun c => !c.content.isStructural with
  | some c => .error (.cannotMerge c.content.role c.content.primary) s
  | none => .ok () (other.columns.foldl (fun t c => t.push c.content) s)

/-! ## Reduction -/

/-- The new position of every old column, if it was kept. -/
structure Remap where
  /-- The new position, by old position. -/
  mapping : List (Option Nat)
deriving DecidableEq, Inhabited

namespace Remap

/-- The new position of an old column. -/
def get? (r : Remap) (old : Nat) : Option Nat :=
  (r.mapping[old]?).join

/-- The number of columns before. -/
def oldWidth (r : Remap) : Nat :=
  r.mapping.length

end Remap

/-- Lists the columns of `old` at the positions `keep`, the first of them going to `position`, and
records in `mapping` where the columns went. A column that went somewhere already is repeated as a
scratch column. -/
def keepColumns (old : List Column) :
    List (Option Nat) → Nat → List Nat → List Column × List (Option Nat)
  | mapping, _, [] => ([], mapping)
  | mapping, position, p :: keep =>
    match old[p]? with
    | none => keepColumns old mapping position keep
    | some source =>
      match mapping[p]? with
      | some none =>
        let (columns, mapping) :=
          keepColumns old (mapping.set p (some position)) (position + 1) keep
        (⟨position, source.content⟩ :: columns, mapping)
      | _ =>
        let (columns, mapping) := keepColumns old mapping (position + 1) keep
        (⟨position, .scratch source.content.primary⟩ :: columns, mapping)

/-- The index of a list of columns. -/
def indexOf (columns : List Column) : Table ColumnKey Nat :=
  columns.foldl (fun keys c => keys.insert c.key c.position) .empty

/-- Keeps only the listed positions, in the order in which they are listed. Aliases move with their
columns, and those of dropped columns are forgotten. A position that is listed again gives a scratch
copy. -/
def reduce (keep : List Nat) : SchemaM Remap := fun s =>
  match keep.find? fun p => s.width ≤ p with
  | some p => .error (.keepOutOfRange p s.width) s
  | none =>
    let (columns, mapping) := keepColumns s.columns (List.replicate s.width none) 0 keep
    let remap : Remap := ⟨mapping⟩
    .ok remap
      { s with
        columns := columns
        keys := indexOf columns
        aliases := s.aliases.mapValues remap.get? }

end Schema

end GraphPlan
