import GraphPlan.Expr.Basic

/-!
# Columns

A plan produces rows of columns that have no names, only positions. What a column holds is recorded
beside the plan: the objects bound to a variable, an attribute or the label of such objects, a value
computed from an expression, the result of an aggregate, or a scratch value that was only needed for
a check. `Content.key` is what a column is looked up by.
-/

namespace GraphPlan

/-- What a column is for. -/
inductive Role where
  /-- Objects bound to a variable. -/
  | var
  /-- Attribute values of a variable. -/
  | attr
  /-- Labels of a variable. -/
  | label
  /-- Values needed for a check only. -/
  | scratch
  /-- Computed values. -/
  | computed
  /-- Results of an aggregate. -/
  | aggregate
deriving DecidableEq, Inhabited

/-- The word for a role. -/
def Role.name : Role → String
  | var => "Variable"
  | attr => "Attribute"
  | label => "Label"
  | scratch => "Scratch"
  | computed => "Expression"
  | aggregate => "Aggregate"

/-- What a column is looked up by. -/
inductive ColumnKey where
  /-- The name of a variable. -/
  | var (name : String)
  /-- A variable and one of its attributes. -/
  | attr (var attr : String)
  /-- The variable whose label it is. -/
  | label (var : String)
  /-- The tag of a scratch column. -/
  | scratch (tag : String)
  /-- The number of a computed column. -/
  | computed (serial : Nat)
  /-- The canonical text of an aggregate. -/
  | aggregate (text : String)
deriving DecidableEq, Inhabited

/-- What a column holds. -/
inductive Content where
  /-- Objects bound to a variable. -/
  | var (name : String)
  /-- An attribute of a variable. -/
  | attr (var attr : String)
  /-- The label of a variable. -/
  | label (var : String)
  /-- A value needed for a check only. -/
  | scratch (tag : String)
  /-- A computed value; computed columns are numbered within a schema. -/
  | computed (serial : Nat)
  /-- An aggregate over the values of the expression with the given text. -/
  | aggregate (kind : AggregateKind) (source : String)
deriving DecidableEq, Inhabited

/-- The canonical text of an aggregate over the expression with the given text. -/
def aggregateText (kind : AggregateKind) (source : String) : String :=
  kind.name ++ "(" ++ source ++ ")"

namespace Content

/-- The role of a column. -/
def role : Content → Role
  | var _ => .var
  | attr _ _ => .attr
  | label _ => .label
  | scratch _ => .scratch
  | computed _ => .computed
  | aggregate _ _ => .aggregate

/-- The main name of a column. -/
def primary : Content → String
  | .var x => x
  | .attr x _ => x
  | .label x => x
  | .scratch tag => tag
  | .computed serial => "expr#" ++ Nat.repr serial
  | .aggregate _ source => source

/-- The attribute or the aggregate function. -/
def secondary : Content → Option String
  | .attr _ a => some a
  | .aggregate kind _ => some kind.name
  | _ => none

/-- What the column is looked up by. -/
def key : Content → ColumnKey
  | .var x => .var x
  | .attr x a => .attr x a
  | .label x => .label x
  | .scratch tag => .scratch tag
  | .computed serial => .computed serial
  | .aggregate kind source => .aggregate (aggregateText kind source)

/-- Whether the column can be carried over into another plan. -/
def isStructural : Content → Bool
  | computed _ => false
  | aggregate _ _ => false
  | _ => true

end Content

/-- A column at its position. -/
structure Column where
  /-- The position in the rows. -/
  position : Nat
  /-- What the column holds. -/
  content : Content
deriving DecidableEq, Inhabited

/-- What the column is looked up by. -/
def Column.key (c : Column) : ColumnKey :=
  c.content.key

end GraphPlan
