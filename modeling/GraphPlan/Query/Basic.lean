import GraphPlan.Expr.Basic

/-!
# Graph-pattern queries

A query asks for all ways to lay a pattern over a property graph. The pattern is a list of vertices
and of directed connections between vertices; filters restrict its matches, and grouping,
projection, order, limit and offset say what is made of them.
-/

namespace GraphPlan

/-- A variable as it stands in a pattern. -/
structure PatternVar where
  /-- Its name. -/
  name : String
  /-- Whether the name was generated because the query gave none. -/
  anonymous : Bool
deriving DecidableEq, Inhabited

/-- A directed edge of the pattern. -/
structure Connection where
  /-- The vertex where the edge starts. -/
  src : PatternVar
  /-- The vertex where the edge ends. -/
  dst : PatternVar
  /-- The edge itself. -/
  edge : PatternVar
deriving DecidableEq, Inhabited

namespace Connection

/-- The names that a connection binds, endpoints first. -/
def names (c : Connection) : List String :=
  [c.src.name, c.dst.name, c.edge.name]

/-- A connection drawn as an arrow. -/
def text (c : Connection) : String :=
  "(" ++ c.src.name ++ ")-[" ++ c.edge.name ++ "]->(" ++ c.dst.name ++ ")"

end Connection

/-- An expression to group by. -/
structure GroupKey where
  /-- The grouping value. -/
  expr : Expr
  /-- The name under which the value is known afterwards. -/
  name : String
deriving Inhabited

/-- A result column. -/
structure ProjectionElem where
  /-- The value of the column. -/
  expr : Expr
  /-- The declared name of the column. -/
  name : Option String
deriving Inhabited

/-- A sort key. -/
structure OrderElem where
  /-- The value to sort by. -/
  expr : Expr
  /-- Whether small values come first. -/
  ascending : Bool
deriving Inhabited

/-- A graph-pattern query. -/
structure Query where
  /-- Vertices that are listed on their own. -/
  vertices : List PatternVar
  /-- Directed edges. -/
  connections : List Connection
  /-- Filters. -/
  constraints : List Expr
  /-- Grouping keys. -/
  groupBy : List GroupKey
  /-- Result columns; all columns if empty. -/
  projection : List ProjectionElem
  /-- Sort keys. -/
  orderBy : List OrderElem
  /-- The largest number of rows. -/
  limit : Option UInt64
  /-- The number of leading rows to skip. -/
  offset : Option UInt64
deriving Inhabited

/-- The query without any part. -/
def Query.empty : Query :=
  ⟨[], [], [], [], [], [], none, none⟩

end GraphPlan
