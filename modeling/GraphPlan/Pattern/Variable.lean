/-!
# Pattern variables

A variable of a pattern stands for a vertex or for an edge of the graph, never for both. The
connected components of a pattern are told apart by `GroupId`.
-/

namespace GraphPlan

/-- What a pattern variable stands for. -/
inductive VariableKind where
  /-- A vertex. -/
  | node
  /-- An edge. -/
  | edge
deriving DecidableEq, Inhabited

/-- The word for a kind in messages. -/
def VariableKind.name : VariableKind → String
  | node => "Node"
  | edge => "Edge"

/-- A variable of the pattern. -/
structure Variable where
  /-- Its name. -/
  name : String
  /-- What it stands for. -/
  kind : VariableKind
  /-- Whether the query left it unnamed. -/
  anonymous : Bool
deriving DecidableEq, Inhabited

namespace Variable

/-- Whether the variable stands for a vertex. -/
def isNode (v : Variable) : Bool :=
  v.kind == .node

/-- Whether the variable stands for an edge. -/
def isEdge (v : Variable) : Bool :=
  v.kind == .edge

end Variable

/-- The number of a connected component, which it keeps when it absorbs another one. -/
structure GroupId where
  /-- The number. It stands for one of 32 bits and agrees with it for patterns of fewer than `2 ^ 32`
  connections and vertices; beyond them a number of 32 bits would wrap around, and this one does
  not. -/
  index : Nat
deriving DecidableEq, Inhabited

/-- The name of a component in messages. -/
def GroupId.text (g : GroupId) : String :=
  "g" ++ Nat.repr g.index

end GraphPlan
