import GraphPlan.Plan.Basic

/-!
# Following a connection

A connection can be followed from whatever part of it the plan has bound: from its edge to both
endpoints, or from one endpoint over the edge to the other. Either way the plan gets two new
columns. A new column whose variable was bound before is a scratch column, and the rows are
restricted to those in which it equals the earlier one.
-/

namespace GraphPlan

/-- How a connection is followed. -/
inductive Traversal where
  /-- From the edge to both endpoints. -/
  | byEdge
  /-- From an endpoint over the edge to the other endpoint. -/
  | byNode (direction : Direction)
deriving DecidableEq, Inhabited

namespace Traversal

/-- How a connection can be followed from the bound variables: from the edge if that is bound, else
from the source, else from the destination. -/
def next? (s : Schema) (c : Connection) : Option Traversal :=
  if s.hasVariable c.edge.name then some .byEdge
  else if s.hasVariable c.src.name then some (.byNode .outgoing)
  else if s.hasVariable c.dst.name then some (.byNode .ingoing)
  else none

/-- The variable from which the connection is followed. -/
def start (c : Connection) : Traversal → String
  | byEdge => c.edge.name
  | byNode .outgoing => c.src.name
  | byNode .ingoing => c.dst.name

/-- The variables of the two new columns. -/
def produced (c : Connection) : Traversal → List String
  | byEdge => [c.src.name, c.dst.name]
  | byNode .outgoing => [c.edge.name, c.dst.name]
  | byNode .ingoing => [c.edge.name, c.src.name]

/-- The operator that follows a connection from the given column. -/
def operator (column : Nat) : Traversal → Operator
  | byEdge => .adjacent column
  | byNode direction => .explode column direction

end Traversal

/-- Adds columns for variables that an operator produces from `position` on. A variable that has a
column gets a scratch column, and the pair of both columns is returned. -/
def Schema.bindProduced : List String → Nat → Schema → Schema × List (Nat × Nat)
  | [], _, s => (s, [])
  | var :: rest, position, s =>
    match s.varColumn? var with
    | some known =>
      let (s, pairs) := bindProduced rest (position + 1) (s.addScratch var)
      (s, (known, position) :: pairs)
    | none => bindProduced rest (position + 1) (s.addVariable var)

namespace Plan

/-- Keeps the rows in which the given pairs of columns are equal. -/
def matchPairs (p : Plan) (pairs : List (Nat × Nat)) : Plan :=
  if pairs.isEmpty then p else p.wrap (.matchColumns pairs)

/-- Follows a connection. -/
def traverse (c : Connection) (step : Traversal) : PlanM Unit := do
  let plan ← get
  let start := step.start c
  match plan.schema.varColumn? start with
  | none => throw (.notBound start)
  | some column =>
    let (schema, pairs) := Schema.bindProduced (step.produced c) plan.schema.width plan.schema
    set ({ plan.wrap (step.operator column) with schema := schema }.matchPairs pairs)

end Plan

end GraphPlan
