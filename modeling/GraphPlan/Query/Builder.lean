import GraphPlan.Algebra.Operator
import GraphPlan.Error

/-!
# Building queries step by step

A query can be put together by a sequence of calls instead of being written down. `Builder.Call`
lists the calls, `Builder.run` performs them. The first mistake is kept until the end; after it,
calls that add vertices, edges or predicates do nothing. Vertices and edges without a name get
generated ones.
-/

namespace GraphPlan

/-- A vertex of the pattern as a call describes it. -/
inductive Target where
  /-- A vertex with a label and a generated name. -/
  | labelled (label : String)
  /-- A vertex with a name, and a label if one is given. -/
  | named (name : String) (label : Option String)
deriving DecidableEq, Inhabited

/-- The name of a target for the given fallback. -/
def Target.name (fallback : String) : Target → String
  | .labelled _ => fallback
  | .named name _ => name

/-- The label of a target. -/
def Target.label? : Target → Option String
  | .labelled label => some label
  | .named _ label => label

/-- An edge of the pattern as a call describes it. -/
structure EdgeSpec where
  /-- The name of the edge; generated if missing. -/
  name : Option String
  /-- The label of the edge, if it has to have one. -/
  label : Option String
deriving DecidableEq, Inhabited

/-- Predicates on the properties of one variable. -/
inductive Predicate where
  /-- A comparison of a property with a value. -/
  | compare (op : Comparison) (prop : String) (value : Expr)
  /-- A property in a closed interval, as two comparisons. -/
  | between (prop : String) (low high : Expr)
  /-- A label test. -/
  | hasLabel (label : String)
  /-- A disjunction. -/
  | anyOf (predicates : List Predicate)
deriving Inhabited

namespace Predicate

/-- The comparison of a property of `var` with a value. -/
def comparison (var : String) (op : Comparison) (prop : String) (value : Expr) : Expr :=
  .binary (.compare op) (.prop var prop) value

/-- The disjunction of expressions, nested to the left; none for no expression. -/
def disjunction : List Expr → List Expr
  | [] => []
  | e :: es => [es.foldl (fun lhs rhs => .binary .or lhs rhs) e]

mutual

/-- The filters that a predicate on `var` stands for. -/
def exprs (var : String) : Predicate → List Expr
  | compare op prop value => [comparison var op prop value]
  | between prop low high => [comparison var .ge prop low, comparison var .le prop high]
  | hasLabel label => [.hasLabel var label]
  | anyOf predicates => disjunction (exprsList var predicates)

/-- The filters that several predicates on `var` stand for. -/
def exprsList (var : String) : List Predicate → List Expr
  | [] => []
  | p :: ps => p.exprs var ++ exprsList var ps

end

end Predicate

/-- A query under construction. -/
structure Builder where
  /-- The query so far. -/
  query : Query
  /-- The vertex that was added last. -/
  last : Option String
  /-- The number of calls that added a vertex. It stands for one of 64 bits and agrees with it below
  `2 ^ 64` calls. -/
  vertexCount : Nat
  /-- The number of generated edge names. It stands for one of 64 bits, too, and agrees with it below
  `2 ^ 64` names. -/
  edgeCount : Nat
  /-- The direction of the next edge. -/
  direction : Direction
  /-- The first mistake. -/
  error : Option PlanError
deriving Inhabited

namespace Builder

/-- A call. -/
inductive Call where
  /-- Adds a vertex. -/
  | matchVertex (target : Target)
  /-- Adds an edge between the last vertex and another one. -/
  | whereEdge (edge : EdgeSpec) (target : Target)
  /-- Sets the direction of the next edge. -/
  | direction (direction : Direction)
  /-- Adds predicates on a variable, each as a filter of its own. -/
  | whereVar (var : String) (predicates : List Predicate)
  /-- Adds a filter. -/
  | filter (expr : Expr)
  /-- Adds a grouping key. -/
  | groupBy (expr : Expr) (name : String)
  /-- Sets the projection. -/
  | select (elems : List ProjectionElem)
  /-- Adds a sort key. -/
  | orderBy (expr : Expr) (ascending : Bool)
  /-- Sets the largest number of rows. -/
  | limit (n : UInt64)
  /-- Sets the number of leading rows to skip. -/
  | offset (n : UInt64)
deriving Inhabited

/-- The builder before any call. -/
def empty : Builder :=
  ⟨.empty, none, 0, 0, .outgoing, none⟩

/-- The generated name of the vertex that the call with the given number adds: a letter, followed by
a number from the second round of letters on. -/
def vertexName (n : Nat) : String :=
  let letter := String.singleton (Char.ofNat ('a'.toNat + n % 26))
  if n < 26 then letter else letter ++ Nat.repr (n / 26)

/-- The generated name of an edge. -/
def edgeName (n : Nat) : String :=
  "anon_edge" ++ Nat.repr n

/-- Adds a filter. -/
def addFilter (b : Builder) (e : Expr) : Builder :=
  { b with query := { b.query with constraints := b.query.constraints ++ [e] } }

/-- Adds a filter if there is one. -/
def addFilter? (b : Builder) : Option Expr → Builder
  | some e => b.addFilter e
  | none => b

/-- Whether a name is a listed vertex. -/
def hasVertex (q : Query) (name : String) : Bool :=
  q.vertices.any fun v => v.name == name

/-- Lists a vertex, unless it is listed already. -/
def addVertex (b : Builder) (name : String) : Builder :=
  if hasVertex b.query name then b
  else { b with query := { b.query with vertices := b.query.vertices ++ [⟨name, false⟩] } }

/-- Adds the vertex of a target. Every target uses up a generated name. -/
def addTarget (b : Builder) (target : Target) : Builder :=
  let name := target.name (vertexName b.vertexCount)
  let b := { b with vertexCount := b.vertexCount + 1, last := some name }.addVertex name
  b.addFilter? (target.label?.map (.hasLabel name))

/-- Gives an edge its name. Only a missing one uses up a generated name. -/
def nameEdge (b : Builder) (edge : EdgeSpec) : Builder × PatternVar :=
  match edge.name with
  | some name => (b, ⟨name, false⟩)
  | none => ({ b with edgeCount := b.edgeCount + 1 }, ⟨edgeName b.edgeCount, true⟩)

/-- The connection between two vertices in a direction. -/
def connect (direction : Direction) (start target : String) (edge : PatternVar) : Connection :=
  match direction with
  | .outgoing => ⟨⟨start, false⟩, ⟨target, false⟩, edge⟩
  | .ingoing => ⟨⟨target, false⟩, ⟨start, false⟩, edge⟩

/-- Adds an edge from `start` to a target; the direction holds for this edge only. -/
def addEdge (b : Builder) (start : String) (edge : EdgeSpec) (target : Target) : Builder :=
  let name := target.name (vertexName b.vertexCount)
  let (b, edgeVar) := (b.addTarget target).nameEdge edge
  let b := b.addFilter? (edge.label.map fun label =>
    .binary (.compare .eq) (.labelOf edgeVar.name) (.str label))
  { b with
    query := { b.query with
      connections := b.query.connections ++ [connect b.direction start name edgeVar] }
    direction := .outgoing }

/-- Adds predicates on a variable; there has to be at least one. -/
def addPredicates (b : Builder) (var : String) (predicates : List Predicate) : Builder :=
  match Predicate.exprsList var predicates with
  | [] => { b with error := some .noPredicate }
  | exprs => { b with query := { b.query with constraints := b.query.constraints ++ exprs } }

/-- Performs a call. -/
def step (b : Builder) : Call → Builder
  | .matchVertex target => if b.error.isSome then b else b.addTarget target
  | .whereEdge edge target =>
    if b.error.isSome then b
    else
      match b.last with
      | none => { b with error := some .edgeWithoutStart }
      | some start => b.addEdge start edge target
  | .direction direction => { b with direction := direction }
  | .whereVar var predicates => if b.error.isSome then b else b.addPredicates var predicates
  | .filter e => b.addFilter e
  | .groupBy e name =>
    { b with query := { b.query with groupBy := b.query.groupBy ++ [⟨e, name⟩] } }
  | .select elems => { b with query := { b.query with projection := elems } }
  | .orderBy e ascending =>
    { b with query := { b.query with orderBy := b.query.orderBy ++ [⟨e, ascending⟩] } }
  | .limit n => { b with query := { b.query with limit := some n } }
  | .offset n => { b with query := { b.query with offset := some n } }

/-- Performs calls one after the other. -/
def run (calls : List Call) : Builder :=
  calls.foldl step empty

/-- The query, unless a mistake was made or an edge has the name of a listed vertex. -/
def build (b : Builder) : Except PlanError Query :=
  match b.error with
  | some e => .error e
  | none =>
    match b.query.connections.find? fun c => hasVertex b.query c.edge.name with
    | some c => .error (.vertexAndEdge c.edge.name)
    | none => .ok b.query

end Builder

end GraphPlan
