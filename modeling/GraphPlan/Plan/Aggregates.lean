import GraphPlan.Plan.Columns

/-!
# Aggregates of a query

Grouping computes all aggregates of a query at once. They are collected from the expressions that
use them, in the order in which they are met; two aggregates with the same canonical text are one.
The argument of an aggregate gets a column before grouping.
-/

namespace GraphPlan

/-- An aggregate that grouping has to compute. -/
structure AggregateInfo where
  /-- The aggregate function. -/
  kind : AggregateKind
  /-- The canonical text of its argument; a star for all rows. -/
  source : String
  /-- The column of its argument; none for all rows. -/
  column : Option Nat
deriving DecidableEq, Inhabited

namespace AggregateInfo

/-- The canonical text of the aggregate, by which it is identified. -/
def key (a : AggregateInfo) : String :=
  aggregateText a.kind a.source

/-- The aggregate as grouping computes it. -/
def aggregation (a : AggregateInfo) : Aggregation :=
  match a.column with
  | some column => .column a.kind column
  | none => .all a.kind

end AggregateInfo

/-- A plan and the aggregates that have been collected for it. -/
structure Extraction where
  /-- The plan before grouping. -/
  plan : Plan
  /-- The aggregates in the order in which they were met. -/
  aggregates : List AggregateInfo
deriving Inhabited

/-- Actions that collect aggregates and may fail. -/
abbrev ExtractM := EStateM PlanError Extraction

namespace Extraction

/-- Whether an aggregate has been collected. -/
def contains (x : Extraction) (key : String) : Bool :=
  x.aggregates.any fun a => a.key == key

/-- Appends an aggregate. -/
def push (x : Extraction) (a : AggregateInfo) : Extraction :=
  { x with aggregates := x.aggregates ++ [a] }

/-- Changes the plan. -/
def onPlan {α : Type} (act : PlanM α) : ExtractM α := fun x =>
  match act x.plan with
  | .ok a p => .ok a { x with plan := p }
  | .error e p => .error e { x with plan := p }

end Extraction

namespace Expr

/-- Collects an aggregate over all rows, which only counts. -/
def extractAll (kind : AggregateKind) : ExtractM Unit := do
  if (← get).contains (aggregateAll kind).text then
    return
  match kind with
  | .count => modify (·.push ⟨.count, "*", none⟩)
  | _ => throw (.unsupported .wildcardAggregate (aggregateAll kind))

/-- Collects an aggregate over the values of an expression. -/
def extractOver (config : Config) (kind : AggregateKind) (arg : Expr) : ExtractM Unit := do
  if (← get).contains (aggregate kind arg).text then
    return
  let info := arg.analyze .preGroup
  if info.usage.hasAggregates then
    throw (.unsupported .nestedAggregate (aggregate kind arg))
  let column ← Extraction.onPlan (Plan.materialize config info none)
  modify (·.push ⟨kind, arg.text, some column⟩)

mutual

/-- Collects the aggregates of an expression. -/
def extract (config : Config) : Expr → ExtractM Unit
  | aggregateAll kind => extractAll kind
  | aggregate kind arg => extractOver config kind arg
  | binary _ lhs rhs => do
    lhs.extract config
    rhs.extract config
  | unary _ operand => operand.extract config
  | call _ args => extractList config args
  | _ => pure ()

/-- Collects the aggregates of several expressions. -/
def extractList (config : Config) : List Expr → ExtractM Unit
  | [] => pure ()
  | e :: es => do
    e.extract config
    extractList config es

end

end Expr

end GraphPlan
