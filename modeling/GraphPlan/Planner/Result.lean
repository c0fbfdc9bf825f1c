import GraphPlan.Plan.Aggregates

/-!
# From matches to results

The plan of a pattern gives one row per match. Grouping, projection, order and the window of rows
are put on top of it, in this order. Values get columns under their canonical text, so that a later
expression with the same text finds them.
-/

namespace GraphPlan

namespace Plan

/-- Gives every grouping key a column under its name and its text; gives the columns. -/
def groupColumns (config : Config) : List GroupKey → PlanM (List Nat)
  | [] => pure []
  | key :: keys => do
    let info := key.expr.analyze .preGroup
    if info.usage.hasAggregates then
      throw (.unsupported .aggregateInGroupBy key.expr)
    let column ← materialize config info (some key.name)
    PlanM.onSchema (Schema.setAlias key.expr.text column)
    let columns ← groupColumns config keys
    return column :: columns

/-- Groups the rows, unless there is nothing to group by and nothing to compute. -/
def group (columns : List Nat) (aggregates : List AggregateInfo) : PlanM Unit := do
  if columns.isEmpty && aggregates.isEmpty then
    return
  modify (·.wrap (.group columns (aggregates.map AggregateInfo.aggregation)))
  let _ ← PlanM.onSchema (Schema.reduce columns)
  modify fun p =>
    { p with schema := aggregates.foldl (fun s a => s.addAggregate a.kind a.source) p.schema }

/-- Declares a name for a column, if there is one. -/
def setAlias? (name : Option String) (column : Nat) : PlanM Unit :=
  match name with
  | some name => PlanM.onSchema (Schema.setAlias name column)
  | none => pure ()

/-- Gives every result a column under its text and its name; gives the columns. -/
def projectionColumns (config : Config) : List ProjectionElem → PlanM (List Nat)
  | [] => pure []
  | elem :: elems => do
    let column ← materialize config (elem.expr.analyze .postGroup) none
    PlanM.onSchema (Schema.setAlias elem.expr.text column)
    setAlias? elem.name column
    let columns ← projectionColumns config elems
    return column :: columns

/-- Gives every sort key a column; gives the columns. -/
def orderColumns (config : Config) : List OrderElem → PlanM (List Nat)
  | [] => pure []
  | elem :: elems => do
    if !elem.ascending then
      throw (.unsupported .descendingOrder elem.expr)
    let column ← materialize config (elem.expr.analyze .postGroup) none
    let columns ← orderColumns config elems
    return column :: columns

/-- Sorts the rows, if there are sort keys. -/
def order (config : Config) (elems : List OrderElem) : PlanM Unit := do
  let columns ← orderColumns config elems
  if !columns.isEmpty then
    modify (·.wrap (.sort columns))

/-- Keeps the projected columns, if there is a projection. -/
def project (columns : List Nat) : PlanM Unit := do
  if columns.isEmpty then
    return
  modify (·.wrap (.project columns))
  let _ ← PlanM.onSchema (Schema.reduce columns)

/-- Keeps a window of the rows, if a bound is given. -/
def slice (offset limit : Option UInt64) (p : Plan) : Plan :=
  if offset.isSome || limit.isSome then p.wrap (.slice offset limit) else p

end Plan

/-- Collects the aggregates of several expressions at a stage. -/
def extractAt (stage : Stage) (config : Config) (exprs : List Expr) (x : Extraction) :
    Except Failure Extraction :=
  match Expr.extractList config exprs x with
  | .ok _ x => .ok x
  | .error e _ => .error ⟨stage, e⟩

namespace Plan

/-- Puts grouping, projection, order and window of a query on top of a plan. -/
def finish (config : Config) (q : Query) (p : Plan) : Except Failure Plan := do
  let (groupBy, p) ← atStage .groupBy (PlanM.exec (groupColumns config q.groupBy) p)
  let x ← extractAt .projection config (q.projection.map ProjectionElem.expr) ⟨p, []⟩
  let x ← extractAt .orderBy config (q.orderBy.map OrderElem.expr) x
  let (_, p) ← atStage .groupBy (PlanM.exec (group groupBy x.aggregates) x.plan)
  let (projected, p) ← atStage .projection (PlanM.exec (projectionColumns config q.projection) p)
  let (_, p) ← atStage .orderBy (PlanM.exec (order config q.orderBy) p)
  let (_, p) ← atStage .finalProjection (PlanM.exec (project projected) p)
  return p.slice q.offset q.limit

end Plan

end GraphPlan
