import GraphPlan.Pattern.Component
import GraphPlan.Plan.Columns

/-!
# Filters

A filter is linked to the components that hold its variables. One whose variables lie in a single
component is applied as soon as they are all bound; one that touches two components becomes the
predicate of their join. A basic filter, one that tests the label of a variable or compares one of
its attributes with a literal, can also start the plan of a component by itself.
-/

namespace GraphPlan

/-- A filter and the components that it touches. -/
structure Constraint where
  /-- The expression with what it needs. -/
  info : ExprInfo
  /-- The components that hold its variables. -/
  linked : List GroupId
deriving Inhabited

/-- The value of a literal that a scan can compare with. -/
def Expr.scanValue? : Expr → Option ScanValue
  | .str value => some (.str value)
  | .int value => some (.int value)
  | .decimal value => some (.decimal value)
  | .bool value => some (.bool value)
  | _ => none

namespace Constraint

/-- The filter with the given expression, linked to nothing. Bare names of pattern variables count
as uses of the variables; aggregates are refused. -/
def ofExpr (e : Expr) (r : Registry) : Except PlanError Constraint :=
  let info := e.analyze .preGroup
  if info.usage.hasAggregates then
    .error (.unsupported .aggregateInFilter e)
  else
    .ok ⟨{ info with usage := info.usage.promote r }, []⟩

/-- The expression of the filter. -/
def expr (c : Constraint) : Expr :=
  c.info.expr

/-- What the filter needs. -/
def usage (c : Constraint) : Usage :=
  c.info.usage

/-- The number of its variables that are not bound yet. -/
def pending (c : Constraint) : Nat :=
  c.usage.pending

/-- The only variable of the filter, if there is exactly one. -/
def subject? (c : Constraint) : Option String :=
  match c.usage.vars.entries with
  | [(name, _)] => some name
  | _ => none

/-! ## Basic filters -/

/-- The scan that a comparison of an attribute with a literal amounts to. -/
def comparisonScan? (scope : String) (op : BinaryOp) (lhs rhs : Expr) : Option Operator :=
  match lhs with
  | .prop _ attr => do
    return .scanAttribute scope attr (← op.comparison?) (← rhs.scanValue?)
  | _ => none

/-- The scan that the filter amounts to, if it is basic. -/
def scan? (c : Constraint) (scope : String) : Option Operator :=
  match c.usage.vars.entries with
  | [(_, use)] =>
    if 1 < c.usage.labels.size then
      none
    else
      match c.expr with
      | .hasLabel _ label => some (.scanLabel label)
      | .binary op lhs rhs =>
        if c.usage.labels.size = 0 ∧ use.labelChecked = false ∧ use.attributes.size = 1 then
          comparisonScan? scope op lhs rhs
        else
          none
      | _ => none
  | _ => none

/-- Whether the filter can start a plan by itself. The scope makes no difference to that. -/
def isBasic (c : Constraint) : Bool :=
  (c.scan? "GLOBAL").isSome

/-- The plan that a basic filter starts: a scan that binds its variable. -/
def seed? (c : Constraint) (config : Config) : Option Plan := do
  let op ← c.scan? config.attributeScope
  let var ← c.subject?
  return { Plan.seed op with schema := Schema.empty.addVariable var }

/-! ## Links to components -/

/-- Whether one of the variables of the filter belongs to a component. -/
def touches (c : Constraint) (g : Component) : Bool :=
  c.usage.vars.names.any g.contains

/-- Links the filter to the components that hold its variables. -/
def link (c : Constraint) (groups : List Component) : Constraint :=
  { c with linked := (groups.filter c.touches).map Component.id }

/-- Replaces the first link to `absorbed` by one to `survivor`, or drops it if there is one already.
-/
def replaceLink (absorbed survivor : GroupId) (linked : List GroupId) : List GroupId :=
  if linked.contains survivor then linked.erase absorbed
  else linked.replace absorbed survivor

/-- Follows the absorption of a component by another one. -/
def replaceGroup (c : Constraint) (absorbed survivor : GroupId) : Constraint :=
  { c with linked := replaceLink absorbed survivor c.linked }

/-- Records that variables were bound. -/
def markAvailable (c : Constraint) (vars : List String) : Constraint :=
  { c with info := { c.info with usage := c.usage.markAvailable vars } }

/-! ## Application -/

/-- Filters the rows of a plan. -/
def apply (c : Constraint) (config : Config) : PlanM Unit := do
  modify (Plan.fetch config.attributeScope c.usage)
  let predicate ← PlanM.ofExcept (c.expr.resolve ⟨(← get).schema, none⟩)
  modify (·.wrap (.select predicate))

/-- Joins a plan with another one, the filter being the predicate. -/
def applyJoin (c : Constraint) (config : Config) (right : Plan) : PlanM Unit := do
  modify (Plan.fetch config.attributeScope c.usage)
  let right := right.fetch config.attributeScope c.usage
  let predicate ← PlanM.ofExcept (c.expr.resolve ⟨(← get).schema, some right.schema⟩)
  PlanM.onSchema (Schema.append right.schema)
  modify (·.combine (.join predicate config.joinType) right.root)

end Constraint

end GraphPlan
