import GraphPlan.Config.Basic
import GraphPlan.Expr.Usage
import GraphPlan.Plan.Basic
import GraphPlan.Resolve

/-!
# Values as columns

`Plan.fetch` adds the attributes and labels that an expression needs and the plan does not have yet.
`Plan.materialize` makes sure that the value of an expression has a column: it takes one that is
there already, and otherwise computes a new one.
-/

namespace GraphPlan

namespace Plan

/-- Adds columns for the attributes of a variable that have none yet, all fetched at once from the
column of the variable. -/
def fetchAttributes (scope var : String) (column : Nat) (attrs : List String) (p : Plan) : Plan :=
  match attrs.filter fun attr => !p.schema.hasAttribute var attr with
  | [] => p
  | missing =>
    { p with schema := missing.foldl (fun s attr => s.addAttribute var attr) p.schema }.wrap
      (.getAttributes column scope missing)

/-- Adds a column for the label of a variable if it has none yet. -/
def fetchLabel (var : String) (column : Nat) (p : Plan) : Plan :=
  if p.schema.hasLabel var then p
  else { p with schema := p.schema.addLabel var }.wrap (.getType column)

/-- Adds what an expression needs from one variable, if the plan binds the variable. -/
def fetchVariable (scope var : String) (use : VariableUse) (p : Plan) : Plan :=
  match p.schema.varColumn? var with
  | none => p
  | some column =>
    let p := p.fetchAttributes scope var column use.attributes.names
    if use.labelChecked then p.fetchLabel var column else p

/-- Adds what an expression needs from the variables that the plan binds. -/
def fetch (scope : String) (usage : Usage) (p : Plan) : Plan :=
  usage.vars.entries.foldl (fun p (var, use) => p.fetchVariable scope var use) p

/-- Adds a computed column. -/
def extend (resultType : String) (value : Scalar) (p : Plan) : Plan :=
  { p with schema := p.schema.addComputed }.wrap (.extend resultType value)

end Plan

namespace Schema

/-- The column that holds the value of an expression already. -/
def existing? (s : Schema) (e : Expr) : Option Nat :=
  match e with
  | .prop var name => (s.attrColumn? var name).or (s.aliasColumn? e.text)
  | .ref name => (s.varColumn? name).or (s.aliasColumn? name)
  | _ => s.aliasColumn? e.text

end Schema

namespace Plan

/-- The column of an expression, which is computed if there is none. -/
def columnOf (config : Config) (info : ExprInfo) : PlanM Nat := do
  modify (Plan.fetch config.attributeScope info.usage)
  let plan ← get
  match plan.schema.existing? info.expr with
  | some column => return column
  | none =>
    let value ← PlanM.ofExcept (info.expr.resolve ⟨plan.schema, none⟩)
    modify (Plan.extend config.extendResultType value)
    return plan.schema.width

/-- The column of an expression, for which a name is declared if one is given. -/
def materialize (config : Config) (info : ExprInfo) (name : Option String) : PlanM Nat := do
  let column ← columnOf config info
  match name with
  | some name => PlanM.onSchema (Schema.setAlias name column)
  | none => pure ()
  return column

end Plan

end GraphPlan
