import GraphPlan.Algebra.Tree
import GraphPlan.Schema.Basic

/-!
# Plans under construction

A plan is an operator tree together with the schema of its columns. Both grow in step: `wrap` puts
an operator on top of the tree, `combine` joins it with another tree. `PlanM` actions may fail and
return the plan that they leave behind also with an error.
-/

namespace GraphPlan

/-- An operator tree and the columns that it produces. -/
structure Plan where
  /-- The tree. -/
  root : PlanNode
  /-- The columns. -/
  schema : Schema
deriving Inhabited

/-- Actions that change a plan and may fail. -/
abbrev PlanM := EStateM PlanError Plan

namespace Plan

/-- A single operator without inputs, and no columns yet. -/
def seed (op : Operator) : Plan :=
  ⟨.leaf op, .empty⟩

/-- Puts an operator on top of the tree. -/
def wrap (p : Plan) (op : Operator) : Plan :=
  { p with root := .node op [p.root] }

/-- Puts an operator on top of the tree and another one. -/
def combine (p : Plan) (op : Operator) (other : PlanNode) : Plan :=
  { p with root := .node op [p.root, other] }

/-- The text of the tree. -/
def text (p : Plan) : String :=
  p.root.text

end Plan

namespace PlanM

/-- Changes the schema of the plan. -/
def onSchema {α : Type} (act : SchemaM α) : PlanM α := fun p =>
  match act p.schema with
  | .ok a s => .ok a { p with schema := s }
  | .error e s => .error e { p with schema := s }

/-- Stops with an error. -/
def ofExcept {α : Type} : Except PlanError α → PlanM α
  | .ok a => pure a
  | .error e => throw e

/-- The result of an action on a plan, without the plan that a failing action leaves behind. -/
def exec {α : Type} (act : PlanM α) (p : Plan) : Except PlanError (α × Plan) :=
  match act p with
  | .ok a p => .ok (a, p)
  | .error e _ => .error e

end PlanM

end GraphPlan
