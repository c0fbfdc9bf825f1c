import GraphPlan.Algebra.Operator

/-!
# Operator trees

A plan is a tree of operators, each over its inputs. The text of a tree shows the first two inputs
of every operator; a missing input shows as nothing.
-/

namespace GraphPlan

/-- An operator over its inputs. -/
inductive PlanNode where
  /-- The operator and its inputs in order. -/
  | node (op : Operator) (inputs : List PlanNode)
deriving Inhabited

namespace PlanNode

/-- The operator at the root. -/
def op : PlanNode → Operator
  | node op _ => op

/-- The inputs of the root. -/
def inputs : PlanNode → List PlanNode
  | node _ inputs => inputs

/-- An operator without inputs. -/
def leaf (op : Operator) : PlanNode :=
  node op []

mutual

/-- The text of a tree. -/
def text : PlanNode → String
  | node op inputs =>
    let texts := textList inputs
    op.text (texts.getD 0 "") (texts.getD 1 "")

/-- The texts of several trees. -/
def textList : List PlanNode → List String
  | [] => []
  | input :: rest => input.text :: textList rest

end

mutual

/-- The operators of a tree, parents before their inputs. -/
def operators : PlanNode → List Operator
  | node op inputs => op :: operatorsList inputs

/-- The operators of several trees. -/
def operatorsList : List PlanNode → List Operator
  | [] => []
  | input :: rest => input.operators ++ operatorsList rest

end

/-- The number of operators for which `p` holds. -/
def count (p : Operator → Bool) (t : PlanNode) : Nat :=
  t.operators.countP p

end PlanNode

end GraphPlan
