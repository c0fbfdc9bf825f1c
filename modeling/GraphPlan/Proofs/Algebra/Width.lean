import GraphPlan.Algebra.Tree
import GraphPlan.Proofs.Resolve

/-!
# Widths and positions in operator trees

Columns have no names in the algebra: an operator refers to the columns of its inputs by position,
those of a second input following those of the first. The width of a tree is the number of columns
of its rows. A node fits when it has as many inputs as its operator takes and refers only to columns
that the inputs have.
-/

namespace GraphPlan

namespace Aggregation

/-- The positions that an aggregate refers to. -/
def positions : Aggregation → List Nat
  | column _ position => [position]
  | _ => []

/-- The aggregate is no text that a caller has written. -/
def explicit : Aggregation → Bool
  | verbatim _ => false
  | _ => true

end Aggregation

namespace Operator

/-- The number of inputs. -/
def arity : Operator → Nat
  | scanNodes => 0
  | scanLabel _ => 0
  | scanAttribute .. => 0
  | join .. => 2
  | product => 2
  | _ => 1

/-- The positions that an operator refers to. -/
def positions : Operator → List Nat
  | scanNodes => []
  | scanLabel _ => []
  | scanAttribute .. => []
  | matchColumns pairs => pairs.flatMap fun pair => [pair.1, pair.2]
  | select predicate => predicate.columns
  | adjacent edge => [edge]
  | explode start _ => [start]
  | getAttributes object _ _ => [object]
  | getType object => [object]
  | join predicate _ => predicate.columns
  | product => []
  | extend _ value => value.columns
  | group columns aggregates => columns ++ aggregates.flatMap Aggregation.positions
  | sort columns => columns
  | project columns => columns
  | slice _ _ => []

/-- No argument of the operator is text that a caller has written, so `positions` misses none. -/
def explicit : Operator → Bool
  | select predicate => predicate.explicit
  | join predicate _ => predicate.explicit
  | extend _ value => value.explicit
  | group _ aggregates => aggregates.all Aggregation.explicit
  | _ => true

/-- The number of columns, given that of the inputs together. -/
def width (input : Nat) : Operator → Nat
  | scanNodes => 1
  | scanLabel _ => 1
  | scanAttribute .. => 1
  | matchColumns _ => input
  | select _ => input
  | adjacent _ => input + 2
  | explode _ _ => input + 2
  | getAttributes _ _ attrs => input + attrs.length
  | getType _ => input + 1
  | join _ _ => input
  | product => input
  | extend _ _ => input + 1
  | group columns aggregates => columns.length + aggregates.length
  | sort _ => input
  | project columns => columns.length
  | slice _ _ => input

end Operator

namespace PlanNode

mutual

/-- The number of columns of a tree. -/
def width : PlanNode → Nat
  | node op inputs => op.width (widthSum inputs)

/-- The number of columns of several trees together. -/
def widthSum : List PlanNode → Nat
  | [] => 0
  | t :: ts => t.width + widthSum ts

end

mutual

/-- The tree and all trees below it. -/
def subtrees : PlanNode → List PlanNode
  | node op inputs => node op inputs :: subtreesList inputs

/-- The trees of a list and all trees below them. -/
def subtreesList : List PlanNode → List PlanNode
  | [] => []
  | t :: ts => t.subtrees ++ subtreesList ts

end

/-- The node at the root has the right number of inputs and refers to columns that they have. -/
structure Fits (t : PlanNode) : Prop where
  /-- The number of inputs is right. -/
  arity : t.inputs.length = t.op.arity
  /-- All references are known. -/
  explicit : t.op.explicit = true
  /-- The columns exist. -/
  positions_lt : ∀ i ∈ t.op.positions, i < widthSum t.inputs

end PlanNode

/-- A scalar that reads columns refers to them. -/
theorem Expr.Reads.inRange {cs : List Content} {e : Expr} {t : Scalar} (h : Expr.Reads cs e t) :
    (∀ i ∈ t.columns, i < cs.length) ∧ t.explicit = true := by
  induction h with
  | ref h | prop h | hasLabel h | labelOf h =>
    refine ⟨fun i hi => ?_, rfl⟩
    rw [List.mem_singleton.1 hi]
    exact Scope.lt_length_of_getElem? h
  | int | decimal | str | bool => exact ⟨nofun, rfl⟩
  | binary op _ _ ihl ihr =>
    refine ⟨fun i hi => ?_, by simp [Scalar.explicit, ihl.2, ihr.2]⟩
    rcases List.mem_append.1 hi with hi | hi
    · exact ihl.1 i hi
    · exact ihr.1 i hi
  | unary op _ ih => exact ih

end GraphPlan
