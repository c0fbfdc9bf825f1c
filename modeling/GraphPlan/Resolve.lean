import GraphPlan.Algebra.Scalar
import GraphPlan.Schema.Basic

/-!
# Resolving references

`Expr.resolve` turns an expression into a scalar over the columns of a plan. For the predicate of a
join there are two schemas: the columns of the right plan follow those of the left one, so a
reference that only the right schema has is moved by the width of the left. Aliases and aggregates
are looked up only when there is one schema.
-/

namespace GraphPlan

/-- The columns that an expression can refer to. -/
structure Scope where
  /-- The columns of the only plan, or of the left one. -/
  left : Schema
  /-- The columns of the right plan of a join. -/
  right : Option Schema

namespace Scope

/-- Looks a column up on the left, then on the right. -/
def find? (scope : Scope) (lookup : Schema → Option Nat) : Option Nat :=
  match lookup scope.left with
  | some position => some position
  | none => scope.right.bind fun right => (lookup right).map (scope.left.width + ·)

/-- Looks a name up among the aliases, then among the aggregates. -/
def alias? (scope : Scope) (name : String) : Option Nat :=
  match scope.right with
  | some _ => none
  | none => (scope.left.aliasColumn? name).or (scope.left.aggregateColumn? name)

end Scope

/-- The value, or the error if there is none. -/
def orError {α : Type} (error : PlanError) : Option α → Except PlanError α
  | some a => .ok a
  | none => .error error

namespace Expr

/-- The scalar of an expression over the columns of a scope. -/
def resolve (scope : Scope) : Expr → Except PlanError Scalar
  | ref name => do
    let position ← orError (.unknownName name)
      ((scope.find? (·.varColumn? name)).or (scope.alias? name))
    return .column position
  | prop var name => do
    let position ← orError (.attributeMissing var name)
      ((scope.find? (·.attrColumn? var name)).or (scope.alias? (prop var name).text))
    return .column position
  | int value => return .int value
  | decimal value => return .decimal value.toHundredths
  | str value => return .str value
  | bool value => return .bool value
  | null => throw (.unsupported .nullLiteral null)
  | binary .mod lhs rhs => throw (.unsupported .remainder (binary .mod lhs rhs))
  | binary op lhs rhs => do
    let left ← lhs.resolve scope
    let right ← rhs.resolve scope
    return .binary op left right
  | unary op operand => do
    return .unary op (← operand.resolve scope)
  | aggregateAll kind => do
    let text := (aggregateAll kind).text
    return .column (← orError (.aggregateMissing text) (scope.alias? text))
  | aggregate kind arg => do
    let text := (aggregate kind arg).text
    return .column (← orError (.aggregateMissing text) (scope.alias? text))
  | hasLabel var label => do
    return .isLabel (← orError (.labelMissing var) (scope.find? (·.labelColumn? var))) label
  | labelOf var => do
    return .column (← orError (.labelMissing var) (scope.find? (·.labelColumn? var)))
  | call func args => throw (.unsupported (.function func) (call func args))

end Expr

end GraphPlan
