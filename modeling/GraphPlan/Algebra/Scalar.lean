import GraphPlan.Decimal.Hundredths
import GraphPlan.Expr.Basic

/-!
# Scalar expressions of the algebra

The algebra refers to columns by position. A `Scalar` is an expression whose references have been
resolved to positions; filters, joins and computed columns carry one. Its text puts parentheses
around every operand. Decimals are written with two places, so a scalar holds them as hundredths.
-/

namespace GraphPlan

/-- An expression over the columns of a plan. -/
inductive Scalar where
  /-- The value of a column. -/
  | column (position : Nat)
  /-- Integer literal. -/
  | int (value : Int64)
  /-- Decimal literal. -/
  | decimal (value : Hundredths)
  /-- String literal. -/
  | str (value : String)
  /-- Truth value. -/
  | bool (value : Bool)
  /-- Binary operation. -/
  | binary (op : BinaryOp) (lhs rhs : Scalar)
  /-- Unary operation. -/
  | unary (op : UnaryOp) (operand : Scalar)
  /-- Test of a label column. -/
  | isLabel (position : Nat) (label : String)
  /-- An expression that the caller has written in the algebra. -/
  | verbatim (text : String)
deriving DecidableEq, Inhabited

namespace Scalar

/-- The reference to a column. -/
def columnText (position : Nat) : String :=
  "%" ++ Nat.repr position

/-- An operand between its parentheses. -/
def parenthesized (text : String) : String :=
  "( " ++ text ++ " )"

/-- The text of a scalar. -/
def text : Scalar → String
  | column position => columnText position
  | int value => intText value.toInt
  | decimal value => value.text
  | str value => Expr.quoted value
  | bool value => if value then "TRUE" else "FALSE"
  | binary op lhs rhs =>
    parenthesized lhs.text ++ " " ++ op.symbol ++ " " ++ parenthesized rhs.text
  | unary .neg operand => "-" ++ parenthesized operand.text
  | unary .not operand => "NOT " ++ parenthesized operand.text
  | isLabel position label => columnText position ++ " = " ++ Expr.quoted label
  | verbatim text => text

/-- The positions that a scalar refers to. -/
def columns : Scalar → List Nat
  | column position => [position]
  | binary _ lhs rhs => lhs.columns ++ rhs.columns
  | unary _ operand => operand.columns
  | isLabel position _ => [position]
  | _ => []

end Scalar

end GraphPlan
