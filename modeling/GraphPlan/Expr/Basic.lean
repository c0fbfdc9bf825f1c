import GraphPlan.Decimal.Numeral

/-!
# Expressions of a query

Filters, grouping keys, projected values and sort keys are expressions over pattern variables. The
canonical text of an expression puts parentheses around an operand exactly when the operand is
itself a binary operation. Aliases and aggregates are identified by this text.
-/

namespace GraphPlan

/-- The six relational comparisons. -/
inductive Comparison where
  /-- `=` -/
  | eq
  /-- `<>` -/
  | ne
  /-- `>` -/
  | gt
  /-- `>=` -/
  | ge
  /-- `<` -/
  | lt
  /-- `<=` -/
  | le
deriving DecidableEq, Inhabited

/-- The spelling of a comparison, in queries and in the algebra alike. -/
def Comparison.symbol : Comparison → String
  | eq => "="
  | ne => "<>"
  | gt => ">"
  | ge => ">="
  | lt => "<"
  | le => "<="

/-- Binary operators. -/
inductive BinaryOp where
  /-- `+` -/
  | add
  /-- `-` -/
  | sub
  /-- `*` -/
  | mul
  /-- `/` -/
  | div
  /-- `%`, which the algebra cannot express. -/
  | mod
  /-- `AND` -/
  | and
  /-- `OR` -/
  | or
  /-- A comparison. -/
  | compare (c : Comparison)
deriving DecidableEq, Inhabited

namespace BinaryOp

/-- The spelling of an operator. -/
def symbol : BinaryOp → String
  | add => "+"
  | sub => "-"
  | mul => "*"
  | div => "/"
  | mod => "%"
  | and => "AND"
  | or => "OR"
  | compare c => c.symbol

/-- The comparison that an operator is, if it is one. -/
def comparison? : BinaryOp → Option Comparison
  | compare c => some c
  | _ => none

/-- Whether the operator is a relational comparison. -/
def isComparison (op : BinaryOp) : Bool :=
  op.comparison?.isSome

end BinaryOp

/-- Unary operators. -/
inductive UnaryOp where
  /-- Arithmetic negation. -/
  | neg
  /-- Logical negation. -/
  | not
deriving DecidableEq, Inhabited

/-- Aggregate functions. -/
inductive AggregateKind where
  /-- Number of rows or values. -/
  | count
  /-- Least value. -/
  | min
  /-- Greatest value. -/
  | max
  /-- Sum of the values. -/
  | sum
  /-- Mean of the values. -/
  | avg
deriving DecidableEq, Inhabited

/-- The spelling of an aggregate function. -/
def AggregateKind.name : AggregateKind → String
  | count => "COUNT"
  | min => "MIN"
  | max => "MAX"
  | sum => "SUM"
  | avg => "AVG"

/-- Functions that queries may call and the algebra has no operator for. -/
inductive Builtin where
  /-- Identifier of an object. -/
  | id
  /-- Match against a pattern. -/
  | regex
  /-- Presence of a property. -/
  | hasProp
  /-- Labels of a vertex. -/
  | vertexLabels
  /-- Number of incoming edges. -/
  | inDegree
  /-- Number of outgoing edges. -/
  | outDegree
deriving DecidableEq, Inhabited

/-- The name of a function in a query. -/
def Builtin.name : Builtin → String
  | id => "id"
  | regex => "regex"
  | hasProp => "has_prop"
  | vertexLabels => "labels"
  | inDegree => "in_degree"
  | outDegree => "out_degree"

/-- Expressions. -/
inductive Expr where
  /-- Bare reference to a pattern variable or an alias. -/
  | ref (name : String)
  /-- Property of a variable. -/
  | prop (var : String) (name : String)
  /-- Integer literal. -/
  | int (value : Int64)
  /-- Decimal literal. -/
  | decimal (value : Binary64)
  /-- String literal. -/
  | str (value : String)
  /-- Truth value. -/
  | bool (value : Bool)
  /-- The missing value. -/
  | null
  /-- Binary operation. -/
  | binary (op : BinaryOp) (lhs rhs : Expr)
  /-- Unary operation. -/
  | unary (op : UnaryOp) (operand : Expr)
  /-- Aggregate over all rows, `COUNT(*)`. -/
  | aggregateAll (kind : AggregateKind)
  /-- Aggregate over the values of an expression. -/
  | aggregate (kind : AggregateKind) (arg : Expr)
  /-- Label test on a variable. -/
  | hasLabel (var : String) (label : String)
  /-- Label of a variable. -/
  | labelOf (var : String)
  /-- Call of a built-in function. -/
  | call (func : Builtin) (args : List Expr)
deriving Inhabited

namespace Expr

/-- Whether the canonical text is parenthesised as an operand. -/
def isBinary : Expr → Bool
  | binary .. => true
  | _ => false

/-- A string literal as written: no character is escaped. -/
def quoted (s : String) : String :=
  "'" ++ s ++ "'"

/-- The text of an operand. -/
def operandText (isBinary : Bool) (text : String) : String :=
  if isBinary then "(" ++ text ++ ")" else text

mutual

/-- The canonical text. -/
def text : Expr → String
  | ref name => name
  | prop var name => var ++ "." ++ name
  | int value => intText value.toInt
  | decimal value => Layout.expression.text value
  | str value => quoted value
  | bool value => if value then "true" else "false"
  | null => "null"
  | binary op lhs rhs =>
    operandText lhs.isBinary lhs.text ++ " " ++ op.symbol ++ " " ++
      operandText rhs.isBinary rhs.text
  | unary .neg operand => "-" ++ operandText operand.isBinary operand.text
  | unary .not operand => "NOT " ++ operandText operand.isBinary operand.text
  | aggregateAll kind => kind.name ++ "(*)"
  | aggregate kind arg => kind.name ++ "(" ++ arg.text ++ ")"
  | hasLabel var label => "has_label(" ++ var ++ ", " ++ quoted label ++ ")"
  | labelOf var => "label(" ++ var ++ ")"
  | call func args => func.name ++ "(" ++ textList args ++ ")"

/-- The texts of arguments, divided by commas. -/
def textList : List Expr → String
  | [] => ""
  | [arg] => arg.text
  | arg :: args => arg.text ++ ", " ++ textList args

end

end Expr

end GraphPlan
