import GraphPlan.Algebra.Scalar

/-!
# Operators of the algebra

An operator takes the rows of its inputs and gives new rows; columns are addressed by position. The
text of an operator contains the texts of its inputs. `Operator.properties` lists the arguments of
an operator by name, for explain trees and for hashing.
-/

namespace GraphPlan

/-- A literal that a scan compares an attribute with. -/
inductive ScanValue where
  /-- A string. -/
  | str (value : String)
  /-- An integer. -/
  | int (value : Int64)
  /-- A decimal. -/
  | decimal (value : Binary64)
  /-- A truth value. -/
  | bool (value : Bool)
deriving DecidableEq, Inhabited

/-- The text of a literal in a scan; decimals are marked. -/
def ScanValue.text : ScanValue → String
  | str value => Expr.quoted value
  | int value => intText value.toInt
  | decimal value => Layout.expression.text value ++ "F"
  | bool value => if value then "True" else "False"

/-- Which edges of a vertex are followed. -/
inductive Direction where
  /-- Those that leave it. -/
  | outgoing
  /-- Those that enter it. -/
  | ingoing
deriving DecidableEq, Inhabited

/-- The word for a direction. -/
def Direction.keyword : Direction → String
  | outgoing => "OUTGOING"
  | ingoing => "INGOING"

/-- An aggregate that grouping computes. -/
inductive Aggregation where
  /-- Over all rows of a group. -/
  | all (kind : AggregateKind)
  /-- Over the values of a column. -/
  | column (kind : AggregateKind) (position : Nat)
  /-- An aggregate that the caller has written in the algebra. -/
  | verbatim (text : String)
deriving DecidableEq, Inhabited

/-- The text of an aggregate. -/
def Aggregation.text : Aggregation → String
  | all kind => aggregateCall kind "ALL"
  | column kind position => aggregateCall kind (Nat.repr position)
  | verbatim text => text
where
  /-- An aggregate function applied to an argument. -/
  aggregateCall (kind : AggregateKind) (arg : String) : String :=
    kind.name ++ "(" ++ arg ++ ")"

/-- The operators. -/
inductive Operator where
  /-- Every vertex of the graph. No input. -/
  | scanNodes
  /-- Every object with a label. No input. -/
  | scanLabel (label : String)
  /-- Every object with an attribute that compares with a literal as stated. No input. -/
  | scanAttribute (scope attr : String) (op : Comparison) (value : ScanValue)
  /-- Rows in which each of the given pairs of columns is equal. -/
  | matchColumns (pairs : List (Nat × Nat))
  /-- Rows that satisfy a predicate. -/
  | select (predicate : Scalar)
  /-- Adds the source and the destination of the edge in a column. -/
  | adjacent (edge : Nat)
  /-- Adds the edge and the vertex at its other end, for every edge at the vertex in a column. -/
  | explode (start : Nat) (direction : Direction)
  /-- Adds attributes of the object in a column. -/
  | getAttributes (object : Nat) (scope : String) (attrs : List String)
  /-- Adds the label of the object in a column. -/
  | getType (object : Nat)
  /-- Pairs of rows of two inputs that satisfy a predicate. -/
  | join (predicate : Scalar) (joinType : String)
  /-- All pairs of rows of two inputs. -/
  | product
  /-- Adds a computed column. -/
  | extend (resultType : String) (value : Scalar)
  /-- One row per group, with the grouping columns and the aggregates. -/
  | group (columns : List Nat) (aggregates : List Aggregation)
  /-- Rows in the order of some columns. -/
  | sort (columns : List Nat)
  /-- Rows with the listed columns only. -/
  | project (columns : List Nat)
  /-- A window of the rows. -/
  | slice (offset limit : Option UInt64)
deriving DecidableEq, Inhabited

namespace Operator

/-! ## Text -/

/-- A list of positions between brackets. -/
def positionsText (columns : List Nat) : String :=
  "[ " ++ ", ".intercalate (columns.map Nat.repr) ++ " ]"

/-- The equation of two columns. -/
def pairText (pair : Nat × Nat) : String :=
  Scalar.columnText pair.1 ++ "=" ++ Scalar.columnText pair.2

/-- A conjunction of equations; a single one has no parentheses. -/
def pairsText : List (Nat × Nat) → String
  | [pair] => pairText pair
  | pairs => " AND ".intercalate (pairs.map fun pair => "(" ++ pairText pair ++ ")")

/-- An attribute with its scope. -/
def attributeText (scope attr : String) : String :=
  scope ++ " " ++ Expr.quoted attr

/-- The aggregates of a grouping, or a word for none. -/
def aggregatesText : List Aggregation → String
  | [] => "null"
  | aggregates => ", ".intercalate (aggregates.map Aggregation.text)

/-- A bound of a window, or a word for none. -/
def boundText : Option UInt64 → String
  | some n => Nat.repr n.toNat
  | none => "NULL"

/-- The text of an operator applied to the texts of its first two inputs. -/
def text (first second : String) : Operator → String
  | scanNodes => "GRAPH::SCAN(NODES)"
  | scanLabel label => "GRAPH::SCAN(" ++ Expr.quoted label ++ ")"
  | scanAttribute scope attr op value =>
    "GRAPH::SELECT( " ++ attributeText scope attr ++ " " ++ op.symbol ++ " " ++ value.text ++ " )"
  | matchColumns pairs => "SELECT(" ++ first ++ ", " ++ pairsText pairs ++ " )"
  | select predicate => "SELECT( " ++ first ++ ", " ++ predicate.text ++ " )"
  | adjacent edge => "GRAPH::ADJACENT(" ++ first ++ ", " ++ Nat.repr edge ++ ")"
  | explode start direction =>
    "GRAPH::EXPLODE(" ++ first ++ ", " ++ Nat.repr start ++ ", [ ALL " ++ direction.keyword ++
      " ], \x7b'neighbor'=true\x7d )"
  | getAttributes object scope attrs =>
    "GRAPH::GET(" ++ first ++ ", " ++ Nat.repr object ++ ", [" ++
      ",".intercalate (attrs.map fun attr => " " ++ attributeText scope attr) ++ " ])"
  | getType object => "GRAPH::GET_TYPE( " ++ first ++ ", " ++ Nat.repr object ++ " )"
  | join predicate joinType =>
    "JOIN( " ++ first ++ ", " ++ second ++ ", " ++ predicate.text ++ ", \x7b'type'=" ++
      Expr.quoted joinType ++ "\x7d )"
  | product => "PRODUCT( " ++ first ++ ", " ++ second ++ " )"
  | extend resultType value =>
    "EXTEND( " ++ first ++ ", [ " ++ resultType ++ " ], [ " ++ resultType ++ "(" ++ value.text ++
      ") ] )"
  | group columns aggregates =>
    "GROUP( " ++ first ++ ", " ++ positionsText columns ++ ", [ " ++ aggregatesText aggregates ++
      " ])"
  | sort columns => "SORT(" ++ first ++ ", " ++ positionsText columns ++ ")"
  | project columns => "PROJECT(" ++ first ++ ", " ++ positionsText columns ++ ")"
  | slice offset limit =>
    "SLICE( " ++ first ++ ", " ++ boundText offset ++ ", " ++ boundText limit ++ " )"

/-! ## Name and properties -/

/-- The name of an operator. -/
def name : Operator → String
  | scanNodes => "ScanNodes"
  | scanLabel _ => "ScanLabel"
  | scanAttribute .. => "SelectAttribute"
  | matchColumns _ => "MatchColumns"
  | select _ => "Select"
  | adjacent _ => "Adjacent"
  | explode .. => "Explode"
  | getAttributes .. => "GetAttributes"
  | getType _ => "GetType"
  | join .. => "Join"
  | product => "Product"
  | extend .. => "Extend"
  | group .. => "Group"
  | sort _ => "Sort"
  | project _ => "Project"
  | slice .. => "Slice"

/-- A bound of a window as a property. -/
def boundProperty : Option UInt64 → String
  | some n => "Some(" ++ Nat.repr n.toNat ++ ")"
  | none => "None"

/-- The arguments of an operator by name. -/
def properties : Operator → List (String × String)
  | scanNodes => []
  | scanLabel label => [("label", label)]
  | scanAttribute scope attr op value =>
    [("attr", attributeText scope attr), ("op", op.symbol), ("value", value.text)]
  | matchColumns pairs => pairs.map fun pair => ("match", pairText pair)
  | select predicate => [("predicate", predicate.text)]
  | adjacent edge => [("edge_col", Nat.repr edge)]
  | explode start direction => [("col", Nat.repr start), ("direction", direction.keyword)]
  | getAttributes object scope attrs =>
    ("col", Nat.repr object) :: attrs.map fun attr => ("attr", attributeText scope attr)
  | getType object => [("col", Nat.repr object)]
  | join predicate joinType => [("predicate", predicate.text), ("type", joinType)]
  | product => []
  | extend resultType value => [("type", resultType), ("expr", value.text)]
  | group columns aggregates =>
    [("columns", positionsText columns),
      ("aggregates", ", ".intercalate (aggregates.map Aggregation.text))]
  | sort columns => [("columns", positionsText columns)]
  | project columns => [("columns", positionsText columns)]
  | slice offset limit => [("offset", boundProperty offset), ("limit", boundProperty limit)]

end Operator

end GraphPlan
