import GraphPlan.Expr.Basic
import GraphPlan.Json.Reader

/-!
# Expressions in JSON

An expression is an object whose field `kind` says which expression it is; the other fields hold its
parts. It may also be an array of the kind followed by the parts. All of an expression is read
before its kind is looked at, so that everything inside has to be readable, unknown fields included.
-/

namespace GraphPlan

/-- Names of binary operators in JSON. -/
def BinaryOp.jsonNames : List (String × BinaryOp) :=
  [("add", .add), ("sub", .sub), ("mul", .mul), ("div", .div), ("mod", .mod), ("and", .and),
    ("or", .or), ("eq", .compare .eq), ("ne", .compare .ne), ("gt", .compare .gt),
    ("ge", .compare .ge), ("lt", .compare .lt), ("le", .compare .le)]

/-- The name of a comparison in JSON. -/
def Comparison.jsonName : Comparison → String
  | eq => "eq"
  | ne => "ne"
  | gt => "gt"
  | ge => "ge"
  | lt => "lt"
  | le => "le"

/-- The name of a binary operator in JSON. -/
def BinaryOp.jsonName : BinaryOp → String
  | add => "add"
  | sub => "sub"
  | mul => "mul"
  | div => "div"
  | mod => "mod"
  | and => "and"
  | or => "or"
  | compare c => c.jsonName

/-- Names of unary operators in JSON. -/
def UnaryOp.jsonNames : List (String × UnaryOp) :=
  [("neg", .neg), ("not", .not)]

/-- The name of a unary operator in JSON. -/
def UnaryOp.jsonName : UnaryOp → String
  | neg => "neg"
  | not => "not"

/-- Names of aggregate functions in JSON. -/
def AggregateKind.jsonNames : List (String × AggregateKind) :=
  [("count", .count), ("min", .min), ("max", .max), ("sum", .sum), ("avg", .avg)]

/-- The name of an aggregate function in JSON. -/
def AggregateKind.jsonName : AggregateKind → String
  | count => "count"
  | min => "min"
  | max => "max"
  | sum => "sum"
  | avg => "avg"

/-- Names of built-in functions in JSON. -/
def Builtin.jsonNames : List (String × Builtin) :=
  [("id", .id), ("regex", .regex), ("has_prop", .hasProp), ("vertex_labels", .vertexLabels),
    ("in_degree", .inDegree), ("out_degree", .outDegree)]

/-- The name of a built-in function in JSON. -/
def Builtin.jsonName : Builtin → String
  | id => "id"
  | regex => "regex"
  | hasProp => "has_prop"
  | vertexLabels => "vertex_labels"
  | inDegree => "in_degree"
  | outDegree => "out_degree"

namespace Expr

open GraphPlan (Json)

/-! ## Writing -/

mutual

/-- The JSON form of an expression, its kind first. -/
def toJson : Expr → Json
  | ref name => Json.ofFields [("kind", .ofString "var_ref"), ("name", .ofString name)]
  | prop var name =>
    Json.ofFields
      [("kind", .ofString "prop_access"), ("var", .ofString var), ("prop", .ofString name)]
  | int value => Json.ofFields [("kind", .ofString "int"), ("value", .ofInt value.toInt)]
  | decimal value => Json.ofFields [("kind", .ofString "decimal"), ("value", .ofBinary64 value)]
  | str value => Json.ofFields [("kind", .ofString "str"), ("value", .ofString value)]
  | bool value => Json.ofFields [("kind", .ofString "bool"), ("value", .bool value)]
  | null => Json.ofFields [("kind", .ofString "null")]
  | binary op lhs rhs =>
    Json.ofFields
      [("kind", .ofString "binary"), ("op", .ofString op.jsonName), ("lhs", lhs.toJson),
        ("rhs", rhs.toJson)]
  | unary op operand =>
    Json.ofFields
      [("kind", .ofString "unary"), ("op", .ofString op.jsonName), ("expr", operand.toJson)]
  | aggregateAll kind =>
    Json.ofFields
      [("kind", .ofString "aggregate"), ("func", .ofString kind.jsonName), ("arg", .null)]
  | aggregate kind arg =>
    Json.ofFields
      [("kind", .ofString "aggregate"), ("func", .ofString kind.jsonName), ("arg", arg.toJson)]
  | hasLabel var label =>
    Json.ofFields
      [("kind", .ofString "has_label"), ("var", .ofString var), ("label", .ofString label)]
  | labelOf var => Json.ofFields [("kind", .ofString "edge_label"), ("var", .ofString var)]
  | call func args =>
    Json.ofFields
      [("kind", .ofString "call"), ("func", .ofString func.jsonName),
        ("args", .arr (listToJson args))]

/-- The JSON forms of several expressions. -/
def listToJson : List Expr → List Json
  | [] => []
  | e :: es => e.toJson :: listToJson es

end

/-! ## Reading -/

/-- The kinds of expressions that JSON tells apart. -/
inductive Kind where
  /-- A bare reference. -/
  | ref
  /-- A property. -/
  | prop
  /-- An integer. -/
  | int
  /-- A decimal. -/
  | decimal
  /-- A string. -/
  | str
  /-- A truth value. -/
  | bool
  /-- The missing value. -/
  | null
  /-- A binary operation. -/
  | binary
  /-- A unary operation. -/
  | unary
  /-- An aggregate. -/
  | aggregate
  /-- A label test. -/
  | hasLabel
  /-- The label of a variable. -/
  | labelOf
  /-- A call. -/
  | call
deriving DecidableEq

/-- The names of the kinds, in the order of their numbers. -/
def kindNames : List (String × Kind) :=
  [("var_ref", .ref), ("prop_access", .prop), ("int", .int), ("decimal", .decimal), ("str", .str),
    ("bool", .bool), ("null", .null), ("binary", .binary), ("unary", .unary),
    ("aggregate", .aggregate), ("has_label", .hasLabel), ("edge_label", .labelOf), ("call", .call)]

/-- The kind that a tag names. Inside another expression a tag may be the number of a kind. -/
def kindOfTag (inner : Bool) : Json → Option Kind
  | .str raw => do
    kindNames.lookup (← Json.text? (.str raw))
  | .num n => do
    let i ← n.toInt?
    if inner ∧ 0 ≤ i then (kindNames[i.toNat]?).map Prod.snd else none
  | _ => none

/-- The kind of an expression and the value that holds its parts. -/
def tagged (inner : Bool) : Json → Option (Kind × Json)
  | .arr (tag :: parts) => do
    return (← kindOfTag inner tag, .arr parts)
  | .obj fields => do
    let tag ← Json.slot (← Json.namedFields fields) "kind"
    return (← kindOfTag inner (← tag), .obj fields)
  | _ => none

/-- Reads an expression of a known kind from its parts; `expr` and `exprs` read the expressions
inside. -/
def readParts (depth : Nat) (expr : Json → Option Expr) (exprs : Json → Option (List Expr)) :
    Kind → Json → Option Expr
  | .ref, body => do
    match ← Json.slots ["name"] body with
    | [name] => return .ref (← Json.required .text depth name)
    | _ => none
  | .prop, body => do
    match ← Json.slots ["var", "prop"] body with
    | [var, name] =>
      return .prop (← Json.required .text depth var) (← Json.required .text depth name)
    | _ => none
  | .int, body => do
    match ← Json.slots ["value"] body with
    | [value] => return .int (← Json.required .int64 depth value)
    | _ => none
  | .decimal, body => do
    match ← Json.slots ["value"] body with
    | [value] => return .decimal (← Json.required .binary64 depth value)
    | _ => none
  | .str, body => do
    match ← Json.slots ["value"] body with
    | [value] => return .str (← Json.required .text depth value)
    | _ => none
  | .bool, body => do
    match ← Json.slots ["value"] body with
    | [value] => return .bool (← Json.required .bool depth value)
    | _ => none
  | .null, body => do
    match ← Json.slots [] body with
    | _ => return .null
  | .binary, body => do
    match ← Json.slots ["op", "lhs", "rhs"] body with
    | [op, lhs, rhs] =>
      let op ← Json.required (.oneOfLenient BinaryOp.jsonNames) depth op
      return .binary op (← expr (← lhs)) (← expr (← rhs))
    | _ => none
  | .unary, body => do
    match ← Json.slots ["op", "expr"] body with
    | [op, operand] =>
      let op ← Json.required (.oneOfLenient UnaryOp.jsonNames) depth op
      return .unary op (← expr (← operand))
    | _ => none
  | .aggregate, body => do
    match ← Json.slots ["func", "arg"] body with
    | [func, arg] =>
      let kind ← Json.required (.oneOfLenient AggregateKind.jsonNames) depth func
      match arg with
      | none | some .null => return .aggregateAll kind
      | some arg => return .aggregate kind (← expr arg)
    | _ => none
  | .hasLabel, body => do
    match ← Json.slots ["var", "label"] body with
    | [var, label] =>
      return .hasLabel (← Json.required .text depth var) (← Json.required .text depth label)
    | _ => none
  | .labelOf, body => do
    match ← Json.slots ["var"] body with
    | [var] => return .labelOf (← Json.required .text depth var)
    | _ => none
  | .call, body => do
    match ← Json.slots ["func", "args"] body with
    | [func, args] =>
      let func ← Json.required (.oneOfLenient Builtin.jsonNames) depth func
      match args with
      | none => return .call func []
      | some args => return .call func (← exprs args)
    | _ => none

mutual

/-- Reads an expression whose content is known to be readable; `inner` says whether it stands inside
another expression. -/
def read : Nat → Bool → Json → Option Expr
  | 0, _, _ => none
  | depth + 1, inner, j => do
    let (kind, body) ← tagged inner j
    readParts depth (read depth true) (readList depth) kind body

/-- Reads the arguments of a call. -/
def readList : Nat → Json → Option (List Expr)
  | depth + 1, .arr items => items.mapM (read depth true)
  | _, _ => none

end

/-- Reads an expression. -/
def reader : Json.Reader Expr := fun depth j =>
  if j.readable depth then read depth false j else none

end Expr

end GraphPlan
