import GraphPlan.Expr.Basic
import GraphPlan.Pattern.Registry

/-!
# What an expression needs

Before an expression can be evaluated over a plan, the variables that it mentions must be bound and
their attributes and labels must have columns. `Expr.analyze` collects these needs. After grouping,
an aggregate is a value of its own and what it was computed from is gone, so its argument is only
looked at before grouping.

`Usage.pending` counts the variables that are not available yet.
-/

namespace GraphPlan

/-- The side of a grouping on which an expression is evaluated. -/
inductive Mode where
  /-- Before: aggregates are looked into. -/
  | preGroup
  /-- After: aggregates are values. -/
  | postGroup
deriving DecidableEq, Inhabited

/-- What an expression needs from one variable. -/
structure VariableUse where
  /-- Whether its label is looked at. -/
  labelChecked : Bool
  /-- The attributes that are looked at. -/
  attributes : NameSet
deriving DecidableEq, Inhabited

/-- A variable of which nothing is looked at. -/
def VariableUse.none : VariableUse :=
  ⟨false, .empty⟩

/-- What an expression needs. -/
structure Usage where
  /-- The variables that it uses. -/
  vars : NameMap VariableUse
  /-- The labels that it tests for. -/
  labels : NameSet
  /-- The bare names in it. -/
  refs : NameSet
  /-- Whether an aggregate was seen. -/
  hasAggregates : Bool
  /-- The number of its variables that are not available yet. -/
  pending : Nat
deriving DecidableEq, Inhabited

namespace Usage

/-- Nothing is needed. -/
def empty : Usage :=
  ⟨.empty, .empty, .empty, false, 0⟩

/-- Records a use of a variable; a variable that is new is pending. -/
def touch (u : Usage) (var : String) (f : VariableUse → VariableUse) : Usage :=
  { u with
    vars := u.vars.alter var fun use => f (use.getD .none)
    pending := if u.vars.contains var then u.pending else u.pending + 1 }

/-- Records a look at an attribute. -/
def touchAttribute (u : Usage) (var attr : String) : Usage :=
  u.touch var fun use => { use with attributes := use.attributes.add attr }

/-- Records a look at a label. -/
def touchLabel (u : Usage) (var : String) : Usage :=
  u.touch var fun use => { use with labelChecked := true }

/-- Records a label that is tested for. -/
def addLabel (u : Usage) (label : String) : Usage :=
  { u with labels := u.labels.add label }

/-- Records a bare name. -/
def addRef (u : Usage) (name : String) : Usage :=
  { u with refs := u.refs.add name }

/-- The first variable in the order of the names. -/
def first? (u : Usage) : Option (String × VariableUse) :=
  u.vars.entries.head?

/-- Counts bare names that are pattern variables as uses of those variables. -/
def promote (u : Usage) (r : Registry) : Usage :=
  (u.refs.names.filter r.contains).foldl (fun u name => u.touch name id) u

/-- Records that variables became available. -/
def markAvailable (u : Usage) (vars : List String) : Usage :=
  { u with pending := vars.foldl (fun n var => if u.vars.contains var then n - 1 else n) u.pending }

end Usage

namespace Expr

/-- The label that a comparison of a label with a literal tests for. -/
def testedLabel? : BinaryOp → Expr → Expr → Option String
  | .compare .eq, labelOf _, str value => some value
  | .compare .ne, labelOf _, str value => some value
  | _, _, _ => none

mutual

/-- Adds the needs of an expression. -/
def visit (mode : Mode) : Expr → Usage → Usage
  | ref name, u => u.addRef name
  | prop var name, u => u.touchAttribute var name
  | binary op lhs rhs, u =>
    let u := rhs.visit mode (lhs.visit mode u)
    match testedLabel? op lhs rhs with
    | some label => u.addLabel label
    | none => u
  | unary _ operand, u => operand.visit mode u
  | aggregateAll _, u =>
    match mode with
    | .preGroup => { u with hasAggregates := true }
    | .postGroup => u
  | aggregate _ arg, u =>
    match mode with
    | .preGroup => arg.visit mode { u with hasAggregates := true }
    | .postGroup => u
  | hasLabel var label, u => (u.touchLabel var).addLabel label
  | labelOf var, u => u.touchLabel var
  | call .vertexLabels _, u => u
  | call _ args, u => visitList mode args u
  | _, u => u

/-- Adds the needs of several expressions. -/
def visitList (mode : Mode) : List Expr → Usage → Usage
  | [], u => u
  | e :: es, u => visitList mode es (e.visit mode u)

end

end Expr

/-- An expression with what it needs. -/
structure ExprInfo where
  /-- The expression. -/
  expr : Expr
  /-- What it needs. -/
  usage : Usage
deriving Inhabited

/-- Analyses an expression for one side of a grouping. -/
def Expr.analyze (e : Expr) (mode : Mode) : ExprInfo :=
  ⟨e, e.visit mode .empty⟩

end GraphPlan
