import GraphPlan.Pattern.Variable
import GraphPlan.Query.Basic
import GraphPlan.Schema.Column

/-!
# Why a query has no plan

`PlanError` lists the causes. A cause belongs to one of three classes: the query uses something the
algebra cannot express, the pattern cannot be matched step by step, or the bookkeeping of the
planner does not hold together. `Failure` adds the stage at which planning stopped.
-/

namespace GraphPlan

/-- Things that a query may say and the algebra cannot express. -/
inductive Construct where
  /-- An aggregate in a filter. -/
  | aggregateInFilter
  /-- An aggregate in a grouping key. -/
  | aggregateInGroupBy
  /-- An order with large values first. -/
  | descendingOrder
  /-- The missing value. -/
  | nullLiteral
  /-- A remainder. -/
  | remainder
  /-- A built-in function. -/
  | function (func : Builtin)
  /-- An aggregate other than `COUNT` over all rows. -/
  | wildcardAggregate
  /-- An aggregate inside an aggregate. -/
  | nestedAggregate
deriving DecidableEq, Inhabited

/-- The words for a construct. -/
def Construct.name : Construct → String
  | aggregateInFilter => "aggregate in filter"
  | aggregateInGroupBy => "aggregate in GROUP BY"
  | descendingOrder => "descending ORDER BY"
  | nullLiteral => "null literal"
  | remainder => "MOD"
  | function func => func.name
  | wildcardAggregate => "wildcard aggregate"
  | nestedAggregate => "nested aggregate"

/-- Causes for which planning or building a query stops. -/
inductive PlanError where
  /-- The expression uses something the algebra cannot express. -/
  | unsupported (construct : Construct) (expr : Expr)
  /-- The pattern has no connection and no named vertex. -/
  | emptyPattern
  /-- None of the remaining connections of a component touches its plan. -/
  | noStep (group : GroupId) (remaining : List Connection)
  /-- A component has no vertex to start from. -/
  | noNode (group : GroupId)
  /-- A name stands for a vertex and for an edge. -/
  | kindConflict (name : String) (registered requested : VariableKind)
  /-- A filter refers to a component that was absorbed. -/
  | groupGone (group : GroupId)
  /-- A component has no plan. -/
  | noPlan (group : GroupId)
  /-- A filter was chosen as the start of a plan and cannot start one. -/
  | cannotSeed (expr : Expr)
  /-- Several components are left where one is expected. -/
  | groupsLeft (count : Nat)
  /-- A filter is linked to components other than the last one. -/
  | stillLinked (expr : Expr) (groups : List GroupId)
  /-- A variable that a step starts from has no column. -/
  | notBound (name : String)
  /-- A bare name is neither a variable nor an alias. -/
  | unknownName (name : String)
  /-- An attribute has no column. -/
  | attributeMissing (var attr : String)
  /-- A label has no column. -/
  | labelMissing (var : String)
  /-- An aggregate has no column. -/
  | aggregateMissing (text : String)
  /-- An alias is set for a column that does not exist. -/
  | aliasOutOfRange (name : String) (column width : Nat)
  /-- A column is kept that does not exist. -/
  | keepOutOfRange (column width : Nat)
  /-- A computed column is carried over into another plan. -/
  | cannotMerge (role : Role) (name : String)
  /-- An edge was added to a query before any vertex. -/
  | edgeWithoutStart
  /-- A list of predicates is empty. -/
  | noPredicate
  /-- A name is listed as a vertex and used as an edge. -/
  | vertexAndEdge (name : String)
deriving Inhabited

/-- Classes of causes. -/
inductive ErrorCode where
  /-- The algebra cannot express the query. -/
  | unsupportedConstruct
  /-- The pattern cannot be matched step by step. -/
  | unsatisfiablePattern
  /-- The bookkeeping does not hold together. -/
  | invalidState
deriving DecidableEq, Inhabited

/-- The word for a class of causes. -/
def ErrorCode.name : ErrorCode → String
  | unsupportedConstruct => "UnsupportedConstruct"
  | unsatisfiablePattern => "UnsatisfiablePattern"
  | invalidState => "InvalidState"

namespace PlanError

/-- The class of a cause. -/
def code : PlanError → ErrorCode
  | unsupported _ _ => .unsupportedConstruct
  | emptyPattern => .unsatisfiablePattern
  | noStep _ _ => .unsatisfiablePattern
  | noNode _ => .unsatisfiablePattern
  | _ => .invalidState

/-- Names or texts divided by commas. -/
def commaList (texts : List String) : String :=
  ", ".intercalate texts

/-- What is wrong, without the words for the class of the cause. -/
def detail : PlanError → String
  | unsupported construct expr => construct.name ++ " in `" ++ expr.text ++ "`"
  | emptyPattern => "the pattern binds no named vertex or connection"
  | noStep group remaining =>
    "no connection of group " ++ group.text ++ " touches its plan: " ++
      commaList (remaining.map Connection.text)
  | noNode group => "group " ++ group.text ++ " binds no node variable"
  | kindConflict name registered requested =>
    "variable '" ++ name ++ "' used both as " ++ registered.name ++ " and " ++ requested.name
  | groupGone group => "group " ++ group.text ++ " no longer exists"
  | noPlan group => "group " ++ group.text ++ " has no plan"
  | cannotSeed expr => "constraint " ++ expr.text ++ " cannot seed"
  | groupsLeft count => "expected one group after the cross product, found " ++ Nat.repr count
  | stillLinked expr groups =>
    "constraint " ++ expr.text ++ " still linked to [" ++
      commaList (groups.map fun g => "GroupId(" ++ Nat.repr g.index ++ ")") ++ "]"
  | notBound name => "variable '" ++ name ++ "' is not bound"
  | unknownName name => "no column or alias for '" ++ name ++ "'"
  | attributeMissing var attr => "attribute " ++ var ++ "." ++ attr ++ " not materialized"
  | labelMissing var => "label of '" ++ var ++ "' not materialized"
  | aggregateMissing text => "aggregate " ++ text ++ " was not computed"
  | aliasOutOfRange name column width =>
    "alias '" ++ name ++ "' targets column " ++ Nat.repr column ++ " but the schema has " ++
      Nat.repr width ++ " columns"
  | keepOutOfRange column width =>
    "cannot keep column " ++ Nat.repr column ++ " of a " ++ Nat.repr width ++ "-column schema"
  | cannotMerge role name =>
    "cannot merge " ++ role.name ++ " column '" ++ name ++ "' into another plan"
  | edgeWithoutStart => "where_edge requires an existing left variable"
  | noPredicate => "where_var requires at least one predicate"
  | vertexAndEdge name => "'" ++ name ++ "' is used both as a vertex and as an edge"

/-- The message of an error without its code. -/
def text (e : PlanError) : String :=
  match e.code with
  | .unsupportedConstruct => "unsupported " ++ e.detail
  | .unsatisfiablePattern => "unsatisfiable pattern: " ++ e.detail
  | .invalidState => "invalid planner state: " ++ e.detail

/-- The message of an error. -/
def message (e : PlanError) : String :=
  "[" ++ e.code.name ++ "] " ++ e.text

end PlanError

/-- The stages of planning, in order. -/
inductive Stage where
  /-- Variables are registered, the pattern is split and filters are linked to its parts. -/
  | partition
  /-- Each component gets a plan. -/
  | groupPlan
  /-- Components are joined by filters that touch two of them. -/
  | constraintJoin
  /-- The remaining components are multiplied. -/
  | crossProduct
  /-- The remaining filters are applied. -/
  | residualConstraints
  /-- Rows are grouped. -/
  | groupBy
  /-- Result columns are computed. -/
  | projection
  /-- Rows are sorted. -/
  | orderBy
  /-- Other columns are dropped. -/
  | finalProjection
  /-- Limit and offset are applied. -/
  | slice
deriving DecidableEq, Inhabited

/-- The words for a stage. -/
def Stage.name : Stage → String
  | partition => "partition"
  | groupPlan => "group translation"
  | constraintJoin => "constraint join"
  | crossProduct => "cross product"
  | residualConstraints => "residual constraints"
  | groupBy => "group by"
  | projection => "projection"
  | orderBy => "order by"
  | finalProjection => "final projection"
  | slice => "slice"

/-- A cause and the stage at which it stopped planning. -/
structure Failure where
  /-- The stage. -/
  stage : Stage
  /-- The cause. -/
  error : PlanError
deriving Inhabited

/-- The message of a failure. -/
def Failure.message (f : Failure) : String :=
  "translation failed during " ++ f.stage.name ++ ": " ++ f.error.message

/-- Marks errors with the stage at which they arise. -/
def atStage {α : Type} (stage : Stage) : Except PlanError α → Except Failure α
  | .ok a => .ok a
  | .error e => .error ⟨stage, e⟩

end GraphPlan
