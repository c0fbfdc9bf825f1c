import GraphPlan.Proofs.Algebra.Width
import GraphPlan.Proofs.Expr.Similar
import GraphPlan.Proofs.Plan.Aggregates

/-!
# Plans that differ in their data

Two plans are similar if they have the same columns and their trees are built alike: the operators
agree in everything but the dialect words of the two configurations and the data, which are related
as the relation says. Every change that is made to a plan keeps this, provided that it is made for
similar expressions. `Agree` is the statement that two actions do so.
-/

namespace GraphPlan

open Except (Related)

/-! ## Operators and trees -/

/-- Literals of the same kind with related data. -/
inductive ScanValue.Similar (R : Datum → Datum → Prop) : ScanValue → ScanValue → Prop where
  | str {value value' : String} (h : R (.string value) (.string value')) :
      Similar R (.str value) (.str value')
  | int (value : Int64) : Similar R (.int value) (.int value)
  | decimal {value value' : Binary64} (h : R (.decimal value) (.decimal value')) :
      Similar R (.decimal value) (.decimal value')
  | bool (value : Bool) : Similar R (.bool value) (.bool value)

/-- The same operator, each time in the words of its configuration, with related data. -/
inductive Operator.Similar (left right : Config) (R : Datum → Datum → Prop) :
    Operator → Operator → Prop where
  | scanNodes : Similar left right R .scanNodes .scanNodes
  | scanLabel {label label' : String} (h : R (.label label) (.label label')) :
      Similar left right R (.scanLabel label) (.scanLabel label')
  | scanAttribute {attr : String} (op : Comparison) {value value' : ScanValue}
      (hattr : R (.property attr) (.property attr)) (h : ScanValue.Similar R value value') :
      Similar left right R (.scanAttribute left.attributeScope attr op value)
        (.scanAttribute right.attributeScope attr op value')
  | matchColumns (pairs : List (Nat × Nat)) :
      Similar left right R (.matchColumns pairs) (.matchColumns pairs)
  | select {predicate predicate' : Scalar} (h : Scalar.Similar R predicate predicate') :
      Similar left right R (.select predicate) (.select predicate')
  | adjacent (edge : Nat) : Similar left right R (.adjacent edge) (.adjacent edge)
  | explode (start : Nat) (direction : Direction) :
      Similar left right R (.explode start direction) (.explode start direction)
  | getAttributes (object : Nat) {attrs : List String} (hne : attrs ≠ [])
      (h : ∀ a ∈ attrs, R (.property a) (.property a)) :
      Similar left right R (.getAttributes object left.attributeScope attrs)
        (.getAttributes object right.attributeScope attrs)
  | getType (object : Nat) : Similar left right R (.getType object) (.getType object)
  | join {predicate predicate' : Scalar} (h : Scalar.Similar R predicate predicate') :
      Similar left right R (.join predicate left.joinType) (.join predicate' right.joinType)
  | product : Similar left right R .product .product
  | extend {value value' : Scalar} (h : Scalar.Similar R value value') :
      Similar left right R (.extend left.extendResultType value)
        (.extend right.extendResultType value')
  | group (columns : List Nat) {aggregates : List Aggregation}
      (h : ∀ a ∈ aggregates, a.explicit = true) :
      Similar left right R (.group columns aggregates) (.group columns aggregates)
  | sort (columns : List Nat) : Similar left right R (.sort columns) (.sort columns)
  | project (columns : List Nat) : Similar left right R (.project columns) (.project columns)
  | slice (offset limit : Option UInt64) :
      Similar left right R (.slice offset limit) (.slice offset limit)

/-- Trees of similar operators, each with as many inputs as it takes. -/
inductive PlanNode.Similar (left right : Config) (R : Datum → Datum → Prop) :
    PlanNode → PlanNode → Prop where
  | leaf {op op' : Operator} (hop : op.Similar left right R op') (harity : op.arity = 0) :
      Similar left right R (.node op []) (.node op' [])
  | wrap {op op' : Operator} {t t' : PlanNode} (hop : op.Similar left right R op')
      (harity : op.arity = 1) (h : Similar left right R t t') :
      Similar left right R (.node op [t]) (.node op' [t'])
  | combine {op op' : Operator} {t t' u u' : PlanNode} (hop : op.Similar left right R op')
      (harity : op.arity = 2) (ht : Similar left right R t t') (hu : Similar left right R u u') :
      Similar left right R (.node op [t, u]) (.node op' [t', u'])

/-- The same columns and similar trees. -/
structure Plan.Similar (left right : Config) (R : Datum → Datum → Prop) (p p' : Plan) : Prop where
  schema : p.schema = p'.schema
  root : p.root.Similar left right R p'.root

variable {left right : Config} {R : Datum → Datum → Prop}

namespace Plan

variable {p p' : Plan}

theorem Similar.wrap (h : p.Similar left right R p') {op op' : Operator}
    (hop : op.Similar left right R op') (harity : op.arity = 1) :
    (p.wrap op).Similar left right R (p'.wrap op') :=
  ⟨h.schema, .wrap hop harity h.root⟩

theorem Similar.combine (h : p.Similar left right R p') {op op' : Operator} {t t' : PlanNode}
    (hop : op.Similar left right R op') (harity : op.arity = 2) (ht : t.Similar left right R t') :
    (p.combine op t).Similar left right R (p'.combine op' t') :=
  ⟨h.schema, .combine hop harity h.root ht⟩

theorem Similar.withSchema (h : p.Similar left right R p') (s : Schema) :
    Similar left right R { p with schema := s } { p' with schema := s } :=
  ⟨rfl, h.root⟩

/-! ## Fetching -/

theorem Similar.fetchAttributes (h : p.Similar left right R p') (var : String) (column : Nat)
    {attrs : List String} (hattrs : ∀ a ∈ attrs, R (.property a) (.property a)) :
    (p.fetchAttributes left.attributeScope var column attrs).Similar left right R
      (p'.fetchAttributes right.attributeScope var column attrs) := by
  have hmissing : ∀ a ∈ attrs.filter fun attr => !p'.schema.hasAttribute var attr,
      R (.property a) (.property a) := fun a ha => hattrs a (List.mem_filter.1 ha).1
  unfold Plan.fetchAttributes
  rw [h.schema]
  generalize attrs.filter (fun attr => !p'.schema.hasAttribute var attr) = missing at hmissing
  cases missing with
  | nil => exact h
  | cons a as => exact (h.withSchema _).wrap (.getAttributes column (by simp) hmissing) rfl

theorem Similar.fetchLabel (h : p.Similar left right R p') (var : String) (column : Nat) :
    (p.fetchLabel var column).Similar left right R (p'.fetchLabel var column) := by
  unfold Plan.fetchLabel
  rw [h.schema]
  split
  · exact h
  · exact (h.withSchema _).wrap (.getType column) rfl

theorem Similar.fetchVariable (h : p.Similar left right R p') (var : String) {use : VariableUse}
    (huse : ∀ a ∈ use.attributes.names, R (.property a) (.property a)) :
    (p.fetchVariable left.attributeScope var use).Similar left right R
      (p'.fetchVariable right.attributeScope var use) := by
  unfold Plan.fetchVariable
  rw [h.schema]
  split
  · exact h
  · next column _ =>
    have hattrs := h.fetchAttributes var column huse
    dsimp only
    split
    · exact hattrs.fetchLabel var column
    · exact hattrs

end Plan

/-- Fetching for alike needs keeps plans similar. -/
theorem Plan.Similar.fetch {p p' : Plan} (h : p.Similar left right R p') {u u' : Usage}
    (hu : Usage.Alike R u u') :
    (p.fetch left.attributeScope u).Similar left right R (p'.fetch right.attributeScope u') := by
  have hattrs : ∀ entry ∈ u.vars.entries, ∀ a ∈ entry.2.attributes.names,
      R (.property a) (.property a) :=
    fun entry hentry => hu.attributes entry.1 entry.2 (NameMap.get?_of_mem_entries hentry)
  unfold Plan.fetch
  rw [← hu.vars]
  generalize u.vars.entries = entries at hattrs
  induction entries generalizing p p' with
  | nil => exact h
  | cons entry entries ih =>
    rw [List.foldl_cons, List.foldl_cons]
    exact ih (h.fetchVariable entry.1 (hattrs entry List.mem_cons_self))
      fun e he => hattrs e (List.mem_cons_of_mem _ he)

/-! ## Actions -/

section Agree

variable {σ α β α' β' : Type} {S : σ → σ → Prop} {good : α → β → Prop}

/-- From states in the relation `S` both actions succeed, with results in the relation `good` and
states in the relation `S` again, or both fail with alike errors. -/
def Agree (R : Datum → Datum → Prop) (S : σ → σ → Prop) (good : α → β → Prop)
    (act : EStateM PlanError σ α) (act' : EStateM PlanError σ β) : Prop :=
  ∀ ⦃s s' : σ⦄, S s s' → Related (fun x y => good x.1 y.1 ∧ S x.2 y.2) (PlanError.Alike R)
    (outcome act s) (outcome act' s')

theorem agree_pure {a : α} {b : β} (h : good a b) : Agree R S good (pure a) (pure b) :=
  fun _ _ hs => ⟨h, hs⟩

theorem agree_get : Agree R S S get get :=
  fun _ _ hs => ⟨hs, hs⟩

theorem agree_modify {f g : σ → σ} (h : ∀ s s', S s s' → S (f s) (g s')) :
    Agree R S (fun _ _ => True) (modify f) (modify g) :=
  fun s s' hs => ⟨trivial, h s s' hs⟩

theorem agree_set {s s' : σ} (h : S s s') : Agree R S (fun _ _ => True) (set s) (set s') :=
  fun _ _ _ => ⟨trivial, h⟩

theorem agree_throw {e e' : PlanError} (h : e.Alike R e') : Agree R S good (throw e) (throw e') :=
  fun _ _ _ => h

theorem Agree.bind {next : α' → β' → Prop} {act : EStateM PlanError σ α}
    {act' : EStateM PlanError σ β} {f : α → EStateM PlanError σ α'} {g : β → EStateM PlanError σ β'}
    (h : Agree R S good act act') (hf : ∀ a b, good a b → Agree R S next (f a) (g b)) :
    Agree R S next (act >>= f) (act' >>= g) := by
  intro s s' hs
  rw [outcome_bind, outcome_bind]
  exact (h hs).bind fun x y hxy => hf x.1 y.1 hxy.1 hxy.2

end Agree

namespace PlanM

variable {α β : Type} {good : α → β → Prop} {act : PlanM α} {act' : PlanM β}

/-- What an action does to a plan. -/
theorem related_exec (h : Agree R (Plan.Similar left right R) good act act') {p p' : Plan}
    (hp : p.Similar left right R p') :
    Related (fun x y => good x.1 y.1 ∧ x.2.Similar left right R y.2) (PlanError.Alike R)
      (exec act p) (exec act' p') := by
  rw [exec_eq_outcome, exec_eq_outcome]
  exact h hp

theorem agree_ofExcept {x : Except PlanError α} {y : Except PlanError β}
    (h : Related good (PlanError.Alike R) x y) :
    Agree R (Plan.Similar left right R) good (ofExcept x) (ofExcept y) := by
  intro p p' hp
  rw [← exec_eq_outcome, ← exec_eq_outcome, exec_ofExcept, exec_ofExcept]
  exact h.bind fun a b hab => ⟨hab, hp⟩

/-- The same change of the schema. -/
theorem agree_onSchema (change : SchemaM α) :
    Agree R (Plan.Similar left right R) (fun a b => a = b) (onSchema change) (onSchema change) := by
  intro p p' hp
  rw [← exec_eq_outcome, ← exec_eq_outcome, exec_onSchema, exec_onSchema, hp.schema]
  cases outcome change p'.schema with
  | error e => exact PlanError.Alike.refl e
  | ok x => exact ⟨rfl, hp.withSchema x.2⟩

end PlanM

/-! ## Columns of values -/

namespace Plan

variable {info : ExprInfo}

theorem agree_columnOf (he : Expr.Similar R info.expr info.expr)
    (hu : Usage.Alike R info.usage info.usage) :
    Agree R (Plan.Similar left right R) (fun a b => a = b) (columnOf left info)
      (columnOf right info) := by
  refine (agree_modify fun p p' hp => hp.fetch hu).bind fun _ _ _ => ?_
  refine agree_get.bind fun p p' hp => ?_
  rw [hp.schema]
  split
  · exact agree_pure rfl
  · refine (PlanM.agree_ofExcept (he.resolve _ (Or.inr rfl))).bind fun t t' ht => ?_
    refine (agree_modify fun q q' hq => ?_).bind fun _ _ _ => agree_pure rfl
    unfold Plan.extend
    rw [hq.schema]
    exact (hq.withSchema _).wrap (.extend ht) rfl

theorem agree_materialize (he : Expr.Similar R info.expr info.expr)
    (hu : Usage.Alike R info.usage info.usage) (name : Option String) :
    Agree R (Plan.Similar left right R) (fun a b => a = b) (materialize left info name)
      (materialize right info name) := by
  refine (agree_columnOf he hu).bind fun column column' hcolumn => ?_
  subst hcolumn
  cases name with
  | none => exact agree_pure rfl
  | some name =>
    exact (PlanM.agree_onSchema (Schema.setAlias name column)).bind fun _ _ _ => agree_pure rfl

end Plan

/-- The needs of an expression that is similar to itself. -/
theorem Expr.Similar.analyze {e e' : Expr} (h : Expr.Similar R e e') (mode : Mode) :
    Usage.Alike R (e.analyze mode).usage (e'.analyze mode).usage :=
  h.visit mode Usage.alike_empty

/-! ## Aggregates -/

/-- Similar plans and the same aggregates. -/
structure Extraction.Similar (left right : Config) (R : Datum → Datum → Prop) (x x' : Extraction) :
    Prop where
  plan : x.plan.Similar left right R x'.plan
  aggregates : x.aggregates = x'.aggregates

namespace Extraction

theorem agree_onPlan {α β : Type} {good : α → β → Prop} {act : PlanM α} {act' : PlanM β}
    (h : Agree R (Plan.Similar left right R) good act act') :
    Agree R (Extraction.Similar left right R) good (onPlan act) (onPlan act') := by
  intro x x' hx
  rw [outcome_onPlan, outcome_onPlan]
  refine (PlanM.related_exec h hx.plan).bind fun y y' hy => ?_
  exact ⟨hy.1, hy.2, hx.aggregates⟩

theorem Similar.contains {x x' : Extraction} (h : x.Similar left right R x') (key : String) :
    x.contains key = x'.contains key := by
  unfold Extraction.contains
  rw [h.aggregates]

theorem Similar.push {x x' : Extraction} (h : x.Similar left right R x') (a : AggregateInfo) :
    (x.push a).Similar left right R (x'.push a) :=
  ⟨h.plan, congrArg (· ++ [a]) h.aggregates⟩

end Extraction

namespace Expr

theorem agree_extractAll (kind : AggregateKind) :
    Agree R (Extraction.Similar left right R) (fun _ _ => True) (extractAll kind)
      (extractAll kind) := by
  refine agree_get.bind fun x x' hx => ?_
  rw [hx.contains]
  split
  · exact agree_pure trivial
  · cases kind with
    | count => exact agree_modify fun y y' hy => hy.push _
    | _ => exact agree_throw (PlanError.Alike.refl _)

theorem agree_extractOver (kind : AggregateKind) {arg : Expr} (h : Similar R arg arg) :
    Agree R (Extraction.Similar left right R) (fun _ _ => True) (extractOver left kind arg)
      (extractOver right kind arg) := by
  refine agree_get.bind fun x x' hx => ?_
  rw [hx.contains]
  dsimp only
  split
  · exact agree_pure trivial
  · split
    · exact agree_throw (PlanError.Alike.refl _)
    · refine (Extraction.agree_onPlan
        (Plan.agree_materialize h (h.analyze .preGroup) none)).bind fun column column' hcolumn => ?_
      subst hcolumn
      exact agree_modify fun y y' hy => hy.push _

mutual

theorem agree_extract (e : Expr) (h : Similar R e e) :
    Agree R (Extraction.Similar left right R) (fun _ _ => True) (e.extract left)
      (e.extract right) := by
  cases e with
  | aggregateAll kind => exact agree_extractAll kind
  | aggregate kind arg =>
    cases h with
    | aggregate _ h => exact agree_extractOver kind h
  | binary op lhs rhs =>
    cases h with
    | binary _ hl hr => exact (agree_extract lhs hl).bind fun _ _ _ => agree_extract rhs hr
  | unary op operand =>
    cases h with
    | unary _ h => exact agree_extract operand h
  | call func args =>
    cases h with
    | call _ h => exact agree_extractList args h
  | _ => exact agree_pure trivial

theorem agree_extractList (es : List Expr) (h : SimilarList R es es) :
    Agree R (Extraction.Similar left right R) (fun _ _ => True) (extractList left es)
      (extractList right es) := by
  cases es with
  | nil => exact agree_pure trivial
  | cons e es =>
    cases h with
    | cons he hes => exact (agree_extract e he).bind fun _ _ _ => agree_extractList es hes

end

end Expr

end GraphPlan
