import GraphPlan.Expr.Usage
import GraphPlan.Proofs.Resolve

/-!
# What the analysis of an expression collects

The needs of an expression before grouping: the variables of the usage are those whose attributes or
labels the expression looks at (`mem_vars_visit`), and an expression in which no aggregate was seen
reads none.
-/

namespace GraphPlan

namespace Usage

theorem mem_vars_touch {u : Usage} {var x : String} {f : VariableUse → VariableUse} :
    x ∈ (u.touch var f).vars.names ↔ x ∈ u.vars.names ∨ x = var := by
  rw [touch, NameMap.mem_names_alter]
  exact or_comm

/-- Promotion adds the bare names that are pattern variables. -/
theorem mem_vars_promote {u : Usage} {r : Registry} {x : String} :
    x ∈ (u.promote r).vars.names ↔
      x ∈ u.vars.names ∨ x ∈ u.refs.names ∧ r.contains x = true := by
  have hfold : ∀ (names : List String) (u : Usage),
      x ∈ (names.foldl (fun u name => u.touch name id) u).vars.names ↔
        x ∈ u.vars.names ∨ x ∈ names := by
    intro names
    induction names with
    | nil => simp
    | cons name names ih =>
      intro u
      rw [List.foldl_cons, ih, mem_vars_touch, List.mem_cons, or_assoc]
  rw [promote, hfold, List.mem_filter]

end Usage

namespace Expr

mutual

/-- The variables whose attributes or labels an expression looks at before grouping. -/
def looksAt : Expr → List String
  | prop x _ => [x]
  | hasLabel x _ => [x]
  | labelOf x => [x]
  | binary _ lhs rhs => lhs.looksAt ++ rhs.looksAt
  | unary _ operand => operand.looksAt
  | aggregate _ arg => arg.looksAt
  | call .vertexLabels _ => []
  | call _ args => looksAtList args
  | _ => []

/-- The variables that several expressions look at. -/
def looksAtList : List Expr → List String
  | [] => []
  | e :: es => e.looksAt ++ looksAtList es

end

mutual

/-- The variables of the usage are those that are looked at. -/
theorem mem_vars_visit (x : String) (e : Expr) (u : Usage) :
    x ∈ (e.visit .preGroup u).vars.names ↔ x ∈ u.vars.names ∨ x ∈ e.looksAt := by
  cases e with
  | ref name => simp [visit, looksAt, Usage.addRef]
  | int value | decimal value | str value | bool value | null => simp [visit, looksAt]
  | prop var name => simp [visit, looksAt, Usage.touchAttribute, Usage.mem_vars_touch]
  | binary op lhs rhs =>
    have hboth := mem_vars_visit x rhs (lhs.visit .preGroup u)
    rw [mem_vars_visit x lhs, or_assoc, ← List.mem_append] at hboth
    rw [visit, looksAt]
    split
    · exact hboth
    · exact hboth
  | unary op operand =>
    rw [visit, looksAt]
    exact mem_vars_visit x operand u
  | aggregateAll kind => simp [visit, looksAt]
  | aggregate kind arg =>
    rw [visit, looksAt]
    exact mem_vars_visit x arg _
  | hasLabel var label =>
    simp [visit, looksAt, Usage.touchLabel, Usage.addLabel, Usage.mem_vars_touch]
  | labelOf var => simp [visit, looksAt, Usage.touchLabel, Usage.mem_vars_touch]
  | call func args =>
    cases func <;> simp only [visit, looksAt, List.not_mem_nil, or_false, mem_vars_visitList]

theorem mem_vars_visitList (x : String) (es : List Expr) (u : Usage) :
    x ∈ (visitList .preGroup es u).vars.names ↔ x ∈ u.vars.names ∨ x ∈ looksAtList es := by
  cases es with
  | nil => simp [visitList, looksAtList]
  | cons e es =>
    rw [visitList, mem_vars_visitList, mem_vars_visit, looksAtList, List.mem_append, or_assoc]

end

mutual

/-- An aggregate that was seen is not forgotten. -/
theorem hasAggregates_visit (e : Expr) {u : Usage} (h : u.hasAggregates = true) :
    (e.visit .preGroup u).hasAggregates = true := by
  cases e with
  | ref name | prop var name | hasLabel var label | labelOf var => exact h
  | int value | decimal value | str value | bool value | null => exact h
  | binary op lhs rhs =>
    have hboth := hasAggregates_visit rhs (hasAggregates_visit lhs h)
    rw [visit]
    split
    · exact hboth
    · exact hboth
  | unary op operand => exact hasAggregates_visit operand h
  | aggregateAll kind => rfl
  | aggregate kind arg =>
    rw [visit]
    exact hasAggregates_visit arg rfl
  | call func args =>
    cases func
    case vertexLabels => exact h
    all_goals exact hasAggregates_visitList args h

theorem hasAggregates_visitList (es : List Expr) {u : Usage} (h : u.hasAggregates = true) :
    (visitList .preGroup es u).hasAggregates = true := by
  cases es with
  | nil => exact h
  | cons e es =>
    rw [visitList]
    exact hasAggregates_visitList es (hasAggregates_visit e h)

end

/-- An expression in which no aggregate was seen reads the result of none. -/
theorem aggregatesRead_eq_nil (e : Expr) {u : Usage}
    (h : (e.visit .preGroup u).hasAggregates = false) : e.aggregatesRead = [] := by
  cases e with
  | ref name | prop var name | hasLabel var label | labelOf var | call func args => rfl
  | int value | decimal value | str value | bool value | null => rfl
  | binary op lhs rhs =>
    have hboth : (rhs.visit .preGroup (lhs.visit .preGroup u)).hasAggregates = false := by
      rw [visit] at h
      split at h
      · exact h
      · exact h
    have hleft : (lhs.visit .preGroup u).hasAggregates = false := by
      by_contra hseen
      rw [hasAggregates_visit rhs (by simpa using hseen)] at hboth
      cases hboth
    rw [aggregatesRead, aggregatesRead_eq_nil lhs hleft, aggregatesRead_eq_nil rhs hboth]
    rfl
  | unary op operand => exact aggregatesRead_eq_nil operand h
  | aggregateAll kind => cases h
  | aggregate kind arg =>
    rw [visit, hasAggregates_visit arg rfl] at h
    cases h

end Expr

end GraphPlan
