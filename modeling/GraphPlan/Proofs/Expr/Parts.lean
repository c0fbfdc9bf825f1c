import GraphPlan.Proofs.Expr.Usage

/-!
# The parts of an expression

Which expressions the algebra can express is a matter of their parts: none of them may be an
aggregate, the missing value, a call or a remainder. Such an expression can be resolved wherever
each part that names a variable finds its column (`exists_resolve`), and over the columns of a
pattern no other one can be (`supported_of_resolve`). The analysis of an expression records what
each of its parts needs (`records_visit`).
-/

namespace GraphPlan

namespace Expr

mutual

/-- The expression and all expressions in it. -/
def parts : Expr → List Expr
  | binary op lhs rhs => binary op lhs rhs :: (lhs.parts ++ rhs.parts)
  | unary op operand => unary op operand :: operand.parts
  | aggregate kind arg => aggregate kind arg :: arg.parts
  | call func args => call func args :: partsList args
  | e => [e]

/-- The parts of several expressions. -/
def partsList : List Expr → List Expr
  | [] => []
  | e :: es => e.parts ++ partsList es

end

/-- Whether the top of an expression is one that no filter may have. -/
def isExcluded : Expr → Bool
  | aggregateAll _ => true
  | aggregate _ _ => true
  | null => true
  | call _ _ => true
  | binary .mod _ _ => true
  | _ => false

/-- The variable that the top of an expression names. -/
def named? : Expr → Option String
  | ref x => some x
  | prop x _ => some x
  | hasLabel x _ => some x
  | labelOf x => some x
  | _ => none

/-- No part of the expression is excluded from filters. -/
def Supported (e : Expr) : Prop :=
  ∀ t ∈ e.parts, t.isExcluded = false

theorem self_mem_parts (e : Expr) : e ∈ e.parts := by
  cases e <;> simp [parts]

mutual

/-- The names in an expression are those that its parts name. -/
theorem mem_names_iff (x : String) (e : Expr) :
    x ∈ e.names ↔ ∃ t ∈ e.parts, t.named? = some x := by
  cases e with
  | ref y | prop y a | hasLabel y label | labelOf y => simp [names, parts, named?, eq_comm]
  | int value | decimal value | str value | bool value | null => simp [names, parts, named?]
  | aggregateAll kind => simp [names, parts, named?]
  | binary op lhs rhs =>
    rw [names, List.mem_append, mem_names_iff x lhs, mem_names_iff x rhs]
    simp [parts, named?, or_and_right, exists_or]
  | unary op operand =>
    rw [names, mem_names_iff x operand]
    simp [parts, named?]
  | aggregate kind arg =>
    rw [names, mem_names_iff x arg]
    simp [parts, named?]
  | call func args =>
    rw [names, mem_namesList_iff x args]
    simp [parts, named?]

theorem mem_namesList_iff (x : String) (es : List Expr) :
    x ∈ namesList es ↔ ∃ t ∈ partsList es, t.named? = some x := by
  cases es with
  | nil => simp [namesList, partsList]
  | cons e es =>
    rw [namesList, List.mem_append, mem_names_iff x e, mem_namesList_iff x es]
    simp [partsList, or_and_right, exists_or]

end

section Supported

variable {op : BinaryOp} {lhs rhs : Expr}

theorem Supported.of_mem {e e' : Expr} (h : e.Supported) (hsub : ∀ t ∈ e'.parts, t ∈ e.parts) :
    e'.Supported :=
  fun t ht => h t (hsub t ht)

theorem Supported.left (h : (binary op lhs rhs).Supported) : lhs.Supported :=
  h.of_mem fun t ht => by simp [parts, ht]

theorem Supported.right (h : (binary op lhs rhs).Supported) : rhs.Supported :=
  h.of_mem fun t ht => by simp [parts, ht]

theorem Supported.operand {op : UnaryOp} {operand : Expr} (h : (unary op operand).Supported) :
    operand.Supported :=
  h.of_mem fun t ht => by simp [parts, ht]

end Supported

end Expr

/-! ## Resolving -/

namespace Scope

variable {scope : Scope}

/-- The scope has a column for what the top of an expression reads. -/
def Provides (scope : Scope) : Expr → Prop
  | .ref x => (scope.find? (·.varColumn? x)).isSome = true
  | .prop x a => (scope.find? (·.attrColumn? x a)).isSome = true
  | .hasLabel x _ => (scope.find? (·.labelColumn? x)).isSome = true
  | .labelOf x => (scope.find? (·.labelColumn? x)).isSome = true
  | _ => True

/-- The schemas of the plans. -/
def schemas (scope : Scope) : List Schema :=
  scope.left :: scope.right.toList

/-- A column of either schema is found. -/
theorem isSome_find? {lookup : Schema → Option Nat} :
    (scope.find? lookup).isSome = true ↔ ∃ s ∈ scope.schemas, (lookup s).isSome = true := by
  unfold find? schemas
  cases hleft : lookup scope.left with
  | some i => simp [hleft]
  | none => cases scope.right <;> simp [hleft]

end Scope

namespace Expr

variable {scope : Scope}

theorem exists_orError {o : Option Nat} (e : PlanError) (f : Nat → Scalar) (h : o.isSome = true) :
    ∃ t, (orError e o >>= fun i => .ok (f i)) = Except.ok t := by
  obtain ⟨i, rfl⟩ := Option.isSome_iff_exists.1 h
  exact ⟨f i, rfl⟩

/-- An expression can be resolved if its parts are supported and find their columns. -/
theorem exists_resolve {e : Expr} (h : e.Supported) (hcolumns : ∀ t ∈ e.parts, scope.Provides t) :
    ∃ t, e.resolve scope = .ok t := by
  induction e using Expr.resolve.induct with
  | case1 name =>
    have hfound := hcolumns _ (self_mem_parts _)
    refine exists_orError _ _ ?_
    rw [Option.isSome_or, hfound, Bool.true_or]
  | case2 var name =>
    have hfound := hcolumns _ (self_mem_parts _)
    refine exists_orError _ _ ?_
    rw [Option.isSome_or, hfound, Bool.true_or]
  | case3 value | case4 value | case5 value | case6 value => exact ⟨_, rfl⟩
  | case7 | case8 lhs rhs | case11 | case12 | case15 => cases h _ (self_mem_parts _)
  | case9 op lhs rhs hop ihl ihr =>
    obtain ⟨left, hleft⟩ := ihl h.left fun t ht => hcolumns t (by simp [parts, ht])
    obtain ⟨right, hright⟩ := ihr h.right fun t ht => hcolumns t (by simp [parts, ht])
    refine ⟨.binary op left right, ?_⟩
    rw [resolve, hleft, ok_bind, hright, ok_bind]
    · rfl
    · exact hop
  | case10 op operand ih =>
    obtain ⟨t, ht⟩ := ih h.operand fun t ht => hcolumns t (by simp [parts, ht])
    refine ⟨.unary op t, ?_⟩
    rw [resolve, ht]
    rfl
  | case13 var label => exact exists_orError _ _ (hcolumns _ (self_mem_parts _))
  | case14 var => exact exists_orError _ _ (hcolumns _ (self_mem_parts _))

/-- Without aliases and aggregates, only supported expressions can be resolved. -/
theorem supported_of_resolve (hnone : ∀ name, scope.alias? name = none) {e : Expr} {t : Scalar}
    (h : e.resolve scope = .ok t) : e.Supported := by
  induction e using Expr.resolve.induct generalizing t with
  | case1 | case2 | case3 | case4 | case5 | case6 | case13 | case14 =>
    simp [Supported, parts, isExcluded]
  | case7 | case8 | case15 => cases h
  | case9 op lhs rhs hop ihl ihr =>
    rw [resolve] at h
    · obtain ⟨left, hleft, h⟩ := eq_ok_of_bind_eq_ok h
      obtain ⟨right, hright, -⟩ := eq_ok_of_bind_eq_ok h
      intro u hu
      simp only [parts, List.mem_cons, List.mem_append] at hu
      rcases hu with rfl | hu | hu
      · cases op with
        | mod => exact absurd rfl hop
        | _ => rfl
      · exact ihl hleft u hu
      · exact ihr hright u hu
    · exact hop
  | case10 op operand ih =>
    obtain ⟨t', ht', -⟩ := eq_ok_of_bind_eq_ok h
    intro u hu
    rcases List.mem_cons.1 hu with rfl | hu
    · rfl
    · exact ih ht' u hu
  | case11 | case12 =>
    obtain ⟨i, hi, -⟩ := eq_ok_of_bind_eq_ok h
    have hi := eq_some_of_orError_eq_ok hi
    rw [hnone] at hi
    cases hi

end Expr

/-! ## What the analysis records -/

/-- All that a use looks at, a later one looks at, too. -/
structure VariableUse.Within (use use' : VariableUse) : Prop where
  attributes : ∀ a ∈ use.attributes.names, a ∈ use'.attributes.names
  label : use.labelChecked = true → use'.labelChecked = true

theorem VariableUse.Within.refl (use : VariableUse) : use.Within use :=
  ⟨fun _ => id, id⟩

namespace Usage

variable {u : Usage} {t : Expr}

/-- What the top of an expression needs is recorded. -/
def Records (u : Usage) : Expr → Prop
  | .ref x => x ∈ u.refs.names
  | .prop x a => ∃ use, u.vars.get? x = some use ∧ a ∈ use.attributes.names
  | .hasLabel x _ => ∃ use, u.vars.get? x = some use ∧ use.labelChecked = true
  | .labelOf x => ∃ use, u.vars.get? x = some use ∧ use.labelChecked = true
  | _ => True

/-- A name was met. -/
def Mentions (u : Usage) (x : String) : Prop :=
  x ∈ u.vars.names ∨ x ∈ u.refs.names

theorem exists_get?_touch {x y : String} {use : VariableUse} {f : VariableUse → VariableUse}
    (hf : ∀ use : VariableUse, use.Within (f use)) (h : u.vars.get? y = some use) :
    ∃ use', (u.touch x f).vars.get? y = some use' ∧ use.Within use' := by
  have htouch : (u.touch x f).vars.get? y =
      if y = x then some (f ((u.vars.get? x).getD .none)) else u.vars.get? y :=
    NameMap.get?_alter ..
  rw [htouch]
  split
  · next hy =>
    rw [← hy, h]
    exact ⟨f use, rfl, hf use⟩
  · exact ⟨use, h, .refl use⟩

/-- What is recorded stays when a variable is used once more. -/
theorem Records.touch {x : String} {f : VariableUse → VariableUse} (h : u.Records t)
    (hf : ∀ use : VariableUse, use.Within (f use)) : (u.touch x f).Records t := by
  cases t with
  | ref y => exact h
  | prop y a =>
    obtain ⟨use, huse, ha⟩ := h
    obtain ⟨use', huse', hwithin⟩ := exists_get?_touch hf huse
    exact ⟨use', huse', hwithin.attributes a ha⟩
  | hasLabel y label =>
    obtain ⟨use, huse, hlabel⟩ := h
    obtain ⟨use', huse', hwithin⟩ := exists_get?_touch hf huse
    exact ⟨use', huse', hwithin.label hlabel⟩
  | labelOf y =>
    obtain ⟨use, huse, hlabel⟩ := h
    obtain ⟨use', huse', hwithin⟩ := exists_get?_touch hf huse
    exact ⟨use', huse', hwithin.label hlabel⟩
  | _ => trivial

/-- Only the variables and the bare names matter. -/
theorem Records.congr {u' : Usage} (h : u.Records t) (hvars : u'.vars = u.vars)
    (hrefs : ∀ x ∈ u.refs.names, x ∈ u'.refs.names) : u'.Records t := by
  cases t with
  | ref y => exact hrefs y h
  | prop y a | hasLabel y label | labelOf y =>
    unfold Records at h ⊢
    rwa [hvars]
  | _ => trivial

theorem Records.promote (h : u.Records t) (r : Registry) : (u.promote r).Records t := by
  unfold Usage.promote
  induction u.refs.names.filter r.contains generalizing u with
  | nil => exact h
  | cons name names ih => exact ih (h.touch .refl)

theorem within_addAttribute (a : String) (use : VariableUse) :
    use.Within { use with attributes := use.attributes.add a } :=
  ⟨fun _ hb => NameMap.mem_names_alter.2 (Or.inr hb), id⟩

theorem within_checkLabel (use : VariableUse) : use.Within { use with labelChecked := true } :=
  ⟨fun _ => id, fun _ => rfl⟩

theorem records_touchAttribute (u : Usage) (x a : String) :
    (u.touchAttribute x a).Records (.prop x a) := by
  refine ⟨_, (NameMap.get?_alter ..).trans (if_pos rfl), ?_⟩
  exact NameMap.mem_names_alter.2 (Or.inl rfl)

theorem get?_touchLabel (u : Usage) (x : String) :
    ∃ use, (u.touchLabel x).vars.get? x = some use ∧ use.labelChecked = true :=
  ⟨_, (NameMap.get?_alter ..).trans (if_pos rfl), rfl⟩

end Usage

namespace Expr

variable {t : Expr}

mutual

/-- The analysis of a further expression takes nothing back. -/
theorem records_visit_of_records (e : Expr) {u : Usage} (h : u.Records t) :
    (e.visit .preGroup u).Records t := by
  cases e with
  | ref name => exact h.congr rfl fun x hx => NameMap.mem_names_alter.2 (Or.inr hx)
  | int value | decimal value | str value | bool value | null => exact h
  | prop var name => exact h.touch (Usage.within_addAttribute name)
  | hasLabel var label =>
    have htouch : (u.touchLabel var).Records t := h.touch Usage.within_checkLabel
    exact htouch.congr rfl fun _ => id
  | labelOf var => exact h.touch Usage.within_checkLabel
  | binary op lhs rhs =>
    have hboth := records_visit_of_records rhs (records_visit_of_records lhs h)
    rw [visit]
    split
    · exact hboth.congr rfl fun _ => id
    · exact hboth
  | unary op operand => exact records_visit_of_records operand h
  | aggregateAll kind => exact h.congr rfl fun _ => id
  | aggregate kind arg =>
    rw [visit]
    exact records_visit_of_records arg (h.congr rfl fun _ => id)
  | call func args =>
    cases func
    case vertexLabels => exact h
    all_goals exact records_visitList_of_records args h

theorem records_visitList_of_records (es : List Expr) {u : Usage} (h : u.Records t) :
    (visitList .preGroup es u).Records t := by
  cases es with
  | nil => exact h
  | cons e es =>
    rw [visitList]
    exact records_visitList_of_records es (records_visit_of_records e h)

end

/-- The analysis records what the parts of a supported expression need. -/
theorem records_visit (e : Expr) (he : e.Supported) (u : Usage) (ht : t ∈ e.parts) :
    (e.visit .preGroup u).Records t := by
  cases e with
  | ref name =>
    rw [List.mem_singleton.1 ht]
    exact NameMap.mem_names_alter.2 (Or.inl rfl)
  | prop var name =>
    rw [List.mem_singleton.1 ht]
    exact u.records_touchAttribute var name
  | hasLabel var label =>
    rw [List.mem_singleton.1 ht]
    exact u.get?_touchLabel var
  | labelOf var =>
    rw [List.mem_singleton.1 ht]
    exact u.get?_touchLabel var
  | int value | decimal value | str value | bool value =>
    rw [List.mem_singleton.1 ht]
    trivial
  | binary op lhs rhs =>
    have hboth : (rhs.visit .preGroup (lhs.visit .preGroup u)).Records t := by
      simp only [parts, List.mem_cons, List.mem_append] at ht
      rcases ht with rfl | ht | ht
      · trivial
      · exact records_visit_of_records rhs (records_visit lhs he.left u ht)
      · exact records_visit rhs he.right _ ht
    rw [visit]
    split
    · exact hboth.congr rfl fun _ => id
    · exact hboth
  | unary op operand =>
    rcases List.mem_cons.1 ht with rfl | ht
    · trivial
    · exact records_visit operand he.operand u ht
  | null | aggregateAll kind | aggregate kind arg | call func args =>
    cases he _ (self_mem_parts _)

mutual

/-- The analysis brings in no other names than those of the expression. -/
theorem mentions_visit (e : Expr) {u : Usage} {x : String}
    (h : (e.visit .preGroup u).Mentions x) : u.Mentions x ∨ x ∈ e.names := by
  cases e with
  | ref name =>
    rcases h with h | h
    · exact Or.inl (Or.inl h)
    · rcases NameMap.mem_names_alter.1 h with rfl | h
      · exact Or.inr List.mem_cons_self
      · exact Or.inl (Or.inr h)
  | int value | decimal value | str value | bool value | null | aggregateAll kind => exact Or.inl h
  | prop var name | hasLabel var label | labelOf var =>
    rcases h with h | h
    · rcases (mem_vars_visit x _ u).1 h with h | h
      · exact Or.inl (Or.inl h)
      · exact Or.inr h
    · exact Or.inl (Or.inr h)
  | binary op lhs rhs =>
    have hboth : (rhs.visit .preGroup (lhs.visit .preGroup u)).Mentions x := by
      rw [visit] at h
      split at h
      · exact h
      · exact h
    rw [names, List.mem_append]
    rcases mentions_visit rhs hboth with hlhs | hrhs
    · exact (mentions_visit lhs hlhs).imp_right Or.inl
    · exact Or.inr (Or.inr hrhs)
  | unary op operand => exact mentions_visit operand h
  | aggregate kind arg =>
    have harg := mentions_visit arg (u := { u with hasAggregates := true }) h
    exact harg
  | call func args =>
    cases func
    case vertexLabels => exact Or.inl h
    all_goals exact mentions_visitList args h

theorem mentions_visitList (es : List Expr) {u : Usage} {x : String}
    (h : (visitList .preGroup es u).Mentions x) : u.Mentions x ∨ x ∈ namesList es := by
  cases es with
  | nil => exact Or.inl h
  | cons e es =>
    rw [namesList, List.mem_append]
    rcases mentions_visitList es h with he | hes
    · exact (mentions_visit e he).imp_right Or.inl
    · exact Or.inr (Or.inr hes)

end

/-- A supported expression has no aggregates. -/
theorem hasAggregates_visit_eq_false (e : Expr) (he : e.Supported) {u : Usage}
    (h : u.hasAggregates = false) : (e.visit .preGroup u).hasAggregates = false := by
  cases e with
  | ref name | prop var name | hasLabel var label | labelOf var => exact h
  | int value | decimal value | str value | bool value => exact h
  | binary op lhs rhs =>
    have hboth := hasAggregates_visit_eq_false rhs he.right
      (hasAggregates_visit_eq_false lhs he.left h)
    rw [visit]
    split
    · exact hboth
    · exact hboth
  | unary op operand => exact hasAggregates_visit_eq_false operand he.operand h
  | null | aggregateAll kind | aggregate kind arg | call func args =>
    cases he _ (self_mem_parts _)

end Expr

end GraphPlan
