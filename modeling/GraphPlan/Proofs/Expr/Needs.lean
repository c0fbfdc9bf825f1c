import GraphPlan.Proofs.Expr.Parts
import GraphPlan.Proofs.Plan.Occurrences
import GraphPlan.Proofs.Planner.Tracking
import GraphPlan.Proofs.Schema.Reachable

/-!
# What is recorded is what is looked up

The analysis of an expression and its resolution are two walks over the same tree. The first records
which columns are needed, the second looks them up. `Schema.Supplies` says that a schema has what
was recorded, and `supplies_visit_iff` follows both walks at once: at every node the analysis adds
exactly what resolving that node asks for. After grouping, an aggregate is looked up by its text and
nothing is recorded for it, so the aggregates stand beside the usage in the main statement
(`Expr.resolves_iff_needs_supplied`).
-/

namespace GraphPlan

/-! ## What a schema has -/

namespace Schema

variable {s : Schema}

/-- Some column is looked up by the key. -/
def Holds (s : Schema) (key : ColumnKey) : Prop :=
  ∃ c ∈ s.columns, c.key = key

/-- The name is an alias or the text of an aggregate that has a column. -/
def Names (s : Schema) (name : String) : Prop :=
  (s.aliasColumn? name).isSome = true ∨ s.Holds (.aggregate name)

/-- What is needed from one variable is there: a column or a name for each attribute, and a column
for the label if it is looked at. -/
structure Answers (s : Schema) (x : String) (use : VariableUse) : Prop where
  attributes : ∀ a ∈ use.attributes.names, s.Holds (.attr x a) ∨ s.Names (x ++ "." ++ a)
  label : use.labelChecked = true → s.Holds (.label x)

/-- What an expression needs is there: a column or a name for each bare name, and all that is needed
from its variables. -/
structure Supplies (s : Schema) (u : Usage) : Prop where
  refs : ∀ x ∈ u.refs.names, s.Holds (.var x) ∨ s.Names x
  vars : ∀ x use, u.vars.get? x = some use → s.Answers x use

theorem Valid.holds_iff (hs : s.Valid) {key : ColumnKey} :
    s.Holds key ↔ (s.keys.get? key).isSome = true := by
  rw [hs.isSome_get?, contents]
  simp [Holds, Column.key]

/-- A name is known exactly if it is found where aliases are looked up. -/
theorem Valid.names_iff (hs : s.Valid) {name : String} :
    s.Names name ↔ (Scope.alias? ⟨s, none⟩ name).isSome = true := by
  simp only [Names, hs.holds_iff, Scope.alias?, aggregateColumn?, Option.isSome_or,
    Bool.or_eq_true]

/-! ## One more need -/

variable {u : Usage} {x : String}

theorem supplies_empty (s : Schema) : s.Supplies .empty where
  refs := by
    intro x hx
    cases hx
  vars := by
    intro x use huse
    cases huse

/-- Only the variables and the bare names matter. -/
theorem supplies_congr {u' : Usage} (hvars : u'.vars = u.vars) (hrefs : u'.refs = u.refs) :
    s.Supplies u' ↔ s.Supplies u := by
  constructor
  · rintro ⟨h, h'⟩
    rw [hrefs] at h
    rw [hvars] at h'
    exact ⟨h, h'⟩
  · rintro ⟨h, h'⟩
    rw [← hrefs] at h
    rw [← hvars] at h'
    exact ⟨h, h'⟩

theorem supplies_addRef :
    s.Supplies (u.addRef x) ↔ s.Supplies u ∧ (s.Holds (.var x) ∨ s.Names x) := by
  constructor
  · rintro ⟨hrefs, hvars⟩
    refine ⟨⟨?_, hvars⟩, hrefs x (NameMap.mem_names_alter.2 (Or.inl rfl))⟩
    intro y hy
    exact hrefs y (NameMap.mem_names_alter.2 (Or.inr hy))
  · rintro ⟨⟨hrefs, hvars⟩, hx⟩
    refine ⟨?_, hvars⟩
    intro y hy
    rcases NameMap.mem_names_alter.1 hy with rfl | hy
    · exact hx
    · exact hrefs y hy

theorem answers_none (s : Schema) (x : String) : s.Answers x .none where
  attributes := by
    intro a ha
    cases ha
  label := by
    intro h
    cases h

/-- A use of a variable adds the need that it adds to what was needed from the variable. -/
theorem supplies_touch {f : VariableUse → VariableUse} {need : Prop}
    (hf : ∀ use, s.Answers x (f use) ↔ s.Answers x use ∧ need) :
    s.Supplies (u.touch x f) ↔ s.Supplies u ∧ need := by
  have hget : ∀ y, (u.touch x f).vars.get? y =
      if y = x then some (f ((u.vars.get? x).getD .none)) else u.vars.get? y :=
    fun y => NameMap.get?_alter ..
  constructor
  · rintro ⟨hrefs, hvars⟩
    have hx := (hf _).1 (hvars x _ ((hget x).trans (if_pos rfl)))
    refine ⟨⟨hrefs, ?_⟩, hx.2⟩
    intro y use huse
    by_cases hy : y = x
    · subst hy
      rw [huse] at hx
      exact hx.1
    · exact hvars y use (((hget y).trans (if_neg hy)).trans huse)
  · rintro ⟨⟨hrefs, hvars⟩, hneed⟩
    refine ⟨hrefs, ?_⟩
    intro y use huse
    rw [hget] at huse
    split at huse
    · next hy =>
      subst hy
      cases huse
      refine (hf _).2 ⟨?_, hneed⟩
      -- what was needed from the variable before, if anything
      cases hold : u.vars.get? y with
      | none => exact s.answers_none y
      | some use => exact hvars y use hold
    · exact hvars y use huse

theorem supplies_touchAttribute {a : String} :
    s.Supplies (u.touchAttribute x a) ↔
      s.Supplies u ∧ (s.Holds (.attr x a) ∨ s.Names (x ++ "." ++ a)) := by
  refine supplies_touch fun use => ?_
  constructor
  · rintro ⟨hattributes, hlabel⟩
    refine ⟨⟨?_, hlabel⟩, hattributes a (NameMap.mem_names_alter.2 (Or.inl rfl))⟩
    intro b hb
    exact hattributes b (NameMap.mem_names_alter.2 (Or.inr hb))
  · rintro ⟨⟨hattributes, hlabel⟩, ha⟩
    refine ⟨?_, hlabel⟩
    intro b hb
    rcases NameMap.mem_names_alter.1 hb with rfl | hb
    · exact ha
    · exact hattributes b hb

theorem supplies_touchLabel :
    s.Supplies (u.touchLabel x) ↔ s.Supplies u ∧ s.Holds (.label x) := by
  refine supplies_touch fun use => ?_
  constructor
  · rintro ⟨hattributes, hlabel⟩
    exact ⟨⟨hattributes, fun _ => hlabel rfl⟩, hlabel rfl⟩
  · rintro ⟨⟨hattributes, -⟩, hlabel⟩
    exact ⟨hattributes, fun _ => hlabel⟩

end Schema

/-! ## Both walks at once -/

/-- Where there is one schema, a lookup is made in it. -/
theorem Scope.find?_single (s : Schema) (lookup : Schema → Option Nat) :
    Scope.find? ⟨s, none⟩ lookup = lookup s := by
  unfold Scope.find?
  cases lookup s <;> rfl

namespace Expr

variable {s : Schema}

/-- Whether the algebra has nothing for the top of an expression: the missing value, a call or a
remainder. -/
def isInexpressible : Expr → Bool
  | null => true
  | call _ _ => true
  | binary .mod _ _ => true
  | _ => false

/-- No part of the expression is inexpressible. Aggregates may occur. -/
def Expressible (e : Expr) : Prop :=
  ∀ t ∈ e.parts, t.isInexpressible = false

/-- The expression can be resolved over the columns of one plan. -/
def Resolves (s : Schema) (e : Expr) : Prop :=
  ∃ t, e.resolve ⟨s, none⟩ = .ok t

theorem exists_lookup_iff {o : Option Nat} {error : PlanError} {f : Nat → Scalar} :
    (∃ t, (orError error o >>= fun i => .ok (f i)) = Except.ok t) ↔ o.isSome = true := by
  constructor
  · rintro ⟨t, ht⟩
    cases o with
    | none => cases ht
    | some i => rfl
  · exact exists_orError error f

section Resolves

variable (hs : s.Valid)

include hs

theorem resolves_ref_iff {x : String} :
    (ref x).Resolves s ↔ s.Holds (.var x) ∨ s.Names x := by
  rw [Resolves, resolve, hs.holds_iff, hs.names_iff, ← Bool.or_eq_true, ← Option.isSome_or,
    Scope.find?_single]
  exact exists_lookup_iff

theorem resolves_prop_iff {x a : String} :
    (prop x a).Resolves s ↔ s.Holds (.attr x a) ∨ s.Names (x ++ "." ++ a) := by
  rw [Resolves, resolve, hs.holds_iff, hs.names_iff, ← Bool.or_eq_true, ← Option.isSome_or,
    Scope.find?_single, text]
  exact exists_lookup_iff

theorem resolves_hasLabel_iff {x label : String} :
    (hasLabel x label).Resolves s ↔ s.Holds (.label x) := by
  rw [Resolves, resolve, hs.holds_iff, Scope.find?_single]
  exact exists_lookup_iff

theorem resolves_labelOf_iff {x : String} : (labelOf x).Resolves s ↔ s.Holds (.label x) := by
  rw [Resolves, resolve, hs.holds_iff, Scope.find?_single]
  exact exists_lookup_iff

theorem resolves_aggregateAll_iff {kind : AggregateKind} :
    (aggregateAll kind).Resolves s ↔ s.Names (aggregateAll kind).text := by
  rw [Resolves, resolve, hs.names_iff]
  exact exists_lookup_iff

theorem resolves_aggregate_iff {kind : AggregateKind} {arg : Expr} :
    (aggregate kind arg).Resolves s ↔ s.Names (aggregate kind arg).text := by
  rw [Resolves, resolve, hs.names_iff]
  exact exists_lookup_iff

end Resolves

theorem resolves_binary_iff {op : BinaryOp} (hop : op ≠ .mod) {lhs rhs : Expr} :
    (binary op lhs rhs).Resolves s ↔ lhs.Resolves s ∧ rhs.Resolves s := by
  rw [Resolves, resolve]
  · constructor
    · rintro ⟨t, ht⟩
      obtain ⟨left, hleft, ht⟩ := eq_ok_of_bind_eq_ok ht
      obtain ⟨right, hright, -⟩ := eq_ok_of_bind_eq_ok ht
      exact ⟨⟨left, hleft⟩, ⟨right, hright⟩⟩
    · rintro ⟨⟨left, hleft⟩, ⟨right, hright⟩⟩
      exact ⟨.binary op left right, by rw [hleft, hright]; rfl⟩
  · exact hop

theorem resolves_unary_iff {op : UnaryOp} {operand : Expr} :
    (unary op operand).Resolves s ↔ operand.Resolves s := by
  rw [Resolves, resolve]
  constructor
  · rintro ⟨t, ht⟩
    obtain ⟨t', ht', -⟩ := eq_ok_of_bind_eq_ok ht
    exact ⟨t', ht'⟩
  · rintro ⟨t, ht⟩
    exact ⟨.unary op t, by rw [ht]; rfl⟩

/-- The needs that an expression adds are met, and its aggregates are known, exactly if it can be
resolved. -/
theorem supplies_visit_iff (hs : s.Valid) (e : Expr) (he : e.Expressible) (u : Usage) :
    (s.Supplies (e.visit .postGroup u) ∧ ∀ t ∈ e.aggregates, s.Names t.text) ↔
      s.Supplies u ∧ e.Resolves s := by
  cases e with
  | ref x => simp [visit, aggregates, Schema.supplies_addRef, resolves_ref_iff hs]
  | prop x a => simp [visit, aggregates, Schema.supplies_touchAttribute, resolves_prop_iff hs]
  | int value | decimal value | str value | bool value =>
    constructor
    · rintro ⟨hu, -⟩
      exact ⟨hu, _, rfl⟩
    · rintro ⟨hu, -⟩
      exact ⟨hu, by simp [aggregates]⟩
  | null | call func args => cases he _ (self_mem_parts _)
  | hasLabel x label =>
    have hlabel : s.Supplies ((u.touchLabel x).addLabel label) ↔ s.Supplies (u.touchLabel x) :=
      Schema.supplies_congr rfl rfl
    simp [visit, aggregates, hlabel, Schema.supplies_touchLabel, resolves_hasLabel_iff hs]
  | labelOf x => simp [visit, aggregates, Schema.supplies_touchLabel, resolves_labelOf_iff hs]
  | aggregateAll kind => simp [visit, aggregates, resolves_aggregateAll_iff hs]
  | aggregate kind arg => simp [visit, aggregates, resolves_aggregate_iff hs]
  | unary op operand =>
    have ih := supplies_visit_iff hs operand (fun t ht => he t (by simp [parts, ht])) u
    rwa [visit, aggregates, resolves_unary_iff]
  | binary op lhs rhs =>
    have hop : op ≠ .mod := by
      rintro rfl
      cases he _ (self_mem_parts _)
    have ihl := supplies_visit_iff hs lhs (fun t ht => he t (by simp [parts, ht])) u
    have ihr := supplies_visit_iff hs rhs (fun t ht => he t (by simp [parts, ht]))
      (lhs.visit .postGroup u)
    have hvisit : s.Supplies ((binary op lhs rhs).visit .postGroup u) ↔
        s.Supplies (rhs.visit .postGroup (lhs.visit .postGroup u)) := by
      rw [visit]
      split
      · exact Schema.supplies_congr rfl rfl
      · exact Iff.rfl
    rw [hvisit, aggregates, List.forall_mem_append, resolves_binary_iff hop]
    -- the right operand first: its needs come on top of those of the left one
    calc s.Supplies (rhs.visit .postGroup (lhs.visit .postGroup u)) ∧
          (∀ t ∈ lhs.aggregates, s.Names t.text) ∧ (∀ t ∈ rhs.aggregates, s.Names t.text)
        ↔ (s.Supplies (lhs.visit .postGroup u) ∧ rhs.Resolves s) ∧
          ∀ t ∈ lhs.aggregates, s.Names t.text := by rw [← ihr]; tauto
      _ ↔ (s.Supplies u ∧ lhs.Resolves s) ∧ rhs.Resolves s := by rw [← ihl]; tauto
      _ ↔ s.Supplies u ∧ lhs.Resolves s ∧ rhs.Resolves s := and_assoc

/-! ## The two sides of a grouping -/

mutual

/-- Where there is no aggregate, the analysis is the same on both sides of a grouping. -/
theorem visit_preGroup_eq (e : Expr) (he : ∀ t ∈ e.parts, t.isAggregate = false) (u : Usage) :
    e.visit .preGroup u = e.visit .postGroup u := by
  cases e with
  | ref | prop | int | decimal | str | bool | null | hasLabel | labelOf => rfl
  | aggregateAll kind | aggregate kind arg => cases he _ (self_mem_parts _)
  | unary op operand =>
    rw [visit, visit, visit_preGroup_eq operand fun t ht => he t (by simp [parts, ht])]
  | binary op lhs rhs =>
    rw [visit, visit, visit_preGroup_eq lhs fun t ht => he t (by simp [parts, ht]),
      visit_preGroup_eq rhs fun t ht => he t (by simp [parts, ht])]
  | call func args =>
    have hargs := visitList_preGroup_eq args (fun t ht => he t (by simp [parts, ht])) u
    cases func
    case vertexLabels => rfl
    all_goals exact hargs

theorem visitList_preGroup_eq (es : List Expr) (hes : ∀ t ∈ partsList es, t.isAggregate = false)
    (u : Usage) : visitList .preGroup es u = visitList .postGroup es u := by
  cases es with
  | nil => rfl
  | cons e es =>
    rw [visitList, visitList, visit_preGroup_eq e fun t ht => hes t (by simp [partsList, ht]),
      visitList_preGroup_eq es fun t ht => hes t (by simp [partsList, ht])]

end

/-- An expression can be resolved exactly if the schema has what its analysis recorded and a result
for each of its aggregates. The analysis counts the variables that it records, and without
aggregates it records the same on both sides of a grouping. -/
theorem resolves_iff_needs_supplied {n : Nat} (hs : Schema.Reachable n s) {e : Expr}
    (he : e.Expressible) :
    ((∃ t, e.resolve ⟨s, none⟩ = .ok t) ↔
      s.Supplies (e.analyze .postGroup).usage ∧ ∀ t ∈ e.aggregates, s.Names t.text) ∧
    (∀ mode, (e.analyze mode).usage.pending = (e.analyze mode).usage.vars.size) ∧
    ((∀ t ∈ e.parts, t.isAggregate = false) →
      (e.analyze .preGroup).usage = (e.analyze .postGroup).usage) := by
  refine ⟨?_, ?_, ?_⟩
  · have hboth := supplies_visit_iff hs.counted.valid e he .empty
    rw [and_iff_right s.supplies_empty] at hboth
    exact hboth.symm
  · intro mode
    have hfresh : (e.visit mode .empty).Fresh := fresh_visit mode e Usage.fresh_empty
    exact hfresh.trans (List.length_map _)
  · intro hnone
    exact visit_preGroup_eq e hnone .empty

/-- A label, an attribute, an aggregate and an alias, each of them found in its own way. -/
theorem resolves_iff_needs_supplied_of_report :
    let grouped := stateAfter (Schema.Change.setAlias "total" 1).run
      (stateAfter (Schema.Change.addAggregate .count "*").run
        (stateAfter (Schema.Change.addLabel "n").run
          (stateAfter (Schema.Change.addAttribute "n" "age").run
            (stateAfter (Schema.Change.addVariable "n").run .empty))))
    let e := binary .and (hasLabel "n" "Person") (binary (.compare .lt)
      (binary .add (aggregateAll .count) (prop "n" "age")) (ref "total"))
    Schema.Reachable 0 grouped ∧ e.Expressible ∧
      e.resolve ⟨grouped, none⟩ = .ok (.binary .and (.isLabel 2 "Person")
        (.binary (.compare .lt) (.binary .add (.column 3) (.column 1)) (.column 1))) ∧
      ((∃ t, e.resolve ⟨grouped, none⟩ = .ok t) ↔
        grouped.Supplies (e.analyze .postGroup).usage ∧
          ∀ t ∈ e.aggregates, grouped.Names t.text) ∧
      (∀ mode, (e.analyze mode).usage.pending = (e.analyze mode).usage.vars.size) ∧
      ((∀ t ∈ e.parts, t.isAggregate = false) →
        (e.analyze .preGroup).usage = (e.analyze .postGroup).usage) := by
  intro grouped e
  have hgrouped : Schema.Reachable 0 grouped :=
    ((((Schema.Reachable.empty.change (.addVariable "n")).change
      (.addAttribute "n" "age")).change (.addLabel "n")).change
      (.addAggregate .count "*")).change (.setAlias "total" 1)
  have he : e.Expressible := by simp [e, Expressible, parts, isInexpressible]
  exact ⟨hgrouped, he, rfl, resolves_iff_needs_supplied hgrouped he⟩

end Expr

end GraphPlan
