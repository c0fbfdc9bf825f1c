import GraphPlan.Proofs.Expr.Parts

/-!
# Expressions that differ in their data

Two expressions are similar if they are built alike and only the strings, labels, attribute names
and decimals in them may differ, each pair in the way that a relation on data allows. Analysing and
resolving similar expressions goes the same way: both fail, or the results are similar again. The
relation is a parameter, so that one development serves two purposes: with distinct data it compares
two runs, and with a relation below equality it says what the data of a single run are.
-/

namespace Except

variable {ε α β α' β' : Type}

/-- Both have a result, and the results are in the relation `good`, or both have an error, and the
errors are in the relation `bad`. -/
def Related (good : α → β → Prop) (bad : ε → ε → Prop) : Except ε α → Except ε β → Prop
  | .ok a, .ok b => good a b
  | .error e, .error e' => bad e e'
  | _, _ => False

variable {good : α → β → Prop} {bad : ε → ε → Prop} {x : Except ε α} {y : Except ε β}

theorem Related.exists_ok (h : Related good bad x y) {a : α} (hx : x = .ok a) :
    ∃ b, y = .ok b ∧ good a b := by
  subst hx
  cases y with
  | ok b => exact ⟨b, rfl, h⟩
  | error e => exact h.elim

/-- Two sequences of two steps each. -/
theorem Related.bind {next : α' → β' → Prop} {f : α → Except ε α'} {g : β → Except ε β'}
    (h : Related good bad x y) (hf : ∀ a b, good a b → Related next bad (f a) (g b)) :
    Related next bad (x >>= f) (y >>= g) := by
  cases x <;> cases y
  · exact h
  · exact h.elim
  · exact h.elim
  · exact hf _ _ h

end Except

namespace GraphPlan

open Except (Related)

/-- A piece of data of an expression that ends up in the text of a plan. -/
inductive Datum where
  /-- The value of a string literal. -/
  | string (value : String)
  /-- The label of a label test. -/
  | label (value : String)
  /-- The name of an attribute. -/
  | property (name : String)
  /-- The value of a decimal literal. -/
  | decimal (value : Binary64)
deriving DecidableEq

namespace Expr

/-- The data at the top of an expression. -/
def datum? : Expr → Option Datum
  | str value => some (.string value)
  | hasLabel _ label => some (.label label)
  | prop _ name => some (.property name)
  | decimal value => some (.decimal value)
  | _ => none

/-- The data of an expression. -/
def data (e : Expr) : List Datum :=
  e.parts.filterMap datum?

section Data

variable {lhs rhs operand arg : Expr}

theorem data_binary {op : BinaryOp} : (binary op lhs rhs).data = lhs.data ++ rhs.data := by
  rw [data, parts, List.filterMap_cons_none rfl, List.filterMap_append, data, data]

theorem data_unary {op : UnaryOp} : (unary op operand).data = operand.data := by
  rw [data, parts, List.filterMap_cons_none rfl, data]

theorem data_aggregate {kind : AggregateKind} : (aggregate kind arg).data = arg.data := by
  rw [data, parts, List.filterMap_cons_none rfl, data]

theorem data_call {func : Builtin} {args : List Expr} :
    (call func args).data = (partsList args).filterMap datum? := by
  rw [data, parts, List.filterMap_cons_none rfl]

end Data

variable {R : Datum → Datum → Prop}

mutual

/-- The expressions are built alike and their data are related one by one. -/
inductive Similar (R : Datum → Datum → Prop) : Expr → Expr → Prop where
  | ref (name : String) : Similar R (ref name) (ref name)
  | prop (var : String) {name : String} (h : R (.property name) (.property name)) :
      Similar R (prop var name) (prop var name)
  | int (value : Int64) : Similar R (int value) (int value)
  | decimal {value value' : Binary64} (h : R (.decimal value) (.decimal value')) :
      Similar R (decimal value) (decimal value')
  | str {value value' : String} (h : R (.string value) (.string value')) :
      Similar R (str value) (str value')
  | bool (value : Bool) : Similar R (bool value) (bool value)
  | null : Similar R null null
  | binary (op : BinaryOp) {lhs rhs lhs' rhs' : Expr} (hl : Similar R lhs lhs')
      (hr : Similar R rhs rhs') : Similar R (binary op lhs rhs) (binary op lhs' rhs')
  | unary (op : UnaryOp) {operand operand' : Expr} (h : Similar R operand operand') :
      Similar R (unary op operand) (unary op operand')
  | aggregateAll (kind : AggregateKind) : Similar R (aggregateAll kind) (aggregateAll kind)
  | aggregate (kind : AggregateKind) {arg arg' : Expr} (h : Similar R arg arg') :
      Similar R (aggregate kind arg) (aggregate kind arg')
  | hasLabel (var : String) {label label' : String} (h : R (.label label) (.label label')) :
      Similar R (hasLabel var label) (hasLabel var label')
  | labelOf (var : String) : Similar R (labelOf var) (labelOf var)
  | call (func : Builtin) {args args' : List Expr} (h : SimilarList R args args') :
      Similar R (call func args) (call func args')

/-- The expressions of two lists are similar one by one. -/
inductive SimilarList (R : Datum → Datum → Prop) : List Expr → List Expr → Prop where
  | nil : SimilarList R [] []
  | cons {e e' : Expr} {es es' : List Expr} (h : Similar R e e') (hs : SimilarList R es es') :
      SimilarList R (e :: es) (e' :: es')

end

mutual

/-- An expression is similar to itself if its data are related to themselves. -/
theorem Similar.refl (e : Expr) (h : ∀ d ∈ e.data, R d d) : Similar R e e := by
  have htop : ∀ {d : Datum}, e.datum? = some d → R d d :=
    fun hd => h _ (List.mem_filterMap.2 ⟨e, e.self_mem_parts, hd⟩)
  cases e with
  | ref name => exact .ref name
  | prop var name => exact .prop var (htop rfl)
  | int value => exact .int value
  | decimal value => exact .decimal (htop rfl)
  | str value => exact .str (htop rfl)
  | bool value => exact .bool value
  | null => exact .null
  | binary op lhs rhs =>
    rw [data_binary] at h
    exact .binary op (Similar.refl lhs fun d hd => h d (List.mem_append_left _ hd))
      (Similar.refl rhs fun d hd => h d (List.mem_append_right _ hd))
  | unary op operand =>
    rw [data_unary] at h
    exact .unary op (Similar.refl operand h)
  | aggregateAll kind => exact .aggregateAll kind
  | aggregate kind arg =>
    rw [data_aggregate] at h
    exact .aggregate kind (Similar.refl arg h)
  | hasLabel var label => exact .hasLabel var (htop rfl)
  | labelOf var => exact .labelOf var
  | call func args =>
    rw [data_call] at h
    exact .call func (SimilarList.refl args h)

theorem SimilarList.refl (es : List Expr) (h : ∀ d ∈ (partsList es).filterMap datum?, R d d) :
    SimilarList R es es := by
  cases es with
  | nil => exact .nil
  | cons e es =>
    rw [partsList, List.filterMap_append] at h
    exact .cons (Similar.refl e fun d hd => h d (List.mem_append_left _ hd))
      (SimilarList.refl es fun d hd => h d (List.mem_append_right _ hd))

end

theorem SimilarList.of_forall {es : List Expr} (h : ∀ e ∈ es, Similar R e e) :
    SimilarList R es es := by
  induction es with
  | nil => exact .nil
  | cons e es ih =>
    exact .cons (h e List.mem_cons_self) (ih fun e' he' => h e' (List.mem_cons_of_mem _ he'))

/-- Data are related only to themselves. -/
def Rigid (R : Datum → Datum → Prop) : Prop :=
  ∀ d d', R d d' → d = d'

mutual

/-- Where data are related only to themselves, similar expressions are equal. -/
theorem Similar.eq (hR : Rigid R) {e e' : Expr} (h : Similar R e e') : e = e' := by
  cases h with
  | ref | prop | int | bool | null | aggregateAll | labelOf => rfl
  | decimal h | str h | hasLabel var h =>
    cases hR _ _ h
    rfl
  | binary op hl hr => rw [hl.eq hR, hr.eq hR]
  | unary op h => rw [h.eq hR]
  | aggregate kind h => rw [h.eq hR]
  | call func h => rw [h.eq hR]

theorem SimilarList.eq (hR : Rigid R) {es es' : List Expr} (h : SimilarList R es es') :
    es = es' := by
  cases h with
  | nil => rfl
  | cons h hs => rw [h.eq hR, hs.eq hR]

end

end Expr

/-! ## Analysis -/

theorem NameMap.size_add_ne_zero (s : NameSet) (name : String) : (s.add name).size ≠ 0 := by
  have hmem : name ∈ (s.add name).names := NameMap.mem_names_alter.2 (Or.inl rfl)
  intro hzero
  rw [NameMap.names, List.eq_nil_of_length_eq_zero hzero] at hmem
  cases hmem

namespace Usage

variable {R : Datum → Datum → Prop} {u u' : Usage}

/-- The needs are the same, up to the labels that are tested for, and the attributes are related to
themselves. -/
structure Alike (R : Datum → Datum → Prop) (u u' : Usage) : Prop where
  vars : u.vars = u'.vars
  refs : u.refs = u'.refs
  hasAggregates : u.hasAggregates = u'.hasAggregates
  pending : u.pending = u'.pending
  labels : u.labels.size = 0 ↔ u'.labels.size = 0
  attributes : ∀ x use, u.vars.get? x = some use → ∀ a ∈ use.attributes.names,
    R (.property a) (.property a)

theorem alike_empty : Alike R empty empty where
  vars := rfl
  refs := rfl
  hasAggregates := rfl
  pending := rfl
  labels := Iff.rfl
  attributes := by
    intro x use h
    cases h

/-- A use of a variable that looks at no attributes but the given one. -/
theorem Alike.touch (h : Alike R u u') (var : String) {f : VariableUse → VariableUse}
    (hf : ∀ use a, a ∈ (f use).attributes.names → a ∈ use.attributes.names ∨
      R (.property a) (.property a)) : Alike R (u.touch var f) (u'.touch var f) where
  vars := by rw [Usage.touch, Usage.touch, h.vars]
  refs := h.refs
  hasAggregates := h.hasAggregates
  pending := by rw [Usage.touch, Usage.touch, h.vars, h.pending]
  labels := h.labels
  attributes := by
    intro x use hx a ha
    rw [Usage.touch, NameMap.get?_alter] at hx
    split at hx
    · cases hx
      rcases hf _ a ha with hold | hnew
      · cases hget : u.vars.get? var with
        | none =>
          rw [hget] at hold
          cases hold
        | some use =>
          rw [hget] at hold
          exact h.attributes var use hget a hold
      · exact hnew
    · exact h.attributes x use hx a ha

theorem Alike.touchLabel (h : Alike R u u') (var : String) :
    Alike R (u.touchLabel var) (u'.touchLabel var) :=
  h.touch var fun _ _ ha => Or.inl ha

theorem Alike.touchAttribute (h : Alike R u u') (var : String) {attr : String}
    (hattr : R (.property attr) (.property attr)) :
    Alike R (u.touchAttribute var attr) (u'.touchAttribute var attr) := by
  refine h.touch var ?_
  intro use a ha
  rcases NameMap.mem_names_alter.1 ha with rfl | ha
  · exact Or.inr hattr
  · exact Or.inl ha

theorem Alike.addLabel (h : Alike R u u') (label label' : String) :
    Alike R (u.addLabel label) (u'.addLabel label') where
  vars := h.vars
  refs := h.refs
  hasAggregates := h.hasAggregates
  pending := h.pending
  labels := by
    refine iff_of_false ?_ ?_
    · exact NameMap.size_add_ne_zero u.labels label
    · exact NameMap.size_add_ne_zero u'.labels label'
  attributes := h.attributes

theorem Alike.addRef (h : Alike R u u') (name : String) :
    Alike R (u.addRef name) (u'.addRef name) where
  vars := h.vars
  refs := by rw [Usage.addRef, Usage.addRef, h.refs]
  hasAggregates := h.hasAggregates
  pending := h.pending
  labels := h.labels
  attributes := h.attributes

theorem Alike.seen (h : Alike R u u') :
    Alike R { u with hasAggregates := true } { u' with hasAggregates := true } :=
  ⟨h.vars, h.refs, rfl, h.pending, h.labels, h.attributes⟩

theorem Alike.promote (h : Alike R u u') (r : Registry) :
    Alike R (u.promote r) (u'.promote r) := by
  unfold Usage.promote
  rw [h.refs]
  generalize u'.refs.names.filter r.contains = names
  induction names generalizing u u' with
  | nil => exact h
  | cons name names ih => exact ih (h.touch name fun _ _ ha => Or.inl ha)

theorem Alike.markAvailable (h : Alike R u u') (vars : List String) :
    Alike R (u.markAvailable vars) (u'.markAvailable vars) where
  vars := h.vars
  refs := h.refs
  hasAggregates := h.hasAggregates
  pending := by
    unfold Usage.markAvailable
    rw [h.vars, h.pending]
  labels := h.labels
  attributes := h.attributes

end Usage

namespace Expr

variable {R : Datum → Datum → Prop}

/-- Whether a comparison tests for a label does not depend on the label. -/
theorem Similar.isSome_testedLabel? (op : BinaryOp) {lhs rhs lhs' rhs' : Expr}
    (hl : Similar R lhs lhs') (hr : Similar R rhs rhs') :
    (testedLabel? op lhs rhs).isSome = (testedLabel? op lhs' rhs').isSome := by
  cases op with
  | compare c =>
    cases hl with
    | labelOf var => cases c <;> cases hr <;> rfl
    | _ => cases c <;> rfl
  | _ => rfl

mutual

/-- Similar expressions have the same needs. -/
theorem Similar.visit {e e' : Expr} (h : Similar R e e') (mode : Mode) {u u' : Usage}
    (hu : Usage.Alike R u u') : Usage.Alike R (e.visit mode u) (e'.visit mode u') := by
  cases h with
  | ref name => exact hu.addRef name
  | prop var h => exact hu.touchAttribute var h
  | int | decimal | str | bool | null => exact hu
  | @binary op lhs rhs lhs' rhs' hl hr =>
    have hboth := hr.visit mode (hl.visit mode hu)
    have hsome := hl.isSome_testedLabel? op hr
    rw [Expr.visit, Expr.visit]
    cases hx : testedLabel? op lhs rhs <;> cases hy : testedLabel? op lhs' rhs' <;>
      rw [hx, hy] at hsome
    · exact hboth
    · cases hsome
    · cases hsome
    · exact hboth.addLabel _ _
  | unary op h => exact h.visit mode hu
  | aggregateAll kind =>
    cases mode with
    | preGroup => exact hu.seen
    | postGroup => exact hu
  | aggregate kind h =>
    cases mode with
    | preGroup => exact h.visit .preGroup hu.seen
    | postGroup => exact hu
  | hasLabel var h => exact (hu.touchLabel var).addLabel _ _
  | labelOf var => exact hu.touchLabel var
  | call func h =>
    cases func with
    | vertexLabels => exact hu
    | _ => exact h.visit mode hu

theorem SimilarList.visit {es es' : List Expr} (h : SimilarList R es es') (mode : Mode)
    {u u' : Usage} (hu : Usage.Alike R u u') :
    Usage.Alike R (visitList mode es u) (visitList mode es' u') := by
  cases h with
  | nil => exact hu
  | cons h hs => exact hs.visit mode (h.visit mode hu)

end

end Expr

/-! ## Resolving -/

/-- Errors about similar expressions: they are the same if the expressions are. -/
def PlanError.Alike (R : Datum → Datum → Prop) (e e' : PlanError) : Prop :=
  Expr.Rigid R → e = e'

theorem PlanError.Alike.refl {R : Datum → Datum → Prop} (e : PlanError) : e.Alike R e :=
  fun _ => rfl

namespace Scalar

/-- The scalars are built alike and their data are related one by one. -/
inductive Similar (R : Datum → Datum → Prop) : Scalar → Scalar → Prop where
  | column (position : Nat) : Similar R (column position) (column position)
  | int (value : Int64) : Similar R (int value) (int value)
  | decimal {value value' : Binary64} (h : R (.decimal value) (.decimal value')) :
      Similar R (decimal value.toHundredths) (decimal value'.toHundredths)
  | str {value value' : String} (h : R (.string value) (.string value')) :
      Similar R (str value) (str value')
  | bool (value : Bool) : Similar R (bool value) (bool value)
  | binary (op : BinaryOp) {lhs rhs lhs' rhs' : Scalar} (hl : Similar R lhs lhs')
      (hr : Similar R rhs rhs') : Similar R (binary op lhs rhs) (binary op lhs' rhs')
  | unary (op : UnaryOp) {operand operand' : Scalar} (h : Similar R operand operand') :
      Similar R (unary op operand) (unary op operand')
  | isLabel (position : Nat) {label label' : String} (h : R (.label label) (.label label')) :
      Similar R (isLabel position label) (isLabel position label')

end Scalar

namespace Expr

variable {R : Datum → Datum → Prop}

/-- The same lookup on both sides. -/
theorem related_lookup (o : Option Nat) (e : PlanError) {f g : Nat → Scalar}
    (h : ∀ i, Scalar.Similar R (f i) (g i)) :
    Related (Scalar.Similar R) (PlanError.Alike R) (orError e o >>= fun i => .ok (f i))
      (orError e o >>= fun i => .ok (g i)) := by
  cases o with
  | none => exact PlanError.Alike.refl e
  | some i => exact h i

theorem Similar.related_unsupported {e e' : Expr} (h : Similar R e e') (c : Construct) :
    PlanError.Alike R (.unsupported c e) (.unsupported c e') := by
  intro hR
  rw [h.eq hR]

/-- Similar expressions resolve to similar scalars. Aggregates are looked up by their texts, so they
have to be the same. -/
theorem Similar.resolve (scope : Scope) {e e' : Expr} (h : Similar R e e')
    (haggregates : e.aggregatesRead = [] ∨ e = e') :
    Related (Scalar.Similar R) (PlanError.Alike R) (e.resolve scope) (e'.resolve scope) := by
  cases h with
  | ref name => exact related_lookup _ _ fun i => .column i
  | prop var h => exact related_lookup _ _ fun i => .column i
  | int value => exact Scalar.Similar.int value
  | decimal h => exact Scalar.Similar.decimal h
  | str h => exact Scalar.Similar.str h
  | bool value => exact Scalar.Similar.bool value
  | null => exact Similar.null.related_unsupported _
  | @binary op lhs rhs lhs' rhs' hl hr =>
    have hleft : lhs.aggregatesRead = [] ∨ lhs = lhs' := by
      rcases haggregates with hnil | heq
      · exact Or.inl (List.append_eq_nil_iff.1 hnil).1
      · exact Or.inr (Expr.binary.inj heq).2.1
    have hright : rhs.aggregatesRead = [] ∨ rhs = rhs' := by
      rcases haggregates with hnil | heq
      · exact Or.inl (List.append_eq_nil_iff.1 hnil).2
      · exact Or.inr (Expr.binary.inj heq).2.2
    by_cases hop : op = .mod
    · subst hop
      exact (Similar.binary _ hl hr).related_unsupported _
    · rw [Expr.resolve, Expr.resolve]
      · refine (hl.resolve scope hleft).bind fun l l' hl => ?_
        refine (hr.resolve scope hright).bind fun r r' hr => ?_
        exact Scalar.Similar.binary op hl hr
      · exact hop
      · exact hop
  | @unary op operand operand' h =>
    have hoperand : operand.aggregatesRead = [] ∨ operand = operand' := by
      rcases haggregates with hnil | heq
      · exact Or.inl hnil
      · exact Or.inr (Expr.unary.inj heq).2
    exact (h.resolve scope hoperand).bind fun t t' ht => Scalar.Similar.unary op ht
  | aggregateAll kind => exact related_lookup _ _ fun i => .column i
  | aggregate kind h =>
    rcases haggregates with hnil | heq
    · cases hnil
    · rw [← heq]
      exact related_lookup _ _ fun i => .column i
  | hasLabel var h => exact related_lookup _ _ fun i => .isLabel i h
  | labelOf var => exact related_lookup _ _ fun i => .column i
  | call func h => exact (Similar.call func h).related_unsupported _

end Expr

end GraphPlan
