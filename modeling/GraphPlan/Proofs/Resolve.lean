import GraphPlan.Resolve
import GraphPlan.Proofs.Outcome
import GraphPlan.Proofs.Schema.Index

/-!
# What resolving an expression gives

Two statements about `Expr.resolve`. Over any scope whose schemas are valid, the scalar refers to
columns that exist, and the error is an unresolved reference or a construct that the algebra lacks
(`meets_resolve`). Over the columns of a pattern, where there are no aliases and no aggregates, a
scalar reads exactly the columns that the expression names (`reads_of_resolve`); the relation
`Reads` says this without schemas, so that later proofs go by induction on it.
-/

namespace GraphPlan

/-! ## Scalars and errors -/

/-- No part of the scalar is text that a caller has written. -/
def Scalar.explicit : Scalar → Bool
  | binary _ lhs rhs => lhs.explicit && rhs.explicit
  | unary _ operand => operand.explicit
  | verbatim _ => false
  | _ => true

namespace PlanError

/-- Whether the cause is a reference that stands for no column. -/
def isUnresolved : PlanError → Bool
  | unknownName _ => true
  | attributeMissing _ _ => true
  | labelMissing _ => true
  | _ => false

/-- The causes for which an expression cannot be resolved. -/
def IsResolution (e : PlanError) : Prop :=
  e.code = .unsupportedConstruct ∨ e.isUnresolved = true

theorem isResolution_unsupported (c : Construct) (e : Expr) : (unsupported c e).IsResolution :=
  Or.inl rfl

end PlanError

/-- What is found meets what holds of all that can be found. -/
theorem meets_orError {α : Type} {o : Option α} {e : PlanError} {good : α → Prop}
    {bad : PlanError → Prop} (hgood : ∀ a, o = some a → good a) (hbad : o = none → bad e) :
    (orError e o).Meets good bad := by
  cases o with
  | none => exact hbad rfl
  | some a => exact hgood a rfl

/-! ## Scopes -/

namespace Scope

variable {scope : Scope}

/-- The columns of a scope, those of the right plan after those of the left. -/
def contents (scope : Scope) : List Content :=
  scope.left.contents ++ (scope.right.map Schema.contents).getD []

/-- The schemas of the scope are valid. -/
def Valid (scope : Scope) : Prop :=
  scope.left.Valid ∧ ∀ right, scope.right = some right → right.Valid

@[simp]
theorem contents_single (s : Schema) : contents ⟨s, none⟩ = s.contents := by
  simp [contents]

@[simp]
theorem contents_pair (s t : Schema) : contents ⟨s, some t⟩ = s.contents ++ t.contents := by
  simp [contents]

theorem valid_single {s : Schema} (hs : s.Valid) : Valid ⟨s, none⟩ :=
  ⟨hs, nofun⟩

theorem valid_pair {s t : Schema} (hs : s.Valid) (ht : t.Valid) : Valid ⟨s, some t⟩ :=
  ⟨hs, fun right h => by cases h; exact ht⟩

/-- A lookup that is right in every schema is right in the scope. -/
theorem getElem?_of_find? (hs : scope.Valid) {lookup : Schema → Option Nat} {c : Content} {i : Nat}
    (hlookup : ∀ (s : Schema) (j : Nat), s.Valid → lookup s = some j → s.contents[j]? = some c)
    (h : scope.find? lookup = some i) : scope.contents[i]? = some c := by
  unfold find? at h
  split at h
  · next j hj =>
    cases h
    have hc := hlookup _ _ hs.1 hj
    rw [contents, List.getElem?_append_left (List.getElem?_eq_some_iff.1 hc).1, hc]
  · rw [Option.bind_eq_some_iff] at h
    obtain ⟨right, hr, h⟩ := h
    rw [Option.map_eq_some_iff] at h
    obtain ⟨j, hj, rfl⟩ := h
    have hc := hlookup _ _ (hs.2 right hr) hj
    rw [contents, List.getElem?_append_right (by rw [Schema.length_contents]; omega),
      Schema.length_contents, Nat.add_sub_cancel_left, hr]
    exact hc

theorem getElem?_of_find?_var (hs : scope.Valid) {x : String} {i : Nat}
    (h : scope.find? (·.varColumn? x) = some i) : scope.contents[i]? = some (.var x) :=
  getElem?_of_find? hs (fun _ _ hs h => hs.getElem?_of_varColumn? h) h

theorem getElem?_of_find?_attr (hs : scope.Valid) {x a : String} {i : Nat}
    (h : scope.find? (·.attrColumn? x a) = some i) : scope.contents[i]? = some (.attr x a) :=
  getElem?_of_find? hs (fun _ _ hs h => hs.getElem?_of_attrColumn? h) h

theorem getElem?_of_find?_label (hs : scope.Valid) {x : String} {i : Nat}
    (h : scope.find? (·.labelColumn? x) = some i) : scope.contents[i]? = some (.label x) :=
  getElem?_of_find? hs (fun _ _ hs h => hs.getElem?_of_labelColumn? h) h

/-- An alias stands for a column of the scope. -/
theorem alias?_lt (hs : scope.Valid) {name : String} {i : Nat} (h : scope.alias? name = some i) :
    i < scope.contents.length := by
  unfold alias? at h
  split at h
  · cases h
  · have hi : i < scope.left.width := by
      rw [Option.or_eq_some_iff] at h
      rcases h with h | ⟨-, h⟩
      · exact hs.1.alias_lt name i h
      · exact hs.1.get?_lt h
    rw [contents, List.length_append, Schema.length_contents]
    omega

theorem lt_length_of_getElem? {cs : List Content} {i : Nat} {c : Content} (h : cs[i]? = some c) :
    i < cs.length :=
  (List.getElem?_eq_some_iff.1 h).1

end Scope

/-! ## Positions and errors -/

namespace Expr

/-- The canonical texts of the aggregates whose results an expression reads. -/
def aggregatesRead : Expr → List String
  | aggregateAll kind => [(aggregateAll kind).text]
  | aggregate kind arg => [(aggregate kind arg).text]
  | binary _ lhs rhs => lhs.aggregatesRead ++ rhs.aggregatesRead
  | unary _ operand => operand.aggregatesRead
  | _ => []

/-- A scalar refers to columns of the scope, and only to columns. -/
def InScope (scope : Scope) (t : Scalar) : Prop :=
  (∀ i ∈ t.columns, i < scope.contents.length) ∧ t.explicit = true

variable {scope : Scope}

theorem inScope_column {i : Nat} (h : i < scope.contents.length) : InScope scope (.column i) :=
  ⟨by simpa [Scalar.columns] using h, rfl⟩

/-- A reference that is looked up gives a scalar over the columns of the scope. -/
theorem meets_lookup {o : Option Nat} {e : PlanError} {f : Nat → Scalar}
    (hlt : ∀ i, o = some i → i < scope.contents.length)
    (hf : ∀ i < scope.contents.length, InScope scope (f i)) (hnone : o = none → e.IsResolution) :
    (orError e o >>= fun i => .ok (f i)).Meets (InScope scope) PlanError.IsResolution := by
  refine Except.Meets.bind (meets_orError hlt hnone) ?_
  intro i hi
  exact hf i hi

/-- Resolving gives a scalar over the columns of the scope; it fails only for a reference without a
column or a construct that the algebra lacks, provided that the aggregates have results. -/
theorem meets_resolve (hs : scope.Valid) (e : Expr)
    (ha : ∀ text ∈ e.aggregatesRead, (scope.alias? text).isSome = true) :
    (e.resolve scope).Meets (InScope scope) PlanError.IsResolution := by
  induction e using Expr.resolve.induct with
  | case1 name =>
    refine meets_lookup (fun i hi => ?_) (fun i hi => inScope_column hi) fun _ => Or.inr rfl
    rcases Option.or_eq_some_iff.1 hi with hi | ⟨-, hi⟩
    · exact Scope.lt_length_of_getElem? (Scope.getElem?_of_find?_var hs hi)
    · exact Scope.alias?_lt hs hi
  | case2 var name =>
    refine meets_lookup (fun i hi => ?_) (fun i hi => inScope_column hi) fun _ => Or.inr rfl
    rcases Option.or_eq_some_iff.1 hi with hi | ⟨-, hi⟩
    · exact Scope.lt_length_of_getElem? (Scope.getElem?_of_find?_attr hs hi)
    · exact Scope.alias?_lt hs hi
  | case3 value | case4 value | case5 value | case6 value => exact ⟨nofun, rfl⟩
  | case7 | case8 lhs rhs | case15 func args => exact PlanError.isResolution_unsupported _ _
  | case9 op lhs rhs hop ihl ihr =>
    rw [resolve]
    · refine Except.Meets.bind (ihl fun text h => ha text (List.mem_append_left _ h)) ?_
      intro left hleft
      refine Except.Meets.bind (ihr fun text h => ha text (List.mem_append_right _ h)) ?_
      intro right hright
      refine ⟨fun i hi => ?_, ?_⟩
      · rcases List.mem_append.1 hi with hi | hi
        · exact hleft.1 i hi
        · exact hright.1 i hi
      · simp [Scalar.explicit, hleft.2, hright.2]
    · exact hop
  | case10 op operand ih => exact Except.Meets.bind (ih ha) fun t ht => ht
  | case11 | case12 =>
    -- the result of the aggregate is there, so the lookup cannot fail
    refine meets_lookup (fun i hi => Scope.alias?_lt hs hi) (fun i hi => inScope_column hi) ?_
    intro hnone
    have hsome := ha _ (List.mem_singleton.2 rfl)
    rw [hnone] at hsome
    cases hsome
  | case13 var label =>
    refine meets_lookup (fun i hi => ?_) (fun i hi => ?_) fun _ => Or.inr rfl
    · exact Scope.lt_length_of_getElem? (Scope.getElem?_of_find?_label hs hi)
    · exact ⟨by simpa [Scalar.columns] using hi, rfl⟩
  | case14 var =>
    refine meets_lookup (fun i hi => ?_) (fun i hi => inScope_column hi) fun _ => Or.inr rfl
    exact Scope.lt_length_of_getElem? (Scope.getElem?_of_find?_label hs hi)

/-! ## Reading the columns of a pattern -/

/-- A scalar that reads, from columns with the given contents, what an expression names. -/
inductive Reads (cs : List Content) : Expr → Scalar → Prop where
  /-- The object bound to a variable. -/
  | ref {x : String} {i : Nat} (h : cs[i]? = some (.var x)) : Reads cs (.ref x) (.column i)
  /-- An attribute of it. -/
  | prop {x a : String} {i : Nat} (h : cs[i]? = some (.attr x a)) : Reads cs (.prop x a) (.column i)
  /-- Literals. -/
  | int (value : Int64) : Reads cs (.int value) (.int value)
  /-- Decimals are rounded. -/
  | decimal (value : Binary64) : Reads cs (.decimal value) (.decimal value.toHundredths)
  | str (value : String) : Reads cs (.str value) (.str value)
  | bool (value : Bool) : Reads cs (.bool value) (.bool value)
  /-- Operands are read one by one. -/
  | binary (op : BinaryOp) {l r : Expr} {t u : Scalar} (hl : Reads cs l t) (hr : Reads cs r u) :
      Reads cs (.binary op l r) (.binary op t u)
  | unary (op : UnaryOp) {e : Expr} {t : Scalar} (h : Reads cs e t) :
      Reads cs (.unary op e) (.unary op t)
  /-- A label test and a label. -/
  | hasLabel {x label : String} {i : Nat} (h : cs[i]? = some (.label x)) :
      Reads cs (.hasLabel x label) (.isLabel i label)
  | labelOf {x : String} {i : Nat} (h : cs[i]? = some (.label x)) :
      Reads cs (.labelOf x) (.column i)

theorem eq_some_of_orError_eq_ok {α : Type} {o : Option α} {e : PlanError} {a : α}
    (h : orError e o = .ok a) : o = some a := by
  cases o with
  | none => cases h
  | some b =>
    cases h
    rfl

/-- Without aliases and aggregates, resolving reads the columns that an expression names. -/
theorem reads_of_resolve (hs : scope.Valid) (hnone : ∀ name, scope.alias? name = none) {e : Expr}
    {t : Scalar} (h : e.resolve scope = .ok t) : Reads scope.contents e t := by
  induction e using Expr.resolve.induct generalizing t with
  | case1 name =>
    obtain ⟨i, hi, ht⟩ := eq_ok_of_bind_eq_ok h
    have hi := eq_some_of_orError_eq_ok hi
    rw [hnone, Option.or_none] at hi
    cases ht
    exact .ref (Scope.getElem?_of_find?_var hs hi)
  | case2 var name =>
    obtain ⟨i, hi, ht⟩ := eq_ok_of_bind_eq_ok h
    have hi := eq_some_of_orError_eq_ok hi
    rw [hnone, Option.or_none] at hi
    cases ht
    exact .prop (Scope.getElem?_of_find?_attr hs hi)
  | case3 value =>
    cases h
    exact .int value
  | case4 value =>
    cases h
    exact .decimal value
  | case5 value =>
    cases h
    exact .str value
  | case6 value =>
    cases h
    exact .bool value
  | case7 | case8 | case15 => cases h
  | case9 op lhs rhs hop ihl ihr =>
    rw [resolve] at h
    · obtain ⟨left, hleft, h⟩ := eq_ok_of_bind_eq_ok h
      obtain ⟨right, hright, h⟩ := eq_ok_of_bind_eq_ok h
      cases h
      exact .binary op (ihl hleft) (ihr hright)
    · exact hop
  | case10 op operand ih =>
    obtain ⟨t', ht', h⟩ := eq_ok_of_bind_eq_ok h
    cases h
    exact .unary op (ih ht')
  | case11 | case12 =>
    obtain ⟨i, hi, -⟩ := eq_ok_of_bind_eq_ok h
    have hi := eq_some_of_orError_eq_ok hi
    rw [hnone] at hi
    cases hi
  | case13 var label =>
    obtain ⟨i, hi, ht⟩ := eq_ok_of_bind_eq_ok h
    cases ht
    exact .hasLabel (Scope.getElem?_of_find?_label hs (eq_some_of_orError_eq_ok hi))
  | case14 var =>
    obtain ⟨i, hi, ht⟩ := eq_ok_of_bind_eq_ok h
    cases ht
    exact .labelOf (Scope.getElem?_of_find?_label hs (eq_some_of_orError_eq_ok hi))

mutual

/-- The names of the variables that stand in an expression. -/
def names : Expr → List String
  | ref x => [x]
  | prop x _ => [x]
  | hasLabel x _ => [x]
  | labelOf x => [x]
  | binary _ lhs rhs => lhs.names ++ rhs.names
  | unary _ operand => operand.names
  | aggregate _ arg => arg.names
  | call _ args => namesList args
  | _ => []

/-- The names of the variables in several expressions. -/
def namesList : List Expr → List String
  | [] => []
  | e :: es => e.names ++ namesList es

end

/-- Every variable of an expression that is read has a column about it. -/
theorem Reads.exists_primary {cs : List Content} {e : Expr} {t : Scalar} (h : Reads cs e t)
    {x : String} (hx : x ∈ e.names) : ∃ c ∈ cs, c.primary = x := by
  induction h with
  | ref h | prop h | hasLabel h | labelOf h =>
    cases List.mem_singleton.1 hx
    exact ⟨_, List.mem_of_getElem? h, rfl⟩
  | int | decimal | str | bool => cases hx
  | binary op _ _ ihl ihr =>
    rcases List.mem_append.1 hx with hx | hx
    · exact ihl hx
    · exact ihr hx
  | unary op _ ih => exact ih hx

end Expr

namespace Scope

/-- Over the schema of a pattern, no name is an alias. -/
theorem alias?_single {s : Schema} (hs : s.OfPattern) (name : String) :
    alias? ⟨s, none⟩ name = none := by
  simp [alias?, hs.alias_none, hs.aggregateColumn?_eq_none]

/-- Over two plans, no name is an alias. -/
theorem alias?_pair (s t : Schema) (name : String) : alias? ⟨s, some t⟩ name = none :=
  rfl

end Scope

namespace Schema.OfPattern

variable {s s' : Schema} {e : Expr} {t : Scalar}

/-- A filter over one plan of a pattern reads its columns. -/
theorem reads (hs : s.OfPattern) (h : e.resolve ⟨s, none⟩ = .ok t) : Expr.Reads s.contents e t := by
  have hreads := Expr.reads_of_resolve (Scope.valid_single hs.valid) (Scope.alias?_single hs) h
  rwa [Scope.contents_single] at hreads

/-- A filter over two plans reads the columns of both. -/
theorem reads_pair (hs : s.OfPattern) (hs' : s'.OfPattern) (h : e.resolve ⟨s, some s'⟩ = .ok t) :
    Expr.Reads (s.contents ++ s'.contents) e t := by
  have hreads := Expr.reads_of_resolve (Scope.valid_pair hs.valid hs'.valid)
    (Scope.alias?_pair s s') h
  rwa [Scope.contents_pair] at hreads

end Schema.OfPattern

end GraphPlan
