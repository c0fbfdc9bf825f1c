import GraphPlan.Proofs.Plan.Occurrences
import GraphPlan.Proofs.Planner.Counts
import GraphPlan.Proofs.Schema.Distinct

/-!
# Where the results of aggregates stand

Grouping puts the results of aggregates behind the grouping columns, in the order of its entries,
and makes the text of each aggregate a name for its column (`serves_grouped`). While this is so,
using an aggregate reads its own column (`Serves.delivers`). Fetching and computing columns leaves
names alone; a projected value declares its text and its name (`projectionColumn_eq_ok`). Which
column a projected value is found in depends on whether it is about a variable that the plan knows
(`Schema.Scoped`).
-/

namespace GraphPlan

/-! ## Where the layers are -/

namespace PlanNode

/-- The subtrees that start with a given layer. -/
def layers (l : Layer) (t : PlanNode) : List PlanNode :=
  t.subtrees.filter fun s => s.op.layer? == some l

/-- The subtrees that start with a grouping of rows. -/
def groupings (t : PlanNode) : List PlanNode :=
  t.subtrees.filter fun s => s.op.layer? == some .group

theorem layers_unary (l : Layer) (op : Operator) (t : PlanNode) :
    (node op [t]).layers l =
      if op.layer? = some l then node op [t] :: t.layers l else t.layers l := by
  simp [layers, subtrees, subtreesList, List.filter_cons, PlanNode.op]

mutual

theorem operators_eq : ∀ t : PlanNode, t.operators = t.subtrees.map op
  | node o inputs => by
    rw [operators, subtrees, List.map_cons, operatorsList_eq inputs, op]

theorem operatorsList_eq : ∀ ts : List PlanNode, operatorsList ts = (subtreesList ts).map op
  | [] => rfl
  | t :: ts => by
    rw [operatorsList, subtreesList, List.map_append, operators_eq t, operatorsList_eq ts]

end

variable {l : Layer} {b : Bool} {t t' : PlanNode}

theorem layers_eq_nil (h : ∀ op ∈ t.operators, op.layer? = none) (l : Layer) : t.layers l = [] := by
  refine List.filter_eq_nil_iff.2 fun s hs => ?_
  have hnone : s.op.layer? = none := by
    refine h s.op ?_
    rw [operators_eq]
    exact List.mem_map_of_mem hs
  simp [hnone]

/-- A layer on top leaves the other layers alone. -/
theorem Puts.layers_eq (h : Puts l b t t') {l' : Layer} (hl : l ≠ l') :
    t'.layers l' = t.layers l' := by
  cases h with
  | layer _ hop =>
    rw [layers_unary, if_neg]
    rw [hop]
    simpa using hl
  | nothing => rfl

theorem groupings_eq_nil (h : ∀ op ∈ t.operators, op.layer? = none) : t.groupings = [] :=
  layers_eq_nil h .group

theorem Puts.groupings_eq (h : Puts l b t t') (hl : l ≠ .group) : t'.groupings = t.groupings :=
  h.layers_eq hl

end PlanNode

namespace Plan

variable {config : Config} {p p' : Plan}

theorem Widens.layers_eq (h : Widens config p p') (l : Layer) :
    p'.root.layers l = p.root.layers l := by
  refine h.root_induction (motive := fun t => t.layers l = p.root.layers l)
    (fun op t hop ht => ?_) rfl
  rw [PlanNode.layers_unary, if_neg, ht]
  rw [Operator.layer?_of_isAddition hop]
  simp

theorem Widens.groupings_eq (h : Widens config p p') : p'.root.groupings = p.root.groupings :=
  h.layers_eq .group

theorem groupings_grouped (columns : List Nat) (aggregates : List AggregateInfo) :
    (p.grouped columns aggregates).root.groupings =
      if columns = [] ∧ aggregates = [] then p.root.groupings
      else .node (.group columns (aggregates.map AggregateInfo.aggregation)) [p.root] ::
        p.root.groupings := by
  unfold grouped
  split
  · rfl
  · exact (PlanNode.layers_unary .group _ _).trans (if_pos rfl)

end Plan

/-! ## Columns about variables of the pattern -/

namespace Schema

variable {r : Registry} {s : Schema}

/-- Variables that have a column, or an attribute of which has one, are registered. -/
structure Scoped (r : Registry) (s : Schema) : Prop where
  valid : s.Valid
  var : ∀ x, .var x ∈ s.contents → r.contains x = true
  attr : ∀ x a, .attr x a ∈ s.contents → r.contains x = true

theorem Scoped.pushAll (h : s.Scoped r) {cs : List Content}
    (hvar : ∀ x, .var x ∈ cs → r.contains x = true)
    (hattr : ∀ x a, .attr x a ∈ cs → r.contains x = true) : (s.pushAll cs).Scoped r where
  valid := h.valid.pushAll cs
  var := by
    intro x hx
    rw [contents_pushAll] at hx
    rcases List.mem_append.1 hx with hx | hx
    · exact h.var x hx
    · exact hvar x hx
  attr := by
    intro x a hx
    rw [contents_pushAll] at hx
    rcases List.mem_append.1 hx with hx | hx
    · exact h.attr x a hx
    · exact hattr x a hx

theorem Scoped.reduced (h : s.Scoped r) {keep : List Nat} (hkeep : ∀ i ∈ keep, i < s.width) :
    (s.reduced keep).Scoped r where
  valid := valid_reduced hkeep
  var := fun x hx => h.var x (mem_contents_of_mem_reduced (by simp [Content.role]) hx)
  attr := fun x a hx => h.attr x a (mem_contents_of_mem_reduced (by simp [Content.role]) hx)

theorem Scoped.withAggregates (h : s.Scoped r) (aggregates : List AggregateInfo) :
    (s.withAggregates aggregates).Scoped r := by
  induction aggregates generalizing s with
  | nil => exact h
  | cons a as ih =>
    have hpush : (s.pushAll [.aggregate a.kind a.source]).Scoped r :=
      h.pushAll (by simp) (by simp)
    exact ih ⟨h.valid.addAggregate a.kind a.source, hpush.var, hpush.attr⟩

/-- An expression that is not about a registered variable is found by its text only. -/
theorem Scoped.existing?_eq (h : s.Scoped r) {e : Expr}
    (href : ∀ x, e = .ref x → r.contains x = false)
    (hprop : ∀ x a, e = .prop x a → r.contains x = false) :
    s.existing? e = s.aliasColumn? e.text := by
  cases e with
  | ref x =>
    have hnone : s.varColumn? x = none := by
      by_contra hsome
      obtain ⟨i, hi⟩ := Option.ne_none_iff_exists'.1 hsome
      have hx := h.var x (List.mem_of_getElem? (h.valid.getElem?_of_varColumn? hi))
      rw [href x rfl] at hx
      cases hx
    rw [existing?, hnone, Option.none_or, Expr.text]
  | prop x a =>
    have hnone : s.attrColumn? x a = none := by
      by_contra hsome
      obtain ⟨i, hi⟩ := Option.ne_none_iff_exists'.1 hsome
      have hx := h.attr x a (List.mem_of_getElem? (h.valid.getElem?_of_attrColumn? hi))
      rw [hprop x a rfl] at hx
      cases hx
    rw [existing?, hnone, Option.none_or]
  | _ => rfl

end Schema

namespace Plan

variable {config : Config} {r : Registry} {p p' : Plan}

theorem Widen.scoped (h : Widen config p p') (hp : p.schema.Scoped r) : p'.schema.Scoped r := by
  cases h with
  | fetch h =>
    cases h with
    | @attributes x column attrs hx =>
      have hreg := hp.var x (List.mem_of_getElem? (hp.valid.getElem?_of_varColumn? hx))
      refine hp.pushAll (by simp) fun y a hy => ?_
      obtain ⟨b, -, heq⟩ := List.mem_map.1 hy
      cases heq
      exact hreg
    | label => exact hp.pushAll (by simp) (by simp)
  | extend =>
    have hpush : (p.schema.pushAll [.computed p.schema.nextSerial]).Scoped r :=
      hp.pushAll (by simp) (by simp)
    exact ⟨hp.valid.addComputed, hpush.var, hpush.attr⟩
  | named h => exact ⟨hp.valid.insertAlias _ h, hp.var, hp.attr⟩

theorem Widens.scoped (h : Widens config p p') (hp : p.schema.Scoped r) : p'.schema.Scoped r := by
  induction h with
  | refl => exact hp
  | tail _ hstep ih => exact hstep.scoped ih

theorem scoped_grouped {columns : List Nat} (aggregates : List AggregateInfo)
    (hp : p.schema.Scoped r) (h : ∀ i ∈ columns, i < p.schema.width) :
    (p.grouped columns aggregates).schema.Scoped r := by
  unfold grouped
  split
  · exact hp
  · exact (hp.reduced h).withAggregates aggregates

end Plan

/-- The plan of a pattern has columns about registered variables. -/
theorem PatternPlan.scoped {config : Config} {r : Registry} {conns : List Connection}
    {es : List Expr} {n : Nat} {p : Plan} (h : PatternPlan config r conns es n p)
    (hvars : ∀ x, p.schema.hasVariable x = true ↔ r.contains x = true) : p.schema.Scoped r := by
  have hpattern := h.ofPattern
  have hreg : ∀ x, .var x ∈ p.schema.contents → r.contains x = true := fun x hx =>
    (hvars x).1 (hpattern.valid.hasVariable_iff.2 hx)
  exact ⟨hpattern.valid, hreg, fun x a hx => hreg x (hpattern.bound _ hx)⟩

/-! ## Results of aggregates -/

namespace Schema

variable {s s' : Schema} {first : Nat} {texts : List String}

/-- The results of the aggregates with the given texts stand side by side from position `first` on,
and their texts are names for these columns. -/
def Serves (s : Schema) (first : Nat) (texts : List String) : Prop :=
  ∀ (i : Nat) (text : String), texts[i]? = some text →
    s.aggregateColumn? text = some (first + i) ∧ s.aliasColumn? text = some (first + i)

theorem Serves.congr (h : s.Serves first texts)
    (hcolumn : ∀ text, s'.aggregateColumn? text = s.aggregateColumn? text)
    (hname : ∀ text ∈ texts, s'.aliasColumn? text = s.aliasColumn? text) :
    s'.Serves first texts := by
  intro i text hi
  rw [hcolumn, hname text (List.mem_of_getElem? hi)]
  exact h i text hi

theorem withAggregates_cons (s : Schema) (a : AggregateInfo) (as : List AggregateInfo) :
    s.withAggregates (a :: as) = (s.addAggregate a.kind a.source).withAggregates as :=
  rfl

/-- Aggregates with other texts leave a text alone. -/
theorem lookup_withAggregates {aggregates : List AggregateInfo} {text : String}
    (h : text ∉ aggregates.map AggregateInfo.key) :
    (s.withAggregates aggregates).aggregateColumn? text = s.aggregateColumn? text ∧
      (s.withAggregates aggregates).aliasColumn? text = s.aliasColumn? text := by
  induction aggregates generalizing s with
  | nil => exact ⟨rfl, rfl⟩
  | cons a as ih =>
    rw [List.map_cons, List.mem_cons, not_or] at h
    have hne : text ≠ aggregateText a.kind a.source := h.1
    obtain ⟨hcolumn, hname⟩ := ih (s := s.addAggregate a.kind a.source) h.2
    rw [withAggregates_cons, hcolumn, hname, aggregateColumn?_addAggregate,
      aliasColumn?_addAggregate, if_neg hne, if_neg hne]
    exact ⟨rfl, rfl⟩

/-- Aggregates with different texts get their columns one after the other. -/
theorem serves_withAggregates {aggregates : List AggregateInfo}
    (h : (aggregates.map AggregateInfo.key).Nodup) :
    (s.withAggregates aggregates).Serves s.width (aggregates.map AggregateInfo.key) := by
  induction aggregates generalizing s with
  | nil =>
    intro i text hi
    simp at hi
  | cons a as ih =>
    obtain ⟨hnot, hrest⟩ := List.nodup_cons.1 h
    intro i text hi
    cases i with
    | zero =>
      -- the first of them is not touched by those that follow
      cases hi
      have hkey : a.key = aggregateText a.kind a.source := rfl
      obtain ⟨hcolumn, hname⟩ := lookup_withAggregates (s := s.addAggregate a.kind a.source) hnot
      rw [withAggregates_cons, hcolumn, hname, aggregateColumn?_addAggregate,
        aliasColumn?_addAggregate, if_pos hkey, if_pos hkey]
      exact ⟨rfl, rfl⟩
    | succ i =>
      have hnext := ih (s := s.addAggregate a.kind a.source) hrest i text hi
      rw [width_addAggregate] at hnext
      have hshift : s.width + (i + 1) = s.width + 1 + i := by omega
      rw [hshift]
      exact hnext

/-- An aggregate has a column for its result, and using the aggregate reads this column. -/
structure Delivers (s : Schema) (e : Expr) (column : Nat) : Prop where
  /-- The column holds the result of the aggregate. -/
  own : s.aggregateColumn? e.text = some column
  /-- The aggregate on its own needs no other column. -/
  existing : s.existing? e = some column
  /-- In a larger expression it becomes a reference to the column. -/
  resolve : e.resolve ⟨s, none⟩ = .ok (.column column)

theorem Serves.delivers (h : s.Serves first texts) {e : Expr} (he : e.isAggregate = true) {i : Nat}
    (hi : texts[i]? = some e.text) : s.Delivers e (first + i) := by
  obtain ⟨hcolumn, hname⟩ := h i e.text hi
  refine ⟨hcolumn, ?_, ?_⟩
  · cases e with
    | aggregateAll kind | aggregate kind arg => exact hname
    | _ => cases he
  · cases e with
    | aggregateAll kind | aggregate kind arg =>
      simp only [Expr.resolve, Scope.alias?, hname, Option.some_or, orError]
      rfl
    | _ => cases he

end Schema

namespace Plan

variable {config : Config} {p p' : Plan}

theorem serves_grouped {columns : List Nat} {aggregates : List AggregateInfo}
    (hlt : ∀ i ∈ columns, i < p.schema.width) (h : (aggregates.map AggregateInfo.key).Nodup) :
    (p.grouped columns aggregates).schema.Serves columns.length
      (aggregates.map AggregateInfo.key) := by
  unfold grouped
  split
  · next hempty =>
    intro i text hi
    simp [hempty.2] at hi
  · rw [← Schema.width_reduced hlt]
    exact Schema.serves_withAggregates h

/-! ## Later values -/

theorem Fetches.aliasColumn?_eq {scope : String} (h : Fetches scope p p') (name : String) :
    p'.schema.aliasColumn? name = p.schema.aliasColumn? name := by
  induction h with
  | refl => rfl
  | tail _ hstep ih =>
    rw [← ih]
    cases hstep with
    | attributes | label => exact congrArg (Table.get? · name) (Schema.aliases_pushAll _ _)

/-- The columns over which a result or a sort key is resolved: what it needs was fetched. -/
def schemaFor (config : Config) (e : Expr) (p : Plan) : Schema :=
  (p.fetch config.attributeScope (e.analyze .postGroup).usage).schema

/-- Fetching moves no result. -/
theorem serves_schemaFor {first : Nat} {texts : List String} (config : Config) (e : Expr)
    (h : p.schema.Serves first texts) : (p.schemaFor config e).Serves first texts := by
  have hfetches := fetches_fetch config.attributeScope (e.analyze .postGroup).usage p
  exact h.congr hfetches.widens.aggregateColumn? fun text _ => hfetches.aliasColumn?_eq text

/-- The column of a value is one that holds it once what it needs was fetched, or else a new one
behind all others. -/
theorem columnOf_eq_ok {info : ExprInfo} {column : Nat}
    (h : PlanM.exec (columnOf config info) p = .ok (column, p')) :
    let fetched := p.fetch config.attributeScope info.usage
    fetched.schema.existing? info.expr = some column ∧ p' = fetched ∨
      fetched.schema.existing? info.expr = none ∧ column = fetched.schema.width ∧
        ∃ value, p' = fetched.extend config.extendResultType value := by
  intro fetched
  simp only [columnOf, PlanM.exec_bind, PlanM.exec_modify, PlanM.exec_get, ok_bind] at h
  cases hexisting : fetched.schema.existing? info.expr with
  | some c =>
    rw [hexisting] at h
    cases h
    exact Or.inl ⟨rfl, rfl⟩
  | none =>
    simp only [hexisting, fetched, PlanM.exec_bind, PlanM.exec_ofExcept, PlanM.exec_modify,
      bind_assoc] at h
    obtain ⟨value, -, h⟩ := eq_ok_of_bind_eq_ok h
    cases h
    exact Or.inr ⟨rfl, rfl, value, rfl⟩

theorem materialize_none (config : Config) (info : ExprInfo) :
    materialize config info none = columnOf config info :=
  bind_pure _

/-- Giving a value a column declares no name, and a column that holds it already is taken. -/
theorem materialize_eq_ok {info : ExprInfo} {column : Nat}
    (h : PlanM.exec (materialize config info none) p = .ok (column, p')) :
    (∀ name, p'.schema.aliasColumn? name = p.schema.aliasColumn? name) ∧
      ∀ c, (p.fetch config.attributeScope info.usage).schema.existing? info.expr = some c →
        column = c := by
  rw [materialize_none] at h
  have hfetches := fetches_fetch config.attributeScope info.usage p
  obtain ⟨hfound, rfl⟩ | ⟨hnone, -, value, rfl⟩ := columnOf_eq_ok h
  · refine ⟨hfetches.aliasColumn?_eq, fun c hc => ?_⟩
    rw [hfound] at hc
    exact Option.some.inj hc
  · refine ⟨hfetches.aliasColumn?_eq, fun c hc => ?_⟩
    rw [hnone] at hc
    cases hc

theorem setAlias_eq_ok {name : String} {column : Nat} {x : Unit × Plan}
    (h : PlanM.exec (PlanM.onSchema (Schema.setAlias name column)) p = .ok x) :
    x.2 = p.named name column := by
  rw [PlanM.exec_onSchema] at h
  unfold outcome Schema.setAlias at h
  by_cases hlt : column < p.schema.width
  · rw [if_pos hlt] at h
    cases h
    rfl
  · rw [if_neg hlt] at h
    cases h

theorem aliasColumn?_named (p : Plan) (name other : String) (column : Nat) :
    (p.named name column).schema.aliasColumn? other =
      if other = name then some column else p.schema.aliasColumn? other := by
  simp [named, Schema.aliasColumn?, Table.get?_insert]

/-- A result gets a column, for which its text and its name are declared. -/
theorem projectionColumn_eq_ok {elem : ProjectionElem} {column : Nat}
    (h : PlanM.exec (projectionColumn config elem) p = .ok (column, p')) :
    (∀ name, p'.schema.aliasColumn? name =
        if elem.name = some name ∨ elem.expr.text = name then some column
        else p.schema.aliasColumn? name) ∧
      ∀ c, (p.schemaFor config elem.expr).existing? elem.expr = some c → column = c := by
  rw [projectionColumn, PlanM.exec_bind] at h
  obtain ⟨⟨i, p₁⟩, hm, h⟩ := eq_ok_of_bind_eq_ok h
  obtain ⟨hsame, htaken⟩ := materialize_eq_ok hm
  rw [PlanM.exec_bind] at h
  obtain ⟨⟨⟨⟩, p₂⟩, htext, h⟩ := eq_ok_of_bind_eq_ok h
  have hp₂ : p₂ = p₁.named elem.expr.text i := setAlias_eq_ok htext
  rw [PlanM.exec_bind] at h
  obtain ⟨⟨⟨⟩, p₃⟩, hname, h⟩ := eq_ok_of_bind_eq_ok h
  cases h
  refine ⟨fun name => ?_, htaken⟩
  have hbefore : p₂.schema.aliasColumn? name =
      if elem.expr.text = name then some i else p.schema.aliasColumn? name := by
    rw [hp₂, aliasColumn?_named, hsame]
    simp only [eq_comm]
  cases helem : elem.name with
  | none =>
    rw [helem] at hname
    cases hname
    simpa using hbefore
  | some declared =>
    rw [helem] at hname
    have hp₃ : p₃ = p₂.named declared i := setAlias_eq_ok hname
    rw [hp₃, aliasColumn?_named, hbefore]
    by_cases hd : declared = name
    · simp [hd]
    · simp [hd, Ne.symm hd]

end Plan

end GraphPlan
