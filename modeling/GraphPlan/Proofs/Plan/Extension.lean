import GraphPlan.Constraint
import GraphPlan.Plan.Aggregates
import GraphPlan.Proofs.Plan.Missing
import GraphPlan.Proofs.Planner.Follow

/-!
# Positions stay valid while a plan grows

Positions of columns are recorded early and used late, after the plan has grown. `Plan.Extends` says
that this is safe: columns are only appended, what was found is found at the same position, and the
tree is still there below the new operators. Every operation that grows a plan extends it, also when
it fails halfway (`Plan.growth_extends`).

The columns that are added have keys that nothing was found by; `extends_of_pushAll` is the step
from this to `Plan.Extends`. For a join it holds only if the two plans are about different variables
(`Schema.Apart`).
-/

namespace GraphPlan

/-! ## The state that is left behind -/

theorem PlanM.stateAfter_ofExcept {α : Type} (x : Except PlanError α) (p : Plan) :
    stateAfter (PlanM.ofExcept x) p = p := by
  cases x <;> rfl

theorem PlanM.stateAfter_onSchema {α : Type} (act : SchemaM α) (p : Plan) :
    stateAfter (PlanM.onSchema act) p = { p with schema := stateAfter act p.schema } := by
  unfold stateAfter PlanM.onSchema
  cases act p.schema <;> rfl

theorem Extraction.stateAfter_onPlan {α : Type} (act : PlanM α) (x : Extraction) :
    stateAfter (Extraction.onPlan act) x = { x with plan := stateAfter act x.plan } := by
  unfold stateAfter Extraction.onPlan
  cases act x.plan <;> rfl

/-! ## Keys that columns are looked up by -/

/-- Whether columns are looked up by the key. Nothing looks for scratch columns, or for computed
columns by their numbers. -/
def ColumnKey.isSought : ColumnKey → Bool
  | scratch _ => false
  | computed _ => false
  | _ => true

namespace Schema

variable {s : Schema} {cs : List Content}

theorem columns_prefix_pushAll (s : Schema) (cs : List Content) :
    s.columns <+: (s.pushAll cs).columns := by
  induction cs generalizing s with
  | nil => exact List.prefix_rfl
  | cons c cs ih =>
    have hpush : s.columns <+: (s.push c).columns := List.prefix_append _ _
    exact hpush.trans (ih (s.push c))

/-- Nothing is found by the keys of the given columns. -/
def Fresh (s : Schema) (cs : List Content) : Prop :=
  ∀ c ∈ cs, c.key.isSought = true → s.keys.get? c.key = none

/-- New columns do not move what was found. -/
theorem Fresh.get?_pushAll (h : s.Fresh cs) {key : ColumnKey} {i : Nat}
    (hsought : key.isSought = true) (hkey : s.keys.get? key = some i) :
    (s.pushAll cs).keys.get? key = some i := by
  rw [get?_keys_pushAll, hkey]
  intro c hc hck
  have hnone := h c hc (by rw [hck]; exact hsought)
  rw [hck, hkey] at hnone
  cases hnone

/-! ### Columns of variables that are produced -/

/-- A variable gets a column only if it had none. -/
theorem varColumn?_of_var_mem_produced {xs : List String} {x : String}
    (h : Content.var x ∈ produced xs s) : s.varColumn? x = none := by
  induction xs generalizing s with
  | nil => cases h
  | cons y ys ih =>
    rw [produced] at h
    split at h
    · have htail := (List.mem_cons.1 h).resolve_left (by simp)
      have hnone : (s.push (.scratch y)).keys.get? (.var x) = none := ih htail
      rwa [get?_keys_push, if_neg (by simp [Content.key])] at hnone
    · next hy =>
      rcases List.mem_cons.1 h with hx | h
      · cases hx
        simpa [hasVariable] using hy
      · -- a second column for the same variable would be a scratch column
        have hnone : (s.push (.var y)).keys.get? (.var x) = none := ih h
        rw [get?_keys_push] at hnone
        split at hnone
        · cases hnone
        · exact hnone

theorem var_or_scratch_of_mem_produced {xs : List String} {c : Content} (h : c ∈ produced xs s) :
    (∃ x, c = .var x) ∨ ∃ x, c = .scratch x := by
  induction xs generalizing s with
  | nil => cases h
  | cons y ys ih =>
    rw [produced] at h
    split at h <;> rcases List.mem_cons.1 h with h | h
    · exact Or.inr ⟨y, h⟩
    · exact ih h
    · exact Or.inl ⟨y, h⟩
    · exact ih h

theorem fresh_produced (s : Schema) (xs : List String) : s.Fresh (produced xs s) := by
  intro c hc hsought
  rcases var_or_scratch_of_mem_produced hc with ⟨x, rfl⟩ | ⟨x, rfl⟩
  · exact varColumn?_of_var_mem_produced hc
  · cases hsought

end Schema

/-! ## Plans that extend others -/

namespace PlanNode

/-- A tree is the first input of another one. -/
def FirstInput (tree input : PlanNode) : Prop :=
  tree.inputs.head? = some input

/-- A tree is reached from another one by going to the first input any number of times. -/
abbrev Reaches : PlanNode → PlanNode → Prop :=
  Relation.ReflTransGen FirstInput

theorem reaches_node (op : Operator) (tree : PlanNode) (rest : List PlanNode) :
    (node op (tree :: rest)).Reaches tree :=
  .single rfl

end PlanNode

namespace Plan

/-- A plan has grown: whatever position was recorded for the old plan means the same in the new one.
At most the given name stands for something else than before. -/
structure Extends (renamed : Option String) (p p' : Plan) : Prop where
  /-- Columns are appended. -/
  columns : p.schema.columns <+: p'.schema.columns
  /-- Variables are found where they were. -/
  varColumn? : ∀ x i, p.schema.varColumn? x = some i → p'.schema.varColumn? x = some i
  /-- Attributes are found where they were. -/
  attrColumn? : ∀ x a i, p.schema.attrColumn? x a = some i → p'.schema.attrColumn? x a = some i
  /-- Labels are found where they were. -/
  labelColumn? : ∀ x i, p.schema.labelColumn? x = some i → p'.schema.labelColumn? x = some i
  /-- Aggregates are found where they were. -/
  aggregateColumn? : ∀ text i, p.schema.aggregateColumn? text = some i →
    p'.schema.aggregateColumn? text = some i
  /-- Names stand for what they stood for, or still for nothing. -/
  aliasColumn? : ∀ name, renamed ≠ some name →
    p'.schema.aliasColumn? name = p.schema.aliasColumn? name
  /-- The old tree is below the new operators. -/
  root : p'.root.Reaches p.root

variable {renamed : Option String} {p p' p'' : Plan}

/-- A plan with the same columns, where at most the given name stands for something else. -/
theorem extends_of_keys_eq (hcolumns : p'.schema.columns = p.schema.columns)
    (hkeys : p'.schema.keys = p.schema.keys)
    (haliases : ∀ name, renamed ≠ some name →
      p'.schema.aliasColumn? name = p.schema.aliasColumn? name)
    (hroot : p'.root.Reaches p.root) : Extends renamed p p' where
  columns := hcolumns ▸ List.prefix_rfl
  varColumn? := by
    intro x i hx
    rwa [Schema.varColumn?, hkeys]
  attrColumn? := by
    intro x a i hx
    rwa [Schema.attrColumn?, hkeys]
  labelColumn? := by
    intro x i hx
    rwa [Schema.labelColumn?, hkeys]
  aggregateColumn? := by
    intro text i hx
    rwa [Schema.aggregateColumn?, hkeys]
  aliasColumn? := haliases
  root := hroot

theorem Extends.refl (renamed : Option String) (p : Plan) : Extends renamed p p :=
  extends_of_keys_eq rfl rfl (fun _ _ => rfl) .refl

theorem Extends.trans (h : Extends renamed p p') (h' : Extends renamed p' p'') :
    Extends renamed p p'' where
  columns := h.columns.trans h'.columns
  varColumn? := fun x i hx => h'.varColumn? x i (h.varColumn? x i hx)
  attrColumn? := fun x a i hx => h'.attrColumn? x a i (h.attrColumn? x a i hx)
  labelColumn? := fun x i hx => h'.labelColumn? x i (h.labelColumn? x i hx)
  aggregateColumn? := fun text i hx => h'.aggregateColumn? text i (h.aggregateColumn? text i hx)
  aliasColumn? := fun name hname => (h'.aliasColumn? name hname).trans (h.aliasColumn? name hname)
  root := h'.root.trans h.root

/-- A sequence of extensions is one, as far as it gets. -/
theorem Extends.bind {α β : Type} {act : PlanM α} {f : α → PlanM β}
    (hact : Extends renamed p (stateAfter act p))
    (hf : ∀ a p', act p = .ok a p' → Extends renamed p' (stateAfter (f a) p')) :
    Extends renamed p (stateAfter (act >>= f) p) :=
  stateAfter_bind (R := Extends renamed) (fun _ _ _ => Extends.trans) hact hf

/-- Columns with fresh keys extend a plan. -/
theorem extends_of_pushAll (renamed : Option String) {cs : List Content}
    (hcs : p.schema.Fresh cs) (hschema : p'.schema = p.schema.pushAll cs)
    (hroot : p'.root.Reaches p.root) : Extends renamed p p' where
  columns := by
    rw [hschema]
    exact Schema.columns_prefix_pushAll _ _
  varColumn? := by
    intro x i hx
    rw [hschema]
    exact hcs.get?_pushAll rfl hx
  attrColumn? := by
    intro x a i hx
    rw [hschema]
    exact hcs.get?_pushAll rfl hx
  labelColumn? := by
    intro x i hx
    rw [hschema]
    exact hcs.get?_pushAll rfl hx
  aggregateColumn? := by
    intro text i hx
    rw [hschema]
    exact hcs.get?_pushAll rfl hx
  aliasColumn? := by
    intro name _
    rw [hschema, Schema.aliasColumn?, Schema.aliases_pushAll]
    rfl
  root := hroot

/-- An operator on top that adds no columns. -/
theorem extends_wrap (renamed : Option String) (p : Plan) (op : Operator) :
    Extends renamed p (p.wrap op) := by
  have hnone : p.schema.Fresh [] := by
    intro c hc
    cases hc
  exact extends_of_pushAll renamed hnone rfl (PlanNode.reaches_node op p.root [])

/-! ## Fetching -/

theorem Fetch.extends {scope : String} (renamed : Option String) (h : Fetch scope p p') :
    Extends renamed p p' := by
  cases h with
  | attributes hx hne hnodup hnew =>
    refine extends_of_pushAll renamed ?_ rfl (PlanNode.reaches_node _ p.root [])
    intro c hc _
    obtain ⟨a, ha, rfl⟩ := List.mem_map.1 hc
    exact hnew a ha
  | label hx hnew =>
    refine extends_of_pushAll renamed ?_ rfl (PlanNode.reaches_node _ p.root [])
    intro c hc _
    cases List.mem_singleton.1 hc
    exact hnew

theorem Fetches.extends {scope : String} (renamed : Option String) (h : Fetches scope p p') :
    Extends renamed p p' := by
  induction h with
  | refl => exact .refl renamed p
  | tail _ hstep ih => exact ih.trans (hstep.extends renamed)

theorem extends_fetch (renamed : Option String) (scope : String) (usage : Usage) (p : Plan) :
    Extends renamed p (p.fetch scope usage) :=
  (fetches_fetch scope usage p).extends renamed

/-! ## Values as columns -/

theorem extends_extend (renamed : Option String) (resultType : String) (value : Scalar) (p : Plan) :
    Extends renamed p (p.extend resultType value) := by
  -- counting the new column on changes nothing that is looked at
  let counted : Plan := { p with schema := { p.schema with nextSerial := p.schema.nextSerial + 1 } }
  have hcounted : Extends renamed p counted := extends_of_keys_eq rfl rfl (fun _ _ => rfl) .refl
  have hfresh : counted.schema.Fresh [.computed p.schema.nextSerial] := by
    intro c hc hsought
    cases List.mem_singleton.1 hc
    cases hsought
  exact hcounted.trans
    (extends_of_pushAll renamed hfresh rfl (PlanNode.reaches_node _ p.root []))

theorem extends_columnOf (renamed : Option String) (config : Config) (info : ExprInfo) (p : Plan) :
    Extends renamed p (stateAfter (columnOf config info) p) := by
  refine Extends.bind (extends_fetch renamed config.attributeScope info.usage p) ?_
  intro _ fetched _
  refine Extends.bind (.refl renamed fetched) ?_
  intro plan p' _
  cases plan.schema.existing? info.expr with
  | some column => exact .refl renamed p'
  | none =>
    refine Extends.bind ?_ ?_
    · rw [PlanM.stateAfter_ofExcept]
      exact .refl renamed p'
    · intro value resolved _
      exact extends_extend renamed config.extendResultType value resolved

/-- Declaring a name changes what this name stands for, and nothing else. -/
theorem extends_setAlias (name : String) (column : Nat) (p : Plan) :
    Extends (some name) p (stateAfter (PlanM.onSchema (Schema.setAlias name column)) p) := by
  rw [PlanM.stateAfter_onSchema, Schema.stateAfter_setAlias]
  split
  · refine extends_of_keys_eq rfl rfl ?_ .refl
    intro other hother
    have hne : other ≠ name := fun h => hother (by rw [h])
    simp only [Schema.aliasColumn?, Table.get?_insert, if_neg hne]
  · exact .refl _ p

theorem extends_materialize (config : Config) (info : ExprInfo) (name : Option String) (p : Plan) :
    Extends name p (stateAfter (materialize config info name) p) := by
  refine Extends.bind (extends_columnOf name config info p) ?_
  intro column p' _
  cases name with
  | none => exact .refl none p'
  | some name =>
    refine Extends.bind (extends_setAlias name column p') ?_
    intro _ q _
    exact .refl (some name) q

/-! ## Following a connection -/

theorem extends_follow (renamed : Option String) (p : Plan) (c : Connection) (step : Traversal)
    (column : Nat) : Extends renamed p (p.follow c step column) := by
  refine extends_of_pushAll renamed (Schema.fresh_produced _ _) (schema_follow p c step column) ?_
  have hwrap := PlanNode.reaches_node (step.operator column) p.root []
  unfold follow matchPairs
  split
  · exact hwrap
  · exact (PlanNode.reaches_node _ _ []).trans hwrap

theorem extends_traverse (renamed : Option String) (c : Connection) (step : Traversal) (p : Plan) :
    Extends renamed p (stateAfter (traverse c step) p) := by
  refine Extends.bind (.refl renamed p) ?_
  intro plan p' hget
  cases hget
  dsimp only
  split
  · exact .refl renamed p
  · next column _ =>
    rw [Schema.bindProduced_fst]
    exact extends_follow renamed p c step column

end Plan

/-! ## Aggregates -/

namespace Expr

/-- A sequence of actions that extend the plan extends it. -/
theorem extends_plan_bind {α β : Type} {act : ExtractM α} {f : α → ExtractM β} {x : Extraction}
    (hact : Plan.Extends none x.plan (stateAfter act x).plan)
    (hf : ∀ a x', act x = .ok a x' → Plan.Extends none x'.plan (stateAfter (f a) x').plan) :
    Plan.Extends none x.plan (stateAfter (act >>= f) x).plan :=
  stateAfter_bind (R := fun x x' : Extraction => Plan.Extends none x.plan x'.plan)
    (fun _ _ _ => Plan.Extends.trans) hact hf

theorem extends_extractAll (kind : AggregateKind) (x : Extraction) :
    Plan.Extends none x.plan (stateAfter (extractAll kind) x).plan := by
  refine extends_plan_bind (.refl none x.plan) ?_
  intro seen x' _
  split
  · exact .refl none x'.plan
  · cases kind <;> exact .refl none x'.plan

theorem extends_extractOver (config : Config) (kind : AggregateKind) (arg : Expr)
    (x : Extraction) :
    Plan.Extends none x.plan (stateAfter (extractOver config kind arg) x).plan := by
  refine extends_plan_bind (.refl none x.plan) ?_
  intro seen x' _
  split
  · exact .refl none x'.plan
  · dsimp only
    split
    · exact .refl none x'.plan
    · refine extends_plan_bind ?_ ?_
      · rw [Extraction.stateAfter_onPlan]
        exact Plan.extends_materialize config _ none x'.plan
      · intro column x'' _
        exact .refl none x''.plan

mutual

/-- Collecting aggregates extends the plan, by the columns of their arguments. -/
theorem extends_extract (config : Config) (e : Expr) (x : Extraction) :
    Plan.Extends none x.plan (stateAfter (e.extract config) x).plan := by
  cases e with
  | aggregateAll kind => exact extends_extractAll kind x
  | aggregate kind arg => exact extends_extractOver config kind arg x
  | binary op lhs rhs =>
    rw [extract]
    exact extends_plan_bind (extends_extract config lhs x) fun _ x' _ =>
      extends_extract config rhs x'
  | unary op operand =>
    rw [extract]
    exact extends_extract config operand x
  | call func args =>
    rw [extract]
    exact extends_extractList config args x
  | ref | prop | int | decimal | str | bool | null | hasLabel | labelOf => exact .refl none x.plan

theorem extends_extractList (config : Config) (es : List Expr) (x : Extraction) :
    Plan.Extends none x.plan (stateAfter (extractList config es) x).plan := by
  cases es with
  | nil =>
    rw [extractList]
    exact .refl none x.plan
  | cons e es =>
    rw [extractList]
    exact extends_plan_bind (extends_extract config e x) fun _ x' _ =>
      extends_extractList config es x'

end

end Expr

/-! ## Filters -/

namespace Schema

variable {s t : Schema}

/-- What is missing is about a variable that has a column. -/
theorem var_mem_of_mem_missing {usage : Usage} {c : Content} (h : c ∈ s.missing usage) :
    ∃ x, c.subject? = some x ∧ Content.var x ∈ s.contents := by
  obtain ⟨entry, -, hmem⟩ := List.mem_flatMap.1 h
  refine ⟨entry.1, subject?_of_mem_missingOf hmem, ?_⟩
  by_contra hunbound
  rw [missingOf_eq_nil hunbound] at hmem
  cases hmem

/-- No variable has columns in both schemas: no objects, attributes or labels. -/
def Apart (s t : Schema) : Prop :=
  ∀ c ∈ s.contents, ∀ d ∈ t.contents, ∀ x, c.subject? = some x → d.subject? ≠ some x

/-- What is fetched is about variables that the plan has columns for anyway. -/
theorem exists_subject?_of_mem_fetch {p : Plan} (hp : p.schema.Valid) {scope : String}
    {usage : Usage} {c : Content} (hc : c ∈ (p.fetch scope usage).schema.contents) {x : String}
    (hx : c.subject? = some x) : ∃ d ∈ p.schema.contents, d.subject? = some x := by
  rw [Plan.fetch_eq_grown hp, Plan.grown, contents_pushAll, List.mem_append] at hc
  rcases hc with hc | hc
  · exact ⟨c, hc, hx⟩
  · obtain ⟨y, hy, hbound⟩ := var_mem_of_mem_missing hc
    have hxy : x = y := Option.some.inj (hx.symm.trans hy)
    exact ⟨.var y, hbound, by rw [hxy]; rfl⟩

theorem Apart.fetch {p q : Plan} (h : p.schema.Apart q.schema) (hp : p.schema.Valid)
    (hq : q.schema.Valid) (scope : String) (usage : Usage) :
    (p.fetch scope usage).schema.Apart (q.fetch scope usage).schema := by
  intro c hc d hd x hcx hdx
  obtain ⟨c', hc', hcx'⟩ := exists_subject?_of_mem_fetch hp hc hcx
  obtain ⟨d', hd', hdx'⟩ := exists_subject?_of_mem_fetch hq hd hdx
  exact h c' hc' d' hd' x hcx' hdx'

/-- Columns that can be carried over are fresh for a schema about other variables. -/
theorem Apart.fresh (h : s.Apart t) (hs : s.Valid)
    (hstructural : ∀ c ∈ t.contents, c.isStructural = true) : s.Fresh t.contents := by
  intro d hd hsought
  rw [← Option.not_isSome_iff_eq_none, hs.isSome_get?]
  rintro ⟨c, hc, hkey⟩
  have hsubject : ∃ x, d.subject? = some x ∧ c.subject? = some x := by
    have hd := hstructural d hd
    cases d with
    | var x => exact ⟨x, rfl, by rw [Content.key_eq_var.1 hkey]; rfl⟩
    | attr x a => exact ⟨x, rfl, by rw [Content.key_eq_attr.1 hkey]; rfl⟩
    | label x => exact ⟨x, rfl, by rw [Content.key_eq_label.1 hkey]; rfl⟩
    | scratch tag => cases hsought
    | computed serial => cases hsought
    | aggregate kind source => cases hd
  obtain ⟨x, hdx, hcx⟩ := hsubject
  exact h c hc d hd x hcx hdx

end Schema

namespace Constraint

theorem extends_apply (c : Constraint) (config : Config) (p : Plan) :
    Plan.Extends none p (stateAfter (c.apply config) p) := by
  refine Plan.Extends.bind (Plan.extends_fetch none config.attributeScope c.usage p) ?_
  intro _ fetched _
  refine Plan.Extends.bind (.refl none fetched) ?_
  intro plan p' _
  refine Plan.Extends.bind ?_ ?_
  · rw [PlanM.stateAfter_ofExcept]
    exact .refl none p'
  · intro predicate resolved _
    exact Plan.extends_wrap none resolved (.select predicate)

theorem extends_append {p right : Plan} (hp : p.schema.Valid)
    (h : p.schema.Apart right.schema) :
    Plan.Extends none p (stateAfter (PlanM.onSchema (Schema.append right.schema)) p) := by
  rw [PlanM.stateAfter_onSchema]
  rcases Schema.stateAfter_append p.schema right.schema with ⟨hafter, hstructural⟩ | hafter
  · exact Plan.extends_of_pushAll none (h.fresh hp hstructural) hafter .refl
  · rw [hafter]
    exact .refl none p

theorem extends_applyJoin (c : Constraint) (config : Config) {p right : Plan}
    (hp : p.schema.Valid) (hright : right.schema.Valid) (h : p.schema.Apart right.schema) :
    Plan.Extends none p (stateAfter (c.applyJoin config right) p) := by
  refine Plan.Extends.bind (Plan.extends_fetch none config.attributeScope c.usage p) ?_
  intro _ fetched hfetched
  have hfetched : p.fetch config.attributeScope c.usage = fetched := by
    cases hfetched
    rfl
  have happart := h.fetch hp hright config.attributeScope c.usage
  have hvalid := Plan.valid_fetch hp config.attributeScope c.usage
  rw [hfetched] at happart hvalid
  refine Plan.Extends.bind (.refl none fetched) ?_
  intro plan p' hget
  cases hget
  refine Plan.Extends.bind ?_ ?_
  · rw [PlanM.stateAfter_ofExcept]
    exact .refl none fetched
  intro predicate resolved hresolved
  have hresolved : resolved = fetched := by
    rw [← stateAfter_of_eq_ok hresolved, PlanM.stateAfter_ofExcept]
  subst hresolved
  refine Plan.Extends.bind (extends_append hvalid happart) ?_
  intro _ merged _
  exact Plan.extends_of_keys_eq rfl rfl (fun _ _ => rfl) (PlanNode.reaches_node _ _ _)

end Constraint

namespace Plan

/-- Whatever grows a plan extends it, with a result or with an error: fetching for an expression,
giving a value a column and a name, collecting aggregates, filtering, following a connection, and
joining with a plan about other variables. -/
theorem growth_extends (config : Config) (p : Plan) :
    (∀ scope usage, Extends none p (p.fetch scope usage)) ∧
    (∀ info name, Extends name p (stateAfter (materialize config info name) p)) ∧
    (∀ (e : Expr) aggregates,
      Extends none p (stateAfter (e.extract config) ⟨p, aggregates⟩).plan) ∧
    (∀ c : Constraint, Extends none p (stateAfter (c.apply config) p)) ∧
    (∀ connection step, Extends none p (stateAfter (traverse connection step) p)) ∧
    ∀ (n m : Nat) (right : Plan), Schema.Reachable n p.schema → Schema.Reachable m right.schema →
      p.schema.Apart right.schema →
      ∀ c : Constraint, Extends none p (stateAfter (c.applyJoin config right) p) := by
  refine ⟨?_, ?_, ?_, ?_, ?_, ?_⟩
  · intro scope usage
    exact extends_fetch none scope usage p
  · intro info name
    exact extends_materialize config info name p
  · intro e aggregates
    exact Expr.extends_extract config e ⟨p, aggregates⟩
  · intro c
    exact c.extends_apply config p
  · intro connection step
    exact extends_traverse none connection step p
  · intro n m right hp hright hapart c
    exact c.extends_applyJoin config hp.counted.valid hright.counted.valid hapart

/-- A value that cannot be resolved after an attribute was fetched for it, and a join whose right
plan has to be fetched from. -/
theorem growth_extends_of_unbound_and_join :
    let left : Plan := ⟨.leaf .scanNodes, stateAfter (Schema.Change.setAlias "who" 0).run
      (stateAfter (Schema.Change.addVariable "n").run .empty)⟩
    let right : Plan := ⟨.leaf .scanNodes, stateAfter (Schema.Change.addVariable "m").run .empty⟩
    let total := Expr.binary .add (.prop "n" "age") (.prop "m" "age")
    let filter : Constraint :=
      ⟨(Expr.binary (.compare .lt) (.prop "n" "age") (.prop "m" "age")).analyze .preGroup, []⟩
    let failed := stateAfter (materialize Config.default (total.analyze .preGroup) none) left
    let joined := stateAfter (filter.applyJoin Config.default right) left
    failed.schema.contents = [.var "n", .attr "n" "age"] ∧
    joined.schema.contents = [.var "n", .attr "n" "age", .var "m", .attr "m" "age"] ∧
    Schema.Reachable 0 left.schema ∧ Schema.Reachable 0 right.schema ∧
    left.schema.Apart right.schema ∧ Extends none left failed ∧ Extends none left joined := by
  intro left right total filter failed joined
  have hleft : Schema.Reachable 0 left.schema :=
    (Schema.Reachable.empty.change (.addVariable "n")).change (.setAlias "who" 0)
  have hright : Schema.Reachable 0 right.schema := Schema.Reachable.empty.change (.addVariable "m")
  have hapart : left.schema.Apart right.schema := by
    intro c hc d hd x hcx hdx
    cases List.mem_singleton.1 hc
    cases List.mem_singleton.1 hd
    cases hcx
    exact absurd hdx (by decide)
  obtain ⟨-, hmaterialize, -, -, -, hjoin⟩ := growth_extends Config.default left
  exact ⟨by decide, by decide, hleft, hright, hapart, hmaterialize _ none,
    hjoin 0 0 right hleft hright hapart filter⟩

end Plan

end GraphPlan
