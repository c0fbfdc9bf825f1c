import GraphPlan.Planner.Result
import GraphPlan.Proofs.Plan.Aggregates
import GraphPlan.Proofs.Planner.Match
import GraphPlan.Proofs.Schema.Reduction

/-!
# From matches to results, step by step

Grouping, order, projection and window are put on top of the plan of a pattern. `Plan.Finishing`
says how: between them the plan is only widened, and each of them is there exactly when the query
asks for it. `meets_finish` shows that nothing else can happen, and that only grouping keys,
projected values and sort keys can be the cause of a failure.
-/

namespace GraphPlan

/-! ## Columns of results -/

namespace Plan

variable {config : Config} {p : Plan}

/-- Gives one grouping key a column. -/
def groupColumn (config : Config) (key : GroupKey) : PlanM Nat :=
  if (key.expr.analyze .preGroup).usage.hasAggregates then
    throw (.unsupported .aggregateInGroupBy key.expr)
  else
    materialize config (key.expr.analyze .preGroup) (some key.name) >>= fun column =>
      PlanM.onSchema (Schema.setAlias key.expr.text column) >>= fun _ => pure column

theorem groupColumns_cons (key : GroupKey) (keys : List GroupKey) :
    groupColumns config (key :: keys) =
      groupColumn config key >>= fun i =>
        groupColumns config keys >>= fun is => pure (i :: is) := by
  simp only [groupColumns, groupColumn]
  split
  · rfl
  · simp only [bind_assoc, pure_bind]

/-- A grouping key gets a column. Nothing is aggregated yet, and a key with an aggregate is refused.
-/
theorem meets_groupColumn (key : GroupKey) (hp : p.schema.Valid) :
    (PlanM.exec (groupColumn config key) p).Meets
      (fun x => Widens config p x.2 ∧ x.1 < x.2.schema.width) PlanError.IsResolution := by
  unfold groupColumn
  split
  · exact PlanError.isResolution_unsupported _ _
  · next hagg =>
    have hready : key.expr.Ready p.schema := by
      intro text htext
      rw [key.expr.aggregatesRead_eq_nil (Bool.eq_false_iff.2 hagg)] at htext
      cases htext
    rw [PlanM.exec_bind]
    refine (meets_materialize _ hp hready).bind fun x hx => ?_
    rw [PlanM.exec_bind]
    exact (meets_setAlias config _ hx.2).bind fun y hy => ⟨hx.1.trans hy.1, hy.2⟩

/-- Every grouping key gets a column. -/
theorem meets_groupColumns (keys : List GroupKey) (hp : p.schema.Valid) :
    (PlanM.exec (groupColumns config keys) p).Meets
      (fun x => Widens config p x.2 ∧ x.1.length = keys.length ∧ ∀ i ∈ x.1, i < x.2.schema.width)
      PlanError.IsResolution :=
  meets_columns (fun _ => .null) groupColumns_cons rfl
    (fun key _ hp _ => meets_groupColumn key hp) keys hp fun _ _ => nofun

/-- Gives one result a column. -/
def projectionColumn (config : Config) (elem : ProjectionElem) : PlanM Nat :=
  materialize config (elem.expr.analyze .postGroup) none >>= fun column =>
    PlanM.onSchema (Schema.setAlias elem.expr.text column) >>= fun _ =>
      setAlias? elem.name column >>= fun _ => pure column

theorem projectionColumns_cons (elem : ProjectionElem) (elems : List ProjectionElem) :
    projectionColumns config (elem :: elems) =
      projectionColumn config elem >>= fun i =>
        projectionColumns config elems >>= fun is => pure (i :: is) := by
  simp only [projectionColumns, projectionColumn, bind_assoc, pure_bind]

/-- A result gets a column. -/
theorem meets_projectionColumn {elem : ProjectionElem} (hp : p.schema.Valid)
    (he : elem.expr.Ready p.schema) :
    (PlanM.exec (projectionColumn config elem) p).Meets
      (fun x => Widens config p x.2 ∧ x.1 < x.2.schema.width) PlanError.IsResolution := by
  rw [projectionColumn, PlanM.exec_bind]
  refine (meets_materialize none hp he).bind fun x ⟨hx, hlt⟩ => ?_
  rw [PlanM.exec_bind]
  refine (meets_setAlias config _ hlt).bind fun y ⟨hy, hlt'⟩ => ?_
  rw [PlanM.exec_bind]
  cases elem.name with
  | none => exact ⟨hx.trans hy, hlt'⟩
  | some name =>
    exact (meets_setAlias config name hlt').bind
      fun z ⟨hz, hlt''⟩ => ⟨(hx.trans hy).trans hz, hlt''⟩

/-- Every result gets a column. -/
theorem meets_projectionColumns (elems : List ProjectionElem) (hp : p.schema.Valid)
    (hready : ∀ elem ∈ elems, elem.expr.Ready p.schema) :
    (PlanM.exec (projectionColumns config elems) p).Meets
      (fun x => Widens config p x.2 ∧ x.1.length = elems.length ∧ ∀ i ∈ x.1, i < x.2.schema.width)
      PlanError.IsResolution :=
  meets_columns ProjectionElem.expr projectionColumns_cons rfl
    (fun _ _ hp he => meets_projectionColumn hp he) elems hp hready

/-- Gives one sort key a column. -/
def orderColumn (config : Config) (elem : OrderElem) : PlanM Nat :=
  if !elem.ascending then throw (.unsupported .descendingOrder elem.expr)
  else materialize config (elem.expr.analyze .postGroup) none

theorem orderColumns_cons (elem : OrderElem) (elems : List OrderElem) :
    orderColumns config (elem :: elems) =
      orderColumn config elem >>= fun i =>
        orderColumns config elems >>= fun is => pure (i :: is) := by
  simp only [orderColumns, orderColumn]
  split
  · rfl
  · rfl

/-- A sort key gets a column. -/
theorem meets_orderColumn {elem : OrderElem} (hp : p.schema.Valid)
    (he : elem.expr.Ready p.schema) :
    (PlanM.exec (orderColumn config elem) p).Meets
      (fun x => Widens config p x.2 ∧ x.1 < x.2.schema.width) PlanError.IsResolution := by
  unfold orderColumn
  split
  · exact PlanError.isResolution_unsupported _ _
  · exact meets_materialize none hp he

/-- Every sort key gets a column. -/
theorem meets_orderColumns (elems : List OrderElem) (hp : p.schema.Valid)
    (hready : ∀ elem ∈ elems, elem.expr.Ready p.schema) :
    (PlanM.exec (orderColumns config elems) p).Meets
      (fun x => Widens config p x.2 ∧ x.1.length = elems.length ∧ ∀ i ∈ x.1, i < x.2.schema.width)
      PlanError.IsResolution :=
  meets_columns OrderElem.expr orderColumns_cons rfl
    (fun _ _ hp he => meets_orderColumn hp he) elems hp hready

end Plan

/-! ## Grouping, order, projection -/

namespace Schema

variable {s : Schema}

/-- Appends a column for each aggregate. -/
def withAggregates (s : Schema) (aggregates : List AggregateInfo) : Schema :=
  aggregates.foldl (fun s a => s.addAggregate a.kind a.source) s

theorem Valid.withAggregates (hs : s.Valid) (aggregates : List AggregateInfo) :
    (s.withAggregates aggregates).Valid := by
  induction aggregates generalizing s with
  | nil => exact hs
  | cons a as ih => exact ih (hs.addAggregate a.kind a.source)

theorem width_addAggregate (s : Schema) (kind : AggregateKind) (source : String) :
    (s.addAggregate kind source).width = s.width + 1 :=
  width_push s _

theorem width_withAggregates (s : Schema) (aggregates : List AggregateInfo) :
    (s.withAggregates aggregates).width = s.width + aggregates.length := by
  induction aggregates generalizing s with
  | nil => rfl
  | cons a as ih =>
    rw [withAggregates, List.foldl_cons, ← withAggregates, ih, width_addAggregate, List.length_cons]
    omega

theorem aliasColumn?_addAggregate (s : Schema) (kind : AggregateKind) (source name : String) :
    (s.addAggregate kind source).aliasColumn? name =
      if name = aggregateText kind source then some s.width else s.aliasColumn? name := by
  simp [addAggregate, aliasColumn?, Table.get?_insert]

/-- The text of every aggregate is a name. -/
theorem isSome_aliasColumn?_withAggregates {aggregates : List AggregateInfo} {name : String}
    (h : (s.aliasColumn? name).isSome = true ∨ ∃ a ∈ aggregates, a.key = name) :
    ((s.withAggregates aggregates).aliasColumn? name).isSome = true := by
  induction aggregates generalizing s with
  | nil =>
    rcases h with h | ⟨a, ha, -⟩
    · exact h
    · cases ha
  | cons a as ih =>
    refine ih ?_
    rw [aliasColumn?_addAggregate]
    split
    · exact Or.inl rfl
    · next hne =>
      rcases h with h | ⟨b, hb, hkey⟩
      · exact Or.inl h
      · rcases List.mem_cons.1 hb with rfl | hb
        · exact absurd hkey.symm hne
        · exact Or.inr ⟨b, hb, hkey⟩

end Schema

namespace Plan

variable {config : Config} {p : Plan}

/-- The plan after grouping, if there is something to group by or to compute. -/
def grouped (p : Plan) (columns : List Nat) (aggregates : List AggregateInfo) : Plan :=
  if columns = [] ∧ aggregates = [] then p
  else
    { p.wrap (.group columns (aggregates.map AggregateInfo.aggregation)) with
      schema := (p.schema.reduced columns).withAggregates aggregates }

theorem exec_group {columns : List Nat} (aggregates : List AggregateInfo)
    (h : ∀ i ∈ columns, i < p.schema.width) :
    PlanM.exec (group columns aggregates) p = .ok ((), p.grouped columns aggregates) := by
  unfold group grouped
  by_cases hempty : columns = [] ∧ aggregates = []
  · rw [if_pos (by simp [hempty]), if_pos hempty]
    rfl
  · have hreduce : outcome (Schema.reduce columns) (p.wrap (.group columns
        (aggregates.map AggregateInfo.aggregation))).schema = _ := Schema.outcome_reduce h
    rw [if_neg (by simpa using hempty), if_neg hempty]
    simp only [PlanM.exec_bind, PlanM.exec_modify, PlanM.exec_onSchema, ok_bind, hreduce]
    rfl

/-- The plan with its rows in order, if there are sort keys. -/
def sorted (p : Plan) (columns : List Nat) : Plan :=
  if columns = [] then p else p.wrap (.sort columns)

theorem exec_order (elems : List OrderElem) :
    PlanM.exec (order config elems) p =
      PlanM.exec (orderColumns config elems) p >>= fun x => .ok ((), x.2.sorted x.1) := by
  rw [order, PlanM.exec_bind]
  congr 1
  funext x
  unfold sorted
  cases x.1 <;> rfl

@[simp]
theorem schema_sorted (p : Plan) (columns : List Nat) : (p.sorted columns).schema = p.schema := by
  unfold sorted
  split <;> rfl

theorem meets_order (elems : List OrderElem) (hp : p.schema.Valid)
    (hready : ∀ elem ∈ elems, elem.expr.Ready p.schema) :
    (PlanM.exec (order config elems) p).Meets
      (fun x => ∃ columns p', x.2 = p'.sorted columns ∧ Widens config p p' ∧
        columns.length = elems.length ∧ ∀ i ∈ columns, i < p'.schema.width)
      PlanError.IsResolution := by
  rw [exec_order]
  exact (meets_orderColumns elems hp hready).bind
    fun x ⟨hx, hlen, hlt⟩ => ⟨x.1, x.2, rfl, hx, hlen, hlt⟩

/-- The plan with the projected columns only, if there is a projection. -/
def projected (p : Plan) (columns : List Nat) : Plan :=
  if columns = [] then p
  else { p.wrap (.project columns) with schema := p.schema.reduced columns }

theorem exec_project {columns : List Nat} (h : ∀ i ∈ columns, i < p.schema.width) :
    PlanM.exec (project columns) p = .ok ((), p.projected columns) := by
  unfold project projected
  by_cases hempty : columns = []
  · rw [if_pos (by simp [hempty]), if_pos hempty]
    rfl
  · have hreduce : outcome (Schema.reduce columns) (p.wrap (.project columns)).schema = _ :=
      Schema.outcome_reduce h
    rw [if_neg (by simpa using hempty), if_neg hempty]
    simp only [PlanM.exec_bind, PlanM.exec_modify, PlanM.exec_onSchema, PlanM.exec_pure, ok_bind,
      hreduce]
    rfl

/-! ## All steps together -/

/-- How a plan of matches becomes a plan of results. -/
structure Finishing (config : Config) (q : Query) (p : Plan) where
  /-- The plan before grouping. -/
  before : Plan
  /-- It has columns for the grouping keys and the arguments of aggregates. -/
  widens_before : Widens config p before
  /-- The columns of the grouping keys. -/
  groupBy : List Nat
  /-- There is one for each key. -/
  length_groupBy : groupBy.length = q.groupBy.length
  /-- They exist. -/
  groupBy_lt : ∀ i ∈ groupBy, i < before.schema.width
  /-- The aggregates. -/
  aggregates : List AggregateInfo
  /-- There are some exactly when a projected value or a sort key contains one. -/
  aggregates_nil : aggregates = [] ↔
    Expr.anyContainsAggregate (q.projection.map ProjectionElem.expr) = false ∧
      Expr.anyContainsAggregate (q.orderBy.map OrderElem.expr) = false
  /-- Their arguments have columns. -/
  aggregates_lt : ∀ a ∈ aggregates, ∀ i, a.column = some i → i < before.schema.width
  /-- The plan after grouping. -/
  after : Plan
  /-- It has columns for the results and the sort keys. -/
  widens_after : Widens config (before.grouped groupBy aggregates) after
  /-- The columns of the sort keys. -/
  orderBy : List Nat
  /-- There is one for each sort key. -/
  length_orderBy : orderBy.length = q.orderBy.length
  /-- They exist. -/
  orderBy_lt : ∀ i ∈ orderBy, i < after.schema.width
  /-- The columns of the results. -/
  projection : List Nat
  /-- There is one for each result. -/
  length_projection : projection.length = q.projection.length
  /-- They exist. -/
  projection_lt : ∀ i ∈ projection, i < after.schema.width

/-- The plan that comes out. -/
def Finishing.result {q : Query} (f : Finishing config q p) : Plan :=
  ((f.after.sorted f.orderBy).projected f.projection).slice q.offset q.limit

theorem valid_grouped {columns : List Nat} (aggregates : List AggregateInfo) (hp : p.schema.Valid)
    (h : ∀ i ∈ columns, i < p.schema.width) : (p.grouped columns aggregates).schema.Valid := by
  unfold grouped
  split
  · exact hp
  · exact (Schema.valid_reduced h).withAggregates aggregates

/-- After grouping, the collected aggregates have their results. -/
theorem ready_grouped {columns : List Nat} {x : Extraction} {e : Expr}
    (h : ∀ text ∈ e.aggregatesRead, x.contains text = true) :
    e.Ready (p.grouped columns x.aggregates).schema := by
  intro text htext
  have hmem := h text htext
  rw [grouped, if_neg fun hempty => Extraction.aggregates_ne_nil hmem hempty.2]
  refine Schema.isSome_aliasColumn?_withAggregates (Or.inr ?_)
  simpa [Extraction.contains] using hmem

/-- Why a plan of matches does not become a plan of results. -/
def ResultFailure (f : Failure) : Prop :=
  f.stage ∈ [Stage.groupBy, .projection, .orderBy] ∧ f.error.IsResolution

theorem meets_atStage_result {α : Type} {x : Except PlanError α} {good : α → Prop} {stage : Stage}
    (hstage : stage ∈ [Stage.groupBy, .projection, .orderBy])
    (h : x.Meets good PlanError.IsResolution) : (atStage stage x).Meets good ResultFailure :=
  (meets_atStage stage h).widen fun _ ⟨hs, he⟩ => ⟨hs ▸ hstage, he⟩

theorem extractAt_eq (stage : Stage) (exprs : List Expr) (x : Extraction) :
    extractAt stage config exprs x =
      atStage stage (outcome (Expr.extractList config exprs) x) >>= fun y => .ok y.2 := by
  unfold extractAt outcome
  cases Expr.extractList config exprs x <;> rfl

theorem meets_extractAt {stage : Stage} (hstage : stage ∈ [Stage.groupBy, .projection, .orderBy])
    (exprs : List Expr) {x : Extraction} (hx : x.plan.schema.Valid) :
    (extractAt stage config exprs x).Meets
      (fun y => x.Gathers config (exprs.flatMap Expr.aggregatesRead)
        (Expr.anyContainsAggregate exprs) y) ResultFailure := by
  rw [extractAt_eq]
  exact (meets_atStage_result hstage (Expr.meets_extractList exprs hx)).bind fun y hy => hy

/-- The part of finishing that comes before grouping. -/
def gather (config : Config) (q : Query) (p : Plan) : Except Failure (List Nat × Extraction) := do
  let (groupBy, p) ← atStage .groupBy (PlanM.exec (groupColumns config q.groupBy) p)
  let x ← extractAt .projection config (q.projection.map ProjectionElem.expr) ⟨p, []⟩
  let x ← extractAt .orderBy config (q.orderBy.map OrderElem.expr) x
  return (groupBy, x)

/-- The part of finishing that starts with grouping. -/
def present (config : Config) (q : Query) (groupBy : List Nat) (x : Extraction) :
    Except Failure Plan := do
  let (_, p) ← atStage .groupBy (PlanM.exec (group groupBy x.aggregates) x.plan)
  let (projected, p) ← atStage .projection (PlanM.exec (projectionColumns config q.projection) p)
  let (_, p) ← atStage .orderBy (PlanM.exec (order config q.orderBy) p)
  let (_, p) ← atStage .finalProjection (PlanM.exec (project projected) p)
  return p.slice q.offset q.limit

theorem finish_eq (config : Config) (q : Query) (p : Plan) :
    Plan.finish config q p = gather config q p >>= fun x => present config q x.1 x.2 := by
  simp only [Plan.finish, gather, present, bind_assoc, pure_bind]

/-- What is known before grouping. -/
structure Gathered (config : Config) (q : Query) (p : Plan) (groupBy : List Nat) (x : Extraction) :
    Prop where
  /-- The plan was widened. -/
  widens : Widens config p x.plan
  /-- Every grouping key has a column. -/
  length_eq : groupBy.length = q.groupBy.length
  /-- These columns exist. -/
  groupBy_lt : ∀ i ∈ groupBy, i < x.plan.schema.width
  /-- The arguments of the aggregates have columns. -/
  inRange : x.InRange
  /-- There are aggregates exactly when a projected value or a sort key contains one. -/
  nil_iff : x.aggregates = [] ↔
    Expr.anyContainsAggregate (q.projection.map ProjectionElem.expr) = false ∧
      Expr.anyContainsAggregate (q.orderBy.map OrderElem.expr) = false
  /-- The aggregates of projected values were collected. -/
  projection : ∀ elem ∈ q.projection, ∀ text ∈ elem.expr.aggregatesRead, x.contains text = true
  /-- The aggregates of sort keys were collected. -/
  orderBy : ∀ elem ∈ q.orderBy, ∀ text ∈ elem.expr.aggregatesRead, x.contains text = true

theorem meets_gather (q : Query) (hp : p.schema.Valid) :
    (gather config q p).Meets (fun x => Gathered config q p x.1 x.2) ResultFailure := by
  unfold gather
  refine (meets_atStage_result (by simp) (meets_groupColumns q.groupBy hp)).bind ?_
  rintro ⟨groupBy, p₁⟩ ⟨hwidens, hlen, hlt⟩
  have hvalid := hwidens.keeps.valid hp
  refine (meets_extractAt (by simp) _ hvalid).bind fun x hx => ?_
  refine (meets_extractAt (by simp) _ (hx.widens.keeps.valid hvalid)).bind fun y hy => ?_
  have hboth := hx.append hy
  refine ⟨hwidens.trans hboth.widens, hlen, fun i hi => ?_, hboth.inRange nofun, ?_, ?_, ?_⟩
  · exact Nat.lt_of_lt_of_le (hlt i hi) hboth.widens.keeps.width_le
  · rw [hboth.nil_iff, Bool.or_eq_false_iff]
    simp
  · intro elem helem text htext
    refine hboth.covers text (List.mem_append_left _ ?_)
    exact List.mem_flatMap.2 ⟨elem.expr, List.mem_map.2 ⟨elem, helem, rfl⟩, htext⟩
  · intro elem helem text htext
    refine hboth.covers text (List.mem_append_right _ ?_)
    exact List.mem_flatMap.2 ⟨elem.expr, List.mem_map.2 ⟨elem, helem, rfl⟩, htext⟩

theorem meets_present {q : Query} {groupBy : List Nat} {x : Extraction} (hp : p.schema.Valid)
    (h : Gathered config q p groupBy x) :
    (present config q groupBy x).Meets (fun p' => ∃ f : Finishing config q p, p' = f.result)
      ResultFailure := by
  have hgrouped := valid_grouped x.aggregates (Widens.keeps h.widens |>.valid hp) h.groupBy_lt
  unfold present
  rw [exec_group x.aggregates h.groupBy_lt]
  refine (meets_atStage_result (by simp) (meets_projectionColumns q.projection hgrouped
    fun elem helem => ready_grouped (h.projection elem helem))).bind ?_
  rintro ⟨projection, p₁⟩ ⟨hwidens, hlen, hlt⟩
  have hready : ∀ elem ∈ q.orderBy, elem.expr.Ready p₁.schema := fun elem helem =>
    (ready_grouped (h.orderBy elem helem)).keeps hwidens.keeps
  refine (meets_atStage_result (by simp)
    (meets_order q.orderBy (hwidens.keeps.valid hgrouped) hready)).bind ?_
  rintro ⟨-, _⟩ ⟨columns, p₂, rfl, hwidens', hlen', hlt'⟩
  have hlt₂ : ∀ i ∈ projection, i < p₂.schema.width :=
    fun i hi => Nat.lt_of_lt_of_le (hlt i hi) hwidens'.keeps.width_le
  have hproject := exec_project (p := p₂.sorted columns) (by rwa [schema_sorted])
  simp only [hproject]
  exact ⟨⟨x.plan, h.widens, groupBy, h.length_eq, h.groupBy_lt, x.aggregates, h.nil_iff, h.inRange,
    p₂, hwidens.trans hwidens', columns, hlen', hlt', projection, hlen, hlt₂⟩, rfl⟩

/-- A plan of matches becomes a plan of results, or a value in it cannot be resolved. -/
theorem meets_finish (q : Query) (hp : p.schema.Valid) :
    (Plan.finish config q p).Meets (fun p' => ∃ f : Finishing config q p, p' = f.result)
      ResultFailure := by
  rw [finish_eq]
  exact (meets_gather q hp).bind fun x hx => meets_present hp hx

end Plan

/-- Planning a query: the plan of its pattern, and what is put on top of it. -/
theorem Query.meets_plan (config : Config) (q : Query) :
    (q.plan config).Meets
      (fun p' => ∃ groups r p, q.Planned config groups r p ∧
        ∃ f : Plan.Finishing config q p, p' = f.result)
      (fun f => q.MatchFailure f ∨ Plan.ResultFailure f) := by
  refine Except.Meets.bind ((meets_matchPlan config q).widen fun _ => Or.inl)
    fun p ⟨groups, r, hp⟩ => ?_
  refine (Plan.meets_finish q hp.derivation.ofPattern.valid).mono
    (fun p' hp' => ⟨groups, r, p, hp, hp'⟩) fun _ => Or.inr

end GraphPlan
