import GraphPlan.Planner.State
import GraphPlan.Proofs.Pattern.Partition
import GraphPlan.Proofs.Plan.Fetch
import GraphPlan.Proofs.Planner.Follow
import GraphPlan.Proofs.Resolve

/-!
# How the plan of a pattern is built

`PatternPlan` is the inductive account of all plans that planning a pattern can build. A plan starts
with a scan, grows by fetches, by connections that are followed and by filters, and two plans over
different variables are combined by a join or a product. Beside the plan, a derivation counts what
went into it: the connections, the filters, and the number of scans.

Everything that is true of the plan of a pattern, from its schema to the rows that it yields, is
proved by induction on a derivation. That planning builds no other plans is shown elsewhere.
-/

namespace GraphPlan

/-- The scan that finds the objects on which a filter holds, the filter being about one variable. -/
inductive Expr.ScansAs (scope : String) : Expr → String → Operator → Prop where
  /-- A test of the label. -/
  | label (x label : String) : ScansAs scope (.hasLabel x label) x (.scanLabel label)
  /-- A comparison of an attribute with a literal. -/
  | comparison (x a : String) (c : Comparison) {rhs : Expr} {value : ScanValue}
      (h : rhs.scanValue? = some value) :
      ScansAs scope (.binary (.compare c) (.prop x a) rhs) x (.scanAttribute scope a c value)

/-- A plan with the columns of another one after its own. -/
def Plan.beside (p p' : Plan) (op : Operator) : Plan :=
  Plan.combine { p with schema := p.schema.pushAll p'.schema.contents } op p'.root

@[simp]
theorem Plan.schema_beside (p p' : Plan) (op : Operator) :
    (p.beside p' op).schema = p.schema.pushAll p'.schema.contents :=
  rfl

/-- The plans of a pattern over the variables of a registry, with the connections that were
followed, the filters that were applied and the number of scans. -/
inductive PatternPlan (config : Config) (r : Registry) :
    List Connection → List Expr → Nat → Plan → Prop where
  /-- All vertices. -/
  | scan {x : String} (hx : r.kind? x = some .node) :
      PatternPlan config r [] [] 1 (PlannerState.scanPlan x)
  /-- The objects on which a filter holds. -/
  | seed {e : Expr} {x : String} {op : Operator} (hx : r.contains x = true)
      (h : e.ScansAs config.attributeScope x op) :
      PatternPlan config r [] [e] 1 { Plan.seed op with schema := Schema.empty.addVariable x }
  /-- Attributes or the label of a bound variable. -/
  | fetch {cs : List Connection} {es : List Expr} {n : Nat} {p p' : Plan}
      (h : PatternPlan config r cs es n p) (hf : Plan.Fetch config.attributeScope p p') :
      PatternPlan config r cs es n p'
  /-- A connection, from a variable that is bound. -/
  | follow {cs : List Connection} {es : List Expr} {n : Nat} {p : Plan} {c : Connection}
      {step : Traversal} {column : Nat} (h : PatternPlan config r cs es n p) (hc : c.Typed r)
      (hstart : p.schema.varColumn? (step.start c) = some column) :
      PatternPlan config r (c :: cs) es n (p.follow c step column)
  /-- A filter. -/
  | select {cs : List Connection} {es : List Expr} {n : Nat} {p : Plan} {e : Expr} {t : Scalar}
      (h : PatternPlan config r cs es n p) (ht : e.resolve ⟨p.schema, none⟩ = .ok t) :
      PatternPlan config r cs (e :: es) n (p.wrap (.select t))
  /-- Two plans, a filter being the predicate of their join. -/
  | join {cs cs' : List Connection} {es es' : List Expr} {n n' : Nat} {p p' : Plan} {e : Expr}
      {t : Scalar} (h : PatternPlan config r cs es n p) (h' : PatternPlan config r cs' es' n' p')
      (hdisj : ∀ x, p.schema.hasVariable x = true → p'.schema.hasVariable x = false)
      (ht : e.resolve ⟨p.schema, some p'.schema⟩ = .ok t) :
      PatternPlan config r (cs ++ cs') (e :: (es ++ es')) (n + n')
        (p.beside p' (.join t config.joinType))
  /-- Two plans without a filter on both. -/
  | product {cs cs' : List Connection} {es es' : List Expr} {n n' : Nat} {p p' : Plan}
      (h : PatternPlan config r cs es n p) (h' : PatternPlan config r cs' es' n' p')
      (hdisj : ∀ x, p.schema.hasVariable x = true → p'.schema.hasVariable x = false) :
      PatternPlan config r (cs ++ cs') (es ++ es') (n + n') (p.beside p' .product)
  /-- The order in which connections and filters are listed makes no difference. -/
  | perm {cs cs' : List Connection} {es es' : List Expr} {n : Nat} {p : Plan}
      (h : PatternPlan config r cs es n p) (hcs : cs.Perm cs') (hes : es.Perm es') :
      PatternPlan config r cs' es' n p

/-! ## Fetches -/

namespace Plan

/-- A fetch adds columns that are about a bound variable and bind none. -/
theorem Fetch.schema_eq {scope : String} {p p' : Plan} (h : Fetch scope p p') :
    ∃ x cs, p.schema.hasVariable x = true ∧ p'.schema = p.schema.pushAll cs ∧
      ∀ c ∈ cs, c.isStructural = true ∧ c.primary = x ∧ ∀ y, c ≠ .var y := by
  cases h with
  | @attributes x column attrs hx hne hnodup hnew =>
    refine ⟨x, attrs.map (.attr x), Schema.hasVariable_of_varColumn? hx, rfl, ?_⟩
    intro c hc
    obtain ⟨a, -, rfl⟩ := List.mem_map.1 hc
    exact ⟨rfl, rfl, nofun⟩
  | @label x column hx hnew =>
    refine ⟨x, [.label x], Schema.hasVariable_of_varColumn? hx, rfl, ?_⟩
    intro c hc
    rw [List.mem_singleton.1 hc]
    exact ⟨rfl, rfl, nofun⟩

theorem Fetch.ofPattern {scope : String} {p p' : Plan} (h : Fetch scope p p')
    (hp : p.schema.OfPattern) : p'.schema.OfPattern := by
  obtain ⟨x, cs, hx, hs, hcs⟩ := h.schema_eq
  rw [hs]
  refine hp.pushAll (fun c hc => (hcs c hc).1) fun c hc => ?_
  rw [(hcs c hc).2.1]
  exact List.mem_append_left _ (hp.valid.hasVariable_iff.1 hx)

theorem Fetch.hasVariable_iff {scope : String} {p p' : Plan} (h : Fetch scope p p')
    (hp : p.schema.Valid) (x : String) :
    p'.schema.hasVariable x = true ↔ p.schema.hasVariable x = true := by
  obtain ⟨y, cs, -, hs, hcs⟩ := h.schema_eq
  rw [hs, hp.hasVariable_pushAll]
  constructor
  · rintro (h | h)
    · exact h
    · exact absurd rfl ((hcs _ h).2.2 x)
  · exact Or.inl

end Plan

theorem Expr.names_eq_nil_of_scanValue? {e : Expr} {value : ScanValue}
    (h : e.scanValue? = some value) : e.names = [] := by
  cases e with
  | int | decimal | str | bool => rfl
  | _ => cases h

namespace PatternPlan

variable {config : Config} {r : Registry} {cs : List Connection} {es : List Expr} {n : Nat}
  {p : Plan}

/-- The columns of the plan hold objects and what is read from them. -/
theorem ofPattern (h : PatternPlan config r cs es n p) : p.schema.OfPattern := by
  induction h with
  | scan hx => exact Schema.ofPattern_empty.addVariable _
  | seed hx h => exact Schema.ofPattern_empty.addVariable _
  | fetch h hf ih => exact hf.ofPattern ih
  | follow h hc hstart ih =>
    rw [Plan.schema_follow]
    exact ih.pushAll_produced _
  | select h ht ih => exact ih
  | join h h' hdisj ht ih ih' => exact ih.pushAll_contents ih'
  | product h h' hdisj ih ih' => exact ih.pushAll_contents ih'
  | perm h hcs hes ih => exact ih

/-- Several fetches in a row. -/
theorem fetches {p' : Plan} (h : PatternPlan config r cs es n p)
    (hf : Plan.Fetches config.attributeScope p p') :
    PatternPlan config r cs es n p' ∧
      ∀ x, p'.schema.hasVariable x = true ↔ p.schema.hasVariable x = true := by
  induction hf with
  | refl => exact ⟨h, fun _ => Iff.rfl⟩
  | tail _ hstep ih =>
    refine ⟨ih.1.fetch hstep, fun x => ?_⟩
    rw [hstep.hasVariable_iff ih.1.ofPattern.valid, ih.2]

/-- Following a connection binds its variables. -/
theorem hasVariable_follow (h : PatternPlan config r cs es n p) {c : Connection} {step : Traversal}
    {column : Nat} (hstart : p.schema.varColumn? (step.start c) = some column) (x : String) :
    (p.follow c step column).schema.hasVariable x = true ↔
      p.schema.hasVariable x = true ∨ x ∈ c.names := by
  rw [Plan.schema_follow, h.ofPattern.valid.hasVariable_pushAll_produced, step.mem_names_iff c]
  constructor
  · rintro (h | h)
    · exact Or.inl h
    · exact Or.inr (Or.inr h)
  · rintro (h | rfl | h)
    · exact Or.inl h
    · exact Or.inl (Schema.hasVariable_of_varColumn? hstart)
    · exact Or.inr h

/-- The variables of two plans together. -/
theorem hasVariable_beside (h : PatternPlan config r cs es n p) {cs' : List Connection}
    {es' : List Expr} {n' : Nat} {p' : Plan} (h' : PatternPlan config r cs' es' n' p')
    (op : Operator) (x : String) :
    (p.beside p' op).schema.hasVariable x = true ↔
      p.schema.hasVariable x = true ∨ p'.schema.hasVariable x = true := by
  rw [Plan.schema_beside, h.ofPattern.valid.hasVariable_pushAll,
    h'.ofPattern.valid.hasVariable_iff]

/-- The variables of the connections that were followed are bound. -/
theorem hasVariable_of_mem_names (h : PatternPlan config r cs es n p) {c : Connection}
    (hc : c ∈ cs) {x : String} (hx : x ∈ c.names) : p.schema.hasVariable x = true := by
  induction h with
  | scan | seed => cases hc
  | fetch h hf ih => exact (hf.hasVariable_iff h.ofPattern.valid x).2 (ih hc)
  | follow h _ hstart ih =>
    rw [h.hasVariable_follow hstart]
    rcases List.mem_cons.1 hc with rfl | hc
    · exact Or.inr hx
    · exact Or.inl (ih hc)
  | select _ _ ih => exact ih hc
  | join h h' _ _ ih ih' | product h h' _ ih ih' =>
    rw [h.hasVariable_beside h']
    exact (List.mem_append.1 hc).imp ih ih'
  | perm _ hcs _ ih => exact ih (hcs.mem_iff.2 hc)

/-- The variables of the filters that were applied are bound. -/
theorem hasVariable_of_mem_exprNames (h : PatternPlan config r cs es n p) {e : Expr}
    (he : e ∈ es) {x : String} (hx : x ∈ e.names) : p.schema.hasVariable x = true := by
  induction h with
  | scan => cases he
  | @seed e' y op _ hscan =>
    rw [List.mem_singleton.1 he] at hx
    have hy : x = y := by
      cases hscan with
      | label => exact List.mem_singleton.1 hx
      | comparison _ _ _ hvalue =>
        rw [Expr.names, Expr.names_eq_nil_of_scanValue? hvalue, List.append_nil] at hx
        exact List.mem_singleton.1 hx
    rw [hy, (Schema.ofPattern_empty.addVariable y).valid.hasVariable_iff]
    simp [Schema.addVariable]
  | fetch h hf ih => exact (hf.hasVariable_iff h.ofPattern.valid x).2 (ih he)
  | follow h _ hstart ih => exact (h.hasVariable_follow hstart x).2 (Or.inl (ih he))
  | select h ht ih =>
    rcases List.mem_cons.1 he with rfl | he
    · obtain ⟨c, hc, rfl⟩ := (h.ofPattern.reads ht).exists_primary hx
      exact h.ofPattern.valid.hasVariable_iff.2 (h.ofPattern.bound c hc)
    · exact ih he
  | join h h' _ ht ih ih' =>
    rw [h.hasVariable_beside h']
    rcases List.mem_cons.1 he with rfl | he
    · obtain ⟨c, hc, rfl⟩ := (h.ofPattern.reads_pair h'.ofPattern ht).exists_primary hx
      rcases List.mem_append.1 hc with hc | hc
      · exact Or.inl (h.ofPattern.valid.hasVariable_iff.2 (h.ofPattern.bound c hc))
      · exact Or.inr (h'.ofPattern.valid.hasVariable_iff.2 (h'.ofPattern.bound c hc))
    · exact (List.mem_append.1 he).imp ih ih'
  | product h h' _ ih ih' =>
    rw [h.hasVariable_beside h']
    exact (List.mem_append.1 he).imp ih ih'
  | perm _ _ hes ih => exact ih (hes.mem_iff.2 he)

end PatternPlan

end GraphPlan
