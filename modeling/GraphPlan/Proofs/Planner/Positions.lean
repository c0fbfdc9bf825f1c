import GraphPlan.Proofs.Algebra.Width
import GraphPlan.Proofs.Planner.Result

/-!
# Plans refer to columns that exist

Tree and schema of a plan grow together. `Plan.Positional` says that they agree: the tree is as wide
as the schema, and every node of it fits. Every step of planning puts an operator on top that keeps
this, so it holds of every plan that planning gives.
-/

namespace GraphPlan

namespace Plan

/-- The tree has the columns of the schema, and all its nodes fit. -/
structure Positional (p : Plan) : Prop where
  /-- Every node fits. -/
  fits : ∀ t ∈ p.root.subtrees, t.Fits
  /-- The widths agree. -/
  width_eq : p.root.width = p.schema.width

variable {config : Config} {p p' : Plan}

/-- An operator on top of one input. -/
theorem Positional.unary (h : p.Positional) {op : Operator} {s : Schema} (harity : op.arity = 1)
    (hexplicit : op.explicit = true) (hlt : ∀ i ∈ op.positions, i < p.schema.width)
    (hwidth : op.width p.schema.width = s.width) : Positional ⟨.node op [p.root], s⟩ := by
  have hsum : PlanNode.widthSum [p.root] = p.schema.width := by
    rw [PlanNode.widthSum, PlanNode.widthSum, Nat.add_zero, h.width_eq]
  refine ⟨fun t ht => ?_, by rw [PlanNode.width, hsum, hwidth]⟩
  rw [PlanNode.subtrees, PlanNode.subtreesList, PlanNode.subtreesList, List.append_nil] at ht
  rcases List.mem_cons.1 ht with rfl | ht
  · refine ⟨harity.symm, hexplicit, fun i hi => ?_⟩
    rw [PlanNode.inputs, hsum]
    exact hlt i hi
  · exact h.fits t ht

/-- An operator on top of two inputs. -/
theorem Positional.binary (h : p.Positional) (h' : p'.Positional) {op : Operator} {s : Schema}
    (harity : op.arity = 2) (hexplicit : op.explicit = true)
    (hlt : ∀ i ∈ op.positions, i < p.schema.width + p'.schema.width)
    (hwidth : op.width (p.schema.width + p'.schema.width) = s.width) :
    Positional ⟨.node op [p.root, p'.root], s⟩ := by
  have hsum : PlanNode.widthSum [p.root, p'.root] = p.schema.width + p'.schema.width := by
    simp only [PlanNode.widthSum, Nat.add_zero, h.width_eq, h'.width_eq]
  refine ⟨fun t ht => ?_, by rw [PlanNode.width, hsum, hwidth]⟩
  simp only [PlanNode.subtrees, PlanNode.subtreesList, List.append_nil, List.mem_cons,
    List.mem_append] at ht
  rcases ht with rfl | ht | ht
  · refine ⟨harity.symm, hexplicit, fun i hi => ?_⟩
    rw [PlanNode.inputs, hsum]
    exact hlt i hi
  · exact h.fits t ht
  · exact h'.fits t ht

/-- A scan that binds a variable. -/
theorem positional_scan {op : Operator} (x : String) (harity : op.arity = 0)
    (hexplicit : op.explicit = true) (hpositions : op.positions = []) (hwidth : op.width 0 = 1) :
    Positional { Plan.seed op with schema := Schema.empty.addVariable x } := by
  refine ⟨fun t ht => ?_, by rw [Plan.seed, PlanNode.leaf, PlanNode.width]; exact hwidth⟩
  rw [Plan.seed, PlanNode.leaf, PlanNode.subtrees, PlanNode.subtreesList,
    List.mem_singleton] at ht
  subst ht
  refine ⟨harity.symm, hexplicit, fun i hi => ?_⟩
  rw [PlanNode.op, hpositions] at hi
  cases hi

/-- A fetch reads from the column of a variable. -/
theorem Positional.fetch {scope : String} (h : p.Positional) (hp : p.schema.Valid)
    (hf : Fetch scope p p') : p'.Positional := by
  cases hf with
  | attributes hx hne hnodup hnew =>
    refine h.unary rfl rfl (fun i hi => ?_) (by rw [Schema.width_pushAll, List.length_map]; rfl)
    rw [List.mem_singleton.1 hi]
    exact hp.get?_lt hx
  | label hx hnew =>
    refine h.unary rfl rfl (fun i hi => ?_) (by rw [Schema.width_pushAll]; rfl)
    rw [List.mem_singleton.1 hi]
    exact hp.get?_lt hx

/-- Following a connection starts from a column, and the pairs are columns. -/
theorem Positional.follow (h : p.Positional) (hp : p.schema.Valid) {c : Connection}
    {step : Traversal} {column : Nat} (hstart : p.schema.varColumn? (step.start c) = some column) :
    (p.follow c step column).Positional := by
  have htraverse : Positional { p.wrap (step.operator column) with
      schema := p.schema.pushAll (Schema.produced (step.produced c) p.schema) } := by
    have hlt := hp.get?_lt hstart
    refine h.unary ?_ ?_ ?_ ?_
    · rcases step with _ | _ <;> rfl
    · rcases step with _ | _ <;> rfl
    · rcases step with _ | _ <;> simpa [Traversal.operator, Operator.positions] using hlt
    · rw [Schema.width_pushAll, Schema.length_produced]
      rcases step with _ | _ | _ <;> rfl
  unfold Plan.follow matchPairs
  split
  · exact htraverse
  · refine htraverse.unary rfl rfl (fun i hi => ?_) rfl
    obtain ⟨⟨known, position⟩, hpair, hi⟩ := List.mem_flatMap.1 hi
    obtain ⟨x, hknown, hposition⟩ := Schema.contents_of_mem_bindProduced hp hpair
    rw [← Schema.contents_pushAll] at hknown hposition
    rw [← Schema.length_contents]
    simp only [List.mem_cons, List.not_mem_nil, or_false] at hi
    rcases hi with rfl | rfl
    · exact Scope.lt_length_of_getElem? hknown
    · exact Scope.lt_length_of_getElem? hposition

end Plan

/-- The plan of a pattern refers to columns that exist. -/
theorem PatternPlan.positional {config : Config} {r : Registry} {cs : List Connection}
    {es : List Expr} {n : Nat} {p : Plan} (h : PatternPlan config r cs es n p) : p.Positional := by
  induction h with
  | scan hx => exact Plan.positional_scan _ rfl rfl rfl rfl
  | seed hx hscan =>
    cases hscan with
    | label => exact Plan.positional_scan _ rfl rfl rfl rfl
    | comparison => exact Plan.positional_scan _ rfl rfl rfl rfl
  | fetch h hf ih => exact ih.fetch h.ofPattern.valid hf
  | follow h hc hstart ih => exact ih.follow h.ofPattern.valid hstart
  | select h ht ih =>
    obtain ⟨hlt, hexplicit⟩ := (h.ofPattern.reads ht).inRange
    rw [Schema.length_contents] at hlt
    exact ih.unary rfl hexplicit hlt rfl
  | join h h' hdisj ht ih ih' =>
    obtain ⟨hlt, hexplicit⟩ := (h.ofPattern.reads_pair h'.ofPattern ht).inRange
    rw [List.length_append, Schema.length_contents, Schema.length_contents] at hlt
    exact ih.binary ih' rfl hexplicit hlt
      (by rw [Schema.width_pushAll, Schema.length_contents]; rfl)
  | product h h' hdisj ih ih' =>
    exact ih.binary ih' rfl rfl nofun (by rw [Schema.width_pushAll, Schema.length_contents]; rfl)
  | perm h hcs hes ih => exact ih

namespace Plan

variable {config : Config} {p p' : Plan}

/-! ## Results -/

theorem Positional.widens (h : p.Positional) (hp : p.schema.Valid) (hw : Widens config p p') :
    p'.Positional := by
  induction hw with
  | refl => exact h
  | tail hrest hstep ih =>
    have hvalid := (Widens.keeps hrest).valid hp
    cases hstep with
    | fetch hf => exact ih.fetch hvalid hf
    | extend hcolumns hexplicit =>
      refine ih.unary rfl hexplicit hcolumns ?_
      simp [Operator.width, Schema.addComputed, Schema.width]
    | named hlt => exact ⟨ih.fits, ih.width_eq⟩

theorem Positional.grouped (h : p.Positional) {columns : List Nat} {aggregates : List AggregateInfo}
    (hcolumns : ∀ i ∈ columns, i < p.schema.width)
    (haggregates : ∀ a ∈ aggregates, ∀ i, a.column = some i → i < p.schema.width) :
    (p.grouped columns aggregates).Positional := by
  unfold Plan.grouped
  split
  · exact h
  · refine h.unary rfl ?_ ?_ ?_
    · rw [Operator.explicit, List.all_map, List.all_eq_true]
      intro a ha
      rw [Function.comp, AggregateInfo.aggregation]
      split <;> rfl
    · intro i hi
      rcases List.mem_append.1 hi with hi | hi
      · exact hcolumns i hi
      · obtain ⟨b, hb, hi⟩ := List.mem_flatMap.1 hi
        obtain ⟨a, ha, rfl⟩ := List.mem_map.1 hb
        rw [AggregateInfo.aggregation] at hi
        split at hi
        · next column hcolumn =>
          rw [List.mem_singleton.1 hi]
          exact haggregates a ha column hcolumn
        · cases hi
    · rw [Schema.width_withAggregates, Schema.width_reduced hcolumns, Operator.width,
        List.length_map]

theorem Positional.sorted (h : p.Positional) {columns : List Nat}
    (hcolumns : ∀ i ∈ columns, i < p.schema.width) : (p.sorted columns).Positional := by
  unfold Plan.sorted
  split
  · exact h
  · exact h.unary rfl rfl hcolumns rfl

theorem Positional.projected (h : p.Positional) {columns : List Nat}
    (hcolumns : ∀ i ∈ columns, i < p.schema.width) : (p.projected columns).Positional := by
  unfold Plan.projected
  split
  · exact h
  · exact h.unary rfl rfl hcolumns (by rw [Schema.width_reduced hcolumns]; rfl)

theorem Positional.slice (h : p.Positional) (offset limit : Option UInt64) :
    (p.slice offset limit).Positional := by
  unfold Plan.slice
  split
  · exact h.unary rfl rfl nofun rfl
  · exact h

/-- What is put on top of the plan of a pattern refers to columns that exist. -/
theorem Finishing.positional {q : Query} (f : Finishing config q p) (hp : p.schema.Valid)
    (h : p.Positional) : f.result.Positional := by
  have hvalid := (Widens.keeps f.widens_before).valid hp
  have hbefore := h.widens hp f.widens_before
  have hgrouped := hbefore.grouped f.groupBy_lt f.aggregates_lt
  have hafter := hgrouped.widens (valid_grouped f.aggregates hvalid f.groupBy_lt) f.widens_after
  have hsorted := hafter.sorted f.orderBy_lt
  refine Positional.slice (hsorted.projected ?_) q.offset q.limit
  rw [schema_sorted]
  exact f.projection_lt

end Plan

/-- In the plan of a query, the schema has as many columns as the tree yields, every operator has
the inputs that it takes, and every position in it is one of the columns of its inputs. -/
theorem Query.plan_refers_to_existing_columns {config : Config} {q : Query} {p : Plan}
    (h : q.plan config = .ok p) :
    p.schema.width = p.root.width ∧
      ∀ t ∈ p.root.subtrees, t.inputs.length = t.op.arity ∧ t.op.explicit = true ∧
        ∀ i ∈ t.op.positions, i < PlanNode.widthSum t.inputs := by
  obtain ⟨groups, r, p, hp, f, rfl⟩ := (q.meets_plan config).result h
  have hpos := f.positional hp.derivation.ofPattern.valid hp.derivation.positional
  refine ⟨hpos.width_eq.symm, fun t ht => ?_⟩
  have hfits := hpos.fits t ht
  exact ⟨hfits.arity, hfits.explicit, hfits.positions_lt⟩

/-- A loop at a vertex, which needs a test for equal columns, and a sum over its edges. -/
theorem Query.plan_refers_to_existing_columns_of_loop :
    let q : Query := { Query.empty with
      connections := [⟨⟨"a", false⟩, ⟨"a", false⟩, ⟨"e", false⟩⟩]
      constraints := [.hasLabel "e" "Road"]
      projection := [⟨.aggregate .sum (.prop "e" "cost"), some "total"⟩]
      limit := some 10 }
    ∃ p, q.plan Config.default = .ok p ∧ p.schema.width = p.root.width ∧
      ∀ t ∈ p.root.subtrees, t.inputs.length = t.op.arity ∧ t.op.explicit = true ∧
        ∀ i ∈ t.op.positions, i < PlanNode.widthSum t.inputs := by
  intro q
  obtain ⟨p, hp⟩ : ∃ p, q.plan Config.default = .ok p := ⟨_, rfl⟩
  exact ⟨p, hp, plan_refers_to_existing_columns hp⟩

end GraphPlan
