import GraphPlan.Proofs.Pattern.Classes
import GraphPlan.Proofs.Planner.Acceptance
import GraphPlan.Proofs.Planner.Trees

/-!
# Filters are applied as early as possible

While a component gets its plan, all filters are looked at whenever variables were bound: after the
first scan, and after each connection that is followed. `Point.growing` is the point at which this
is done. The counts of the filters that are left are exact there, none of these filters could have
been applied, and the plan enforces exactly the filters that have variables and have all of them
bound.

The tree of the component stays a part of the tree of the query, with joins and products above it
only. The tree below each traversal in it is one that was looked at, and so a filter lies below the
first traversal after its last variable was bound.
-/

namespace GraphPlan

variable {config : Config} {q : Query} {r : Registry}

/-! ## Filters in a tree -/

/-- Whether an operator holds a filter, as the objects that it finds or as its predicate. -/
def Operator.holdsFilter : Operator → Bool
  | scanLabel _ => true
  | scanAttribute .. => true
  | op => op.isFilter

/-- The operators of a tree that hold filters. -/
def PlanNode.filters (t : PlanNode) : List Operator :=
  t.operators.filter Operator.holdsFilter

/-- A filter is enforced by an operator in a plan with the given columns: by the scan for the
objects of the first column, or by a predicate on the columns. -/
inductive Expr.EnforcedBy (scope : String) (cs : List Content) (e : Expr) : Operator → Prop where
  | scan {x : String} {op : Operator} (hx : cs[0]? = some (.var x)) (h : e.ScansAs scope x op) :
      EnforcedBy scope cs e op
  | select {t : Scalar} (h : e.Reads cs t) : EnforcedBy scope cs e (.select t)

/-- A plan enforces the filters `es`, each of them by one operator, and no others. -/
def Plan.Enforces (config : Config) (p : Plan) (es : List Expr) : Prop :=
  ∃ es', es'.Perm es ∧
    List.Forall₂ (Expr.EnforcedBy config.attributeScope p.schema.contents) es' p.root.filters

namespace PlanNode

theorem filters_unary {op : Operator} {t : PlanNode} (h : op.holdsFilter = false) :
    (node op [t]).filters = t.filters := by
  simp [filters, operators, operatorsList, h]

theorem filters_select (t : Scalar) (u : PlanNode) :
    (node (.select t) [u]).filters = .select t :: u.filters := by
  have hselect : (Operator.select t).holdsFilter = true := rfl
  simp [filters, operators, operatorsList, hselect]

end PlanNode

theorem Expr.Reads.append {cs : List Content} {e : Expr} {t : Scalar} (h : e.Reads cs t)
    (cs' : List Content) : e.Reads (cs ++ cs') t := by
  have hcolumn : ∀ {i : Nat} {c : Content}, cs[i]? = some c → (cs ++ cs')[i]? = some c := by
    intro i c hi
    rw [List.getElem?_append_left (List.getElem?_eq_some_iff.1 hi).1]
    exact hi
  induction h with
  | ref h => exact .ref (hcolumn h)
  | prop h => exact .prop (hcolumn h)
  | int value => exact .int value
  | decimal value => exact .decimal value
  | str value => exact .str value
  | bool value => exact .bool value
  | binary op _ _ ihl ihr => exact .binary op ihl ihr
  | unary op _ ih => exact .unary op ih
  | hasLabel h => exact .hasLabel (hcolumn h)
  | labelOf h => exact .labelOf (hcolumn h)

theorem Expr.EnforcedBy.append {scope : String} {cs : List Content} {e : Expr} {op : Operator}
    (h : e.EnforcedBy scope cs op) (cs' : List Content) : e.EnforcedBy scope (cs ++ cs') op := by
  cases h with
  | scan hx h =>
    refine .scan ?_ h
    rw [List.getElem?_append_left (List.getElem?_eq_some_iff.1 hx).1]
    exact hx
  | select h => exact .select (h.append cs')

namespace Plan.Enforces

variable {p p' : Plan} {es : List Expr}

/-- More columns and operators without filters change nothing. -/
theorem widen (h : p.Enforces config es) (cs : List Content)
    (hcs : p'.schema.contents = p.schema.contents ++ cs)
    (hroot : p'.root.filters = p.root.filters) : p'.Enforces config es := by
  obtain ⟨es', hes', hall⟩ := h
  refine ⟨es', hes', ?_⟩
  rw [hcs, hroot]
  exact hall.imp fun _ _ hop => hop.append cs

theorem select (h : p.Enforces config es) {e : Expr} {t : Scalar}
    (ht : e.Reads p.schema.contents t) : (p.wrap (.select t)).Enforces config (e :: es) := by
  obtain ⟨es', hes', hall⟩ := h
  refine ⟨e :: es', hes'.cons e, ?_⟩
  rw [wrap, PlanNode.filters_select]
  exact .cons (.select ht) hall

end Plan.Enforces

/-- The plan of a single component enforces the filters that went into it. -/
theorem PatternPlan.enforces {cs : List Connection} {es : List Expr} {n : Nat} {p : Plan}
    (h : PatternPlan config r cs es n p) (hn : n = 1) : p.Enforces config es := by
  induction h with
  | scan => exact ⟨[], .refl _, .nil⟩
  | @seed e x op _ hscan =>
    have hfilters : (PlanNode.leaf op).filters = [op] := by
      cases hscan with
      | label => rfl
      | comparison => rfl
    refine ⟨[e], .refl _, ?_⟩
    show List.Forall₂ _ [e] (PlanNode.leaf op).filters
    rw [hfilters]
    exact .cons (.scan rfl hscan) .nil
  | fetch _ hf ih =>
    obtain ⟨_, cs', -, hschema, -⟩ := hf.schema_eq
    refine (ih hn).widen cs' ?_ ?_
    · rw [hschema, Schema.contents_pushAll]
    · cases hf with
      | attributes => exact PlanNode.filters_unary rfl
      | label => exact PlanNode.filters_unary rfl
  | @follow _ _ _ p c step column _ _ _ ih =>
    refine (ih hn).widen (Schema.produced (step.produced c) p.schema) ?_ ?_
    · rw [Plan.schema_follow, Schema.contents_pushAll]
    · have htraverse : (PlanNode.node (step.operator column) [p.root]).filters =
          p.root.filters := by
        refine PlanNode.filters_unary ?_
        rcases step with _ | _
        · rfl
        · rfl
      unfold Plan.follow Plan.matchPairs
      split
      · exact htraverse
      · exact (PlanNode.filters_unary rfl).trans htraverse
  | select h ht ih => exact (ih hn).select (h.ofPattern.reads ht)
  | join h h' | product h h' =>
    have hcount := h.count_combinations
    have hcount' := h'.count_combinations
    omega
  | perm _ _ hes ih =>
    obtain ⟨es', hes', hall⟩ := ih hn
    exact ⟨es', hes'.trans hes, hall⟩

/-- The plan of a single component has no joins and products. -/
theorem PatternPlan.count_combines {cs : List Connection} {es : List Expr} {p : Plan}
    (h : PatternPlan config r cs es 1 p) : p.root.count Operator.combines = 0 := by
  have hcount := h.count_combinations
  refine List.countP_eq_zero.2 ?_
  intro op hop hcombines
  rcases Bool.or_eq_true_iff.1 hcombines with hjoin | hproduct
  · have hpos : 0 < p.root.count Operator.isJoin := List.countP_pos_iff.2 ⟨op, hop, hjoin⟩
    omega
  · have hpos : 0 < p.root.count Operator.isProduct := List.countP_pos_iff.2 ⟨op, hop, hproduct⟩
    omega

/-! ## Traversals in a tree -/

/-- Each traversal in a tree has one input, for which `P` holds. -/
def PlanNode.TraversesFrom (P : PlanNode → Prop) (t : PlanNode) : Prop :=
  ∀ u ∈ t.subtrees, u.op.isTraversal = true → ∃ v, u.inputs = [v] ∧ P v

namespace PlanNode.TraversesFrom

variable {P : PlanNode → Prop} {op : Operator} {t : PlanNode}

theorem leaf (h : op.isTraversal = false) : (PlanNode.leaf op).TraversesFrom P := by
  intro u hu hop
  simp only [PlanNode.leaf, subtrees, subtreesList, List.mem_singleton] at hu
  rw [hu, PlanNode.op, h] at hop
  cases hop

theorem node (h : t.TraversesFrom P) (hop : op.isTraversal = true → P t) :
    (PlanNode.node op [t]).TraversesFrom P := by
  intro u hu htraversal
  simp only [subtrees, subtreesList, List.append_nil, List.mem_cons] at hu
  rcases hu with rfl | hu
  · exact ⟨t, rfl, hop htraversal⟩
  · exact h u hu htraversal

theorem widens {p p' : Plan} (h : p.root.TraversesFrom P) (hp : Plan.Widens config p p') :
    p'.root.TraversesFrom P := by
  refine hp.root_induction (motive := TraversesFrom P) ?_ h
  intro op t hop ht
  refine ht.node ?_
  intro htraversal
  rw [Operator.isTraversal_of_isMatching (Operator.isMatching_of_isAddition hop)] at htraversal
  cases htraversal

theorem apply {c : Constraint} {p : Plan} {x : Unit × Plan} (h : p.root.TraversesFrom P)
    (hx : PlanM.exec (c.apply config) p = .ok x) : x.2.root.TraversesFrom P := by
  rw [Constraint.exec_apply] at hx
  obtain ⟨t, -, hx⟩ := eq_ok_of_bind_eq_ok hx
  cases hx
  have hfetched := h.widens (Plan.fetches_fetch config.attributeScope c.usage p).widens
  refine hfetched.node ?_
  intro hop
  cases hop

theorem follow {p : Plan} (h : p.root.TraversesFrom P) (hp : P p.root) (c : Connection)
    (step : Traversal) (column : Nat) : (p.follow c step column).root.TraversesFrom P := by
  have htraverse : (PlanNode.node (step.operator column) [p.root]).TraversesFrom P :=
    h.node fun _ => hp
  unfold Plan.follow Plan.matchPairs
  split
  · exact htraverse
  · refine htraverse.node ?_
    intro hop
    cases hop

end PlanNode.TraversesFrom

/-! ## Filters that can be applied in a component -/

/-- Whether a plan has a column for a variable. -/
def Plan.binds (p : Plan) (x : String) : Bool :=
  p.schema.contents.contains (.var x)

theorem Plan.binds_iff {p : Plan} {x : String} :
    p.binds x = true ↔ Content.var x ∈ p.schema.contents :=
  List.contains_iff_mem

theorem Schema.Valid.hasVariable_eq_binds {p : Plan} (h : p.schema.Valid) :
    p.schema.hasVariable = p.binds := by
  funext x
  rw [Bool.eq_iff_iff, h.hasVariable_iff, Plan.binds_iff]

/-- A filter has no variables. -/
def Expr.isFree (r : Registry) (e : Expr) : Bool :=
  (e.needs r).names.isEmpty

/-- A filter has variables, and all of them are bound. -/
def Expr.isCovered (r : Registry) (bound : String → Bool) (e : Expr) : Bool :=
  !e.isFree r && (e.needs r).names.all bound

/-- A filter waits for no variable and is linked to one component only. -/
def Constraint.Ready (id : GroupId) (c : Constraint) : Prop :=
  c.pending = 0 ∧ c.linked = [id]

theorem Expr.isFree_eq_false_iff {e : Expr} :
    e.isFree r = false ↔ ∃ x, x ∈ (e.needs r).names := by
  rw [isFree, List.isEmpty_eq_false_iff_exists_mem]

theorem Constraint.Tracked.pending_eq_zero {c : Constraint} {bound : String → Bool}
    (h : c.Tracked r bound) (hbound : ∀ x ∈ (c.expr.needs r).names, bound x = true) :
    c.pending = 0 := by
  rw [h.pending_eq, missing, h.analyzed, List.countP_eq_zero]
  intro x hx
  rw [hbound x hx]
  decide

namespace Drafting

variable {d : Draft} {cs : List Constraint} {c : Constraint}

/-- A filter that is left and has all its variables in the plan under construction is linked to its
component alone. -/
theorem linked_of_isCovered (h : Drafting config q r d cs) (hc : c ∈ cs) (ha : c.Analyzed r)
    (hcovered : c.expr.isCovered r d.plan.schema.hasVariable = true) :
    c.linked = [d.group.id] := by
  obtain ⟨hfree, hbound⟩ := Bool.and_eq_true_iff.1 hcovered
  rw [List.all_eq_true] at hbound
  have hsound := h.sound hc
  have hgroup : d.group ∈ d.groups := by simp [Draft.groups]
  have hperm : c.linked.Perm [d.group.id] := by
    refine (List.perm_ext_iff_of_nodup hsound.nodup (List.nodup_singleton _)).2 ?_
    intro id
    rw [List.mem_singleton, hsound.mem_linked]
    constructor
    · rintro ⟨g, hg, rfl, htouches⟩
      obtain ⟨x, hx, hxg⟩ := Constraint.touches_iff.1 htouches
      rw [ha] at hx
      have hxd : x ∈ d.group.vars := h.within x (hbound x hx)
      rw [Component.eq_of_mem_vars h.split.disjoint hg hgroup hxg hxd]
    · rintro rfl
      obtain ⟨x, hx⟩ := Expr.isFree_eq_false_iff.1 (by simpa using hfree)
      refine ⟨d.group, hgroup, rfl, Constraint.touches_iff.2 ⟨x, ?_, h.within x (hbound x hx)⟩⟩
      rwa [ha]
  exact List.perm_singleton.1 hperm

/-- The filters in the plan under construction are exactly those that it covers, if none that is
left is ready and none without variables was applied. -/
theorem perm_isCovered (h : Drafting config q r d cs) (ht : ∀ c ∈ cs, c.Tracked r d.binds)
    (hready : ∀ c ∈ cs, ¬ c.Ready d.group.id)
    (hfree : (cs.map Constraint.expr).countP (·.isFree r) =
      q.constraints.countP (·.isFree r)) :
    ∃ conns, PatternPlan config r conns
      (q.constraints.filter (·.isCovered r d.plan.schema.hasVariable)) 1 d.plan := by
  obtain ⟨done, exprs, conns, hdone, hexprs, -, hbuild⟩ := h.planned
  obtain ⟨used, hplan, hused⟩ := hbuild.derivation
  have hall : (done ++ (used ++ cs.map Constraint.expr)).Perm q.constraints :=
    (hused.append_left done).trans hexprs
  have hnoneDone : done.filter (·.isCovered r d.plan.schema.hasVariable) = [] := by
    rw [List.filter_eq_nil_iff]
    intro e he hcovered
    -- its variables belong to a component that has its plan
    obtain ⟨hnotFree, hbound⟩ := Bool.and_eq_true_iff.1 hcovered
    rw [List.all_eq_true] at hbound
    obtain ⟨x, hx⟩ := Expr.isFree_eq_false_iff.1 (by simpa using hnotFree)
    obtain ⟨g, hg, hnames⟩ := hdone.exists_of_mem he
    have hxg := hnames x (Expr.mem_names_of_mem_needs hx)
    have hnone := List.any_eq_false.1 (h.split.not_mem_done (h.within x (hbound x hx))) g hg
    exact hnone (by simpa [Component.contains] using hxg)
  have hnoneLeft : (cs.map Constraint.expr).filter
      (·.isCovered r d.plan.schema.hasVariable) = [] := by
    rw [List.filter_eq_nil_iff]
    intro e he hcovered
    obtain ⟨c, hc, rfl⟩ := List.mem_map.1 he
    have hlinked := h.linked_of_isCovered hc (ht c hc).analyzed hcovered
    have hbound := List.all_eq_true.1 (Bool.and_eq_true_iff.1 hcovered).2
    refine hready c hc ⟨(ht c hc).pending_eq_zero ?_, hlinked⟩
    intro x hx
    rw [Draft.binds, hbound x hx, Bool.or_true]
  have hallUsed : used.filter (·.isCovered r d.plan.schema.hasVariable) = used := by
    rw [List.filter_eq_self]
    intro e he
    have hcount := hall.countP_eq (·.isFree r)
    rw [List.countP_append, List.countP_append, hfree] at hcount
    have hzero : used.countP (·.isFree r) = 0 := by omega
    have hnotFree : e.isFree r = false := by simpa using List.countP_eq_zero.1 hzero e he
    rw [Expr.isCovered, hnotFree, Bool.not_false, Bool.true_and, List.all_eq_true]
    intro x hx
    exact hplan.hasVariable_of_mem_exprNames he (Expr.mem_names_of_mem_needs hx)
  have hfilter := hall.filter (·.isCovered r d.plan.schema.hasVariable)
  rw [List.filter_append, List.filter_append, hnoneDone, hnoneLeft, hallUsed, List.nil_append,
    List.append_nil] at hfilter
  exact ⟨conns, hplan.perm (.refl _) hfilter⟩

end Drafting

/-- The filter that starts a plan has a variable. -/
theorem PlannerState.countP_isFree_of_seed {g : Component} {cs : List Constraint}
    {x : Plan × List Constraint} (ha : ∀ c ∈ cs, c.Analyzed r) (h : seed config r g cs = .ok x) :
    (x.2.map Constraint.expr).countP (·.isFree r) =
      (cs.map Constraint.expr).countP (·.isFree r) := by
  unfold seed at h
  split at h
  · next c rest hseed =>
    obtain ⟨hcan, hperm⟩ := seedFilter?_eq_some hseed
    obtain ⟨y, hy, -⟩ := (Option.any_eq_true _ _).1 (Bool.and_eq_true_iff.1 hcan).2
    have hnotFree : c.expr.isFree r = false := by
      refine Expr.isFree_eq_false_iff.2 ⟨y, ?_⟩
      rw [← ha c (hperm.mem_iff.2 List.mem_cons_self)]
      unfold Constraint.subject? at hy
      split at hy
      · next hentries =>
        cases hy
        rw [NameMap.names, hentries]
        exact List.mem_cons_self
      · cases hy
    split at h
    · cases h
      rw [(hperm.map Constraint.expr).countP_eq, List.map_cons, List.countP_cons, hnotFree]
      rfl
    · cases h
  · split at h
    · cases h
      rfl
    · cases h

/-! ## Along a run -/

namespace Point

variable {a b : Point} {s : PlannerState}

/-- Whether some plan has a column for a variable. -/
def binds (a : Point) (x : String) : Bool :=
  a.plans.any (·.binds x)

/-- What is known about the filters while components get their plans: those without variables are
left, and those that were looked at are not ready. -/
def Eager (q : Query) (r : Registry) : Point → Prop
  | seeding _ _ cs =>
    (cs.map Constraint.expr).countP (·.isFree r) = q.constraints.countP (·.isFree r)
  | checking d _ kept waiting =>
    ((kept ++ waiting).map Constraint.expr).countP (·.isFree r) =
      q.constraints.countP (·.isFree r) ∧ ∀ c ∈ kept, ¬ c.Ready d.group.id
  | growing d cs =>
    (cs.map Constraint.expr).countP (·.isFree r) = q.constraints.countP (·.isFree r) ∧
      ∀ c ∈ cs, ¬ c.Ready d.group.id
  | _ => True

theorem eager_of_phase (h : 1 ≤ a.phase) : a.Eager q r := by
  cases a with
  | seeding | checking | growing => simp [phase] at h
  | _ => trivial

theorem eager_checking {d : Draft} {added : List String} {kept waiting : List Constraint}
    (hgood : (checking d added kept waiting).Good config q r)
    (h : (checking d added kept waiting).Eager q r)
    (hb : (checking d added kept waiting).step config q r = .ok b) : b.Eager q r := by
  obtain ⟨hfree, hkept⟩ := h
  cases waiting with
  | nil =>
    cases hb
    rw [List.append_nil] at hfree
    exact ⟨hfree, hkept⟩
  | cons c waiting =>
    obtain ⟨hsound, hanalyzed⟩ : c.Sound d.groups ∧ c.Analyzed r := by
      cases hgood with
      | checking hdraft _ _ _ hwaiting =>
        exact ⟨hdraft.sound (by simp), (hwaiting c List.mem_cons_self).analyzed⟩
    simp only [Point.step] at hb
    split at hb
    · next hready =>
      obtain ⟨x, -, hb⟩ := eq_ok_of_atStage_bind_eq_ok hb
      cases hb
      -- a filter that is linked to a component has a variable in it
      have hlinked : c.linked = [d.group.id] := hready.2
      obtain ⟨g, -, -, htouches⟩ := (hsound.mem_linked d.group.id).1 (by simp [hlinked])
      obtain ⟨y, hy, -⟩ := Constraint.touches_iff.1 htouches
      have hnotFree : c.expr.isFree r = false :=
        Expr.isFree_eq_false_iff.2 ⟨y, by rwa [← hanalyzed]⟩
      refine ⟨?_, hkept⟩
      rw [← hfree]
      simp only [List.map_append, List.map_cons, List.countP_append, List.countP_cons, hnotFree]
      rfl
    · next hready =>
      cases hb
      refine ⟨?_, ?_⟩
      · rw [← hfree, List.append_assoc, List.singleton_append]
        simp only [List.map_append, List.map_cons]
        rfl
      · intro c' hc'
        rcases List.mem_append.1 hc' with hc' | hc'
        · exact hkept c' hc'
        · rw [List.mem_singleton.1 hc']
          exact hready

/-- One step keeps what is known about the filters. -/
theorem Eager.step (hgood : a.Good config q r) (h : a.Eager q r)
    (hb : a.step config q r = .ok b) : b.Eager q r := by
  cases hgood with
  | @seeding done todo cs hseeding ht =>
    cases todo with
    | nil =>
      cases hb
      trivial
    | cons g todo =>
      obtain ⟨x, hx, hb⟩ := eq_ok_of_atStage_bind_eq_ok hb
      cases hb
      have hcount := PlannerState.countP_isFree_of_seed (fun c hc => (ht c hc).analyzed) hx
      exact ⟨hcount.trans h, by simp⟩
  | checking hdraft hadded hnew hkept hwaiting =>
    exact eager_checking (.checking hdraft hadded hnew hkept hwaiting) h hb
  | @growing d cs hdraft ht =>
    obtain ⟨done, g, todo, p, remaining⟩ := d
    obtain ⟨hfree, -⟩ := h
    cases remaining with
    | nil =>
      cases hb
      exact hfree
    | cons conn conns =>
      simp only [Point.step] at hb
      split at hb
      · cases hb
      · obtain ⟨x, -, hb⟩ := eq_ok_of_atStage_bind_eq_ok hb
        cases hb
        exact ⟨hfree, by simp⟩
  | joining | multiplying | closing | filtering | matched =>
    exact eager_of_phase (phase_le_of_step hb)
  | keying | collecting | valuing | sorting | ordered | projected | finished =>
    exact eager_of_phase (Nat.le_of_lt (phase_le_of_step hb))

theorem eager_of_visited (hs : PlannerState.start q = .ok s) (ha : Visited config q s a) :
    a.Eager q s.registry := by
  induction ha with
  | refl =>
    show (s.constraints.map Constraint.expr).countP _ = _
    rw [((PlannerState.meets_start q).result hs).filters]
  | tail hvisited hstep ih => exact ih.step (good_of_visited hs hvisited) hstep

/-- The variables that filters count as bound are those that plans have columns for. -/
theorem Good.binds_eq {d : Draft} {cs : List Constraint}
    (h : (Point.growing d cs).Good config q r) : d.binds = (Point.growing d cs).binds := by
  have hvalid : d.plan.schema.Valid := (h.sharp (p := d.plan) (by simp [plans])).valid
  funext x
  have hdone : d.done.any (·.contains x) = (d.done.filterMap Component.plan).any (·.binds x) := by
    rw [Bool.eq_iff_iff, List.any_eq_true, List.any_eq_true]
    constructor
    · rintro ⟨g, hg, hx⟩
      obtain ⟨p, hp, -⟩ := h.binds (g := g) hg
      have hx : x ∈ g.vars := by simpa [Component.contains] using hx
      refine ⟨p, List.mem_filterMap.2 ⟨g, hg, hp.1⟩, Plan.binds_iff.2 ?_⟩
      have hcount := hp.2 x
      rw [if_pos hx] at hcount
      exact List.count_pos_iff.1 (by omega)
    · rintro ⟨p, hp, hx⟩
      obtain ⟨g, hg, hgp⟩ := List.mem_filterMap.1 hp
      obtain ⟨p', hp', -⟩ := h.binds (g := g) hg
      cases hgp.symm.trans hp'.1
      exact ⟨g, hg, by simpa [Component.contains] using hp'.mem_vars (Plan.binds_iff.1 hx)⟩
  rw [Draft.binds, hdone, hvalid.hasVariable_eq_binds, Point.binds, plans, List.any_append]
  simp [planned]

/-! ## Trees of components -/

/-- The components whose plans are not complete. -/
def upcoming : Point → List Component
  | seeding _ todo _ => todo
  | checking d _ _ _ | growing d _ => d.group :: d.todo
  | _ => []

/-- A component stays in the list until its plan is complete. -/
theorem upcoming_step (hb : a.step config q r = .ok b) {g : Component} (hg : g ∈ a.upcoming) :
    g ∈ b.upcoming ∨ ∃ d cs, a = growing d cs ∧ d.group = g ∧ d.remaining = [] ∧
      d.plan.root ∈ b.roots := by
  cases a with
  | seeding done todo cs =>
    cases todo with
    | nil => cases hg
    | cons g todo =>
      obtain ⟨x, -, hb⟩ := eq_ok_of_atStage_bind_eq_ok hb
      cases hb
      exact Or.inl hg
  | checking d added kept waiting =>
    cases waiting with
    | nil =>
      cases hb
      exact Or.inl hg
    | cons c waiting =>
      simp only [Point.step] at hb
      split at hb
      · obtain ⟨x, -, hb⟩ := eq_ok_of_atStage_bind_eq_ok hb
        cases hb
        exact Or.inl hg
      · cases hb
        exact Or.inl hg
  | growing d cs =>
    obtain ⟨done, g', todo, p, remaining⟩ := d
    cases remaining with
    | nil =>
      cases hb
      rcases List.mem_cons.1 hg with rfl | hg
      · refine Or.inr ⟨_, _, rfl, rfl, rfl, mem_roots.2 ⟨p, ?_, rfl⟩⟩
        simp [plans, planned, Component.setPlan]
      · exact Or.inl hg
    | cons conn conns =>
      simp only [Point.step] at hb
      split at hb
      · cases hb
      · obtain ⟨x, -, hb⟩ := eq_ok_of_atStage_bind_eq_ok hb
        cases hb
        exact Or.inl hg
  | _ => cases hg

/-- The run comes to a point at which all filters were looked at, with this tree for a component. -/
def LookedAt (config : Config) (q : Query) (s : PlannerState) (g : Component) (t : PlanNode) :
    Prop :=
  ∃ d cs, Visited config q s (growing d cs) ∧ d.group = g ∧ d.plan.root = t

/-- Every component is still to get its plan, or the tree of its plan is a part of one that there
is. -/
theorem exists_complete (hs : PlannerState.start q = .ok s) (ha : Visited config q s a)
    {g : Component} (hg : g ∈ s.groups) :
    g ∈ a.upcoming ∨ ∃ d cs, Visited config q s (growing d cs) ∧ d.group = g ∧
      d.remaining = [] ∧ ∃ t ∈ a.roots, d.plan.root ∈ t.subtrees := by
  induction ha with
  | refl => exact Or.inl hg
  | tail hvisited hstep ih =>
    rcases ih with hupcoming | ⟨d, cs, hd, hgroup, hremaining, t, ht, hroot⟩
    · rcases upcoming_step hstep hupcoming with hnext | ⟨d, cs, rfl, hgroup, hremaining, hroot⟩
      · exact Or.inl hnext
      · exact Or.inr ⟨d, cs, hvisited, hgroup, hremaining, _, hroot, PlanNode.self_mem_subtrees _⟩
    · obtain ⟨u, hu, hsub⟩ :=
        ((good_of_visited hs hvisited).treeStep hstep).exists_subtree ht
      exact Or.inr ⟨d, cs, hd, hgroup, hremaining, u, hu, hsub _ hroot⟩

/-- While a component gets its plan, each traversal in it starts from a tree that was looked at. -/
def Traversed (config : Config) (q : Query) (s : PlannerState) : Point → Prop
  | checking d _ _ _ | growing d _ => d.plan.root.TraversesFrom (LookedAt config q s d.group)
  | _ => True

theorem traversed_of_visited (hs : PlannerState.start q = .ok s) (ha : Visited config q s a) :
    a.Traversed config q s := by
  induction ha with
  | refl => trivial
  | @tail a b hvisited hb ih =>
    have hgood := good_of_visited hs hvisited
    cases a with
    | seeding done todo cs =>
      cases todo with
      | nil =>
        cases hb
        trivial
      | cons g todo =>
        obtain ⟨x, hx, hb⟩ := eq_ok_of_atStage_bind_eq_ok hb
        cases hb
        cases hgood with
        | seeding hseeding =>
          -- no connection was followed, so that there is no traversal
          obtain ⟨y, -, hbuild⟩ := hseeding.meets_seed.result hx
          obtain ⟨used, hplan, -⟩ := hbuild.derivation
          obtain ⟨op, -, hroot⟩ := PlannerState.exists_leaf_of_seed hseeding.sound hx
          have hcount := hplan.accounts.traversals
          rw [hroot, PlanNode.count_leaf] at hcount
          show x.1.root.TraversesFrom _
          rw [hroot]
          exact .leaf (by simpa using hcount)
    | checking d added kept waiting =>
      cases waiting with
      | nil =>
        cases hb
        exact ih
      | cons c waiting =>
        simp only [Point.step] at hb
        split at hb
        · obtain ⟨x, hx, hb⟩ := eq_ok_of_atStage_bind_eq_ok hb
          cases hb
          exact PlanNode.TraversesFrom.apply ih hx
        · cases hb
          exact ih
    | growing d cs =>
      obtain ⟨done, g, todo, p, remaining⟩ := d
      cases remaining with
      | nil =>
        cases hb
        trivial
      | cons conn conns =>
        have hlooked : LookedAt config q s g p.root := ⟨_, cs, hvisited, rfl, rfl⟩
        simp only [Point.step] at hb
        split at hb
        · cases hb
        · next next how rest hpick =>
          obtain ⟨x, hx, hb⟩ := eq_ok_of_atStage_bind_eq_ok hb
          cases hb
          rw [Plan.exec_traverse] at hx
          split at hx
          · cases hx
          · cases hx
            exact PlanNode.TraversesFrom.follow ih hlooked next how _
    | _ =>
      have hphase := phase_le_of_step hb
      cases b with
      | checking | growing => simp [phase] at hphase
      | _ => trivial

/-- The plan of a component enforces the filters that it covers, wherever all filters were looked
at. -/
theorem enforces_of_visited (hs : PlannerState.start q = .ok s) {d : Draft} {cs : List Constraint}
    (ha : Visited config q s (growing d cs)) :
    d.plan.Enforces config (q.constraints.filter (·.isCovered s.registry d.plan.binds)) := by
  obtain ⟨hfree, hready⟩ := eager_of_visited hs ha
  have hgood := good_of_visited hs ha
  cases hgood with
  | growing hdraft ht =>
    obtain ⟨conns, hplan⟩ := hdraft.perm_isCovered ht hready hfree
    rw [hplan.ofPattern.valid.hasVariable_eq_binds] at hplan
    exact hplan.enforces rfl

end Point

/-- All the way through planning, whenever the filters were looked at for a component, each filter
that is left counts exactly the variables that no plan has a column for; none of them is linked to
this component alone and has all its variables in its plan; and the plan enforces exactly the
filters that have variables and have all of them bound in it. So in the plan of a query, the tree of
each component lies below all joins and products. It enforces exactly the filters with all their
variables in the component, and what lies below a traversal in it is a tree at which all filters
were looked at. -/
theorem Query.run_applies_filters_early {config : Config} {q : Query} {s : PlannerState}
    (h : PlannerState.start q = .ok s) :
    Point.Leads config q s.registry (.seeding [] s.groups s.constraints)
        (q.plan config >>= fun p => .ok (.finished p)) ∧
      (∀ d cs, Point.Visited config q s (.growing d cs) →
        (∀ c ∈ cs, c.pending = (c.expr.needs s.registry).names.countP
            (fun x => !(Point.growing d cs).binds x) ∧
          ¬ (c.linked = [d.group.id] ∧
            ∀ x ∈ (c.expr.needs s.registry).names, d.plan.binds x = true)) ∧
        d.plan.Enforces config
          (q.constraints.filter (·.isCovered s.registry d.plan.binds))) ∧
      ∀ p, q.plan config = .ok p → ∀ g ∈ s.groups, ∃ d cs,
        Point.Visited config q s (.growing d cs) ∧ d.group = g ∧ d.plan.binds = g.contains ∧
        d.plan.root ∈ p.root.subtrees ∧ d.plan.root.count Operator.combines = 0 ∧
        d.plan.Enforces config (q.constraints.filter (·.isCovered s.registry g.contains)) ∧
        d.plan.root.TraversesFrom (Point.LookedAt config q s g) := by
  refine ⟨Point.leads_plan h, ?_, ?_⟩
  · intro d cs ha
    refine ⟨?_, Point.enforces_of_visited h ha⟩
    intro c hc
    obtain ⟨-, hready⟩ := Point.eager_of_visited h ha
    have hgood := Point.good_of_visited h ha
    have hbinds := hgood.binds_eq
    cases hgood with
    | growing hdraft ht =>
      obtain ⟨_, _, hplan⟩ := hdraft.patternPlan
      have htracked := ht c hc
      constructor
      · rw [htracked.pending_eq, Constraint.missing, htracked.analyzed, hbinds]
      · rintro ⟨hlinked, hbound⟩
        refine hready c hc ⟨htracked.pending_eq_zero ?_, hlinked⟩
        intro x hx
        rw [Draft.binds, hplan.ofPattern.valid.hasVariable_eq_binds, hbound x hx, Bool.or_true]
  · intro p hp g hg
    rcases Point.exists_complete h (Point.visited_of_plan h hp) hg with
      hupcoming | ⟨d, cs, ha, hgroup, hremaining, t, ht, hroot⟩
    · cases hupcoming
    · have henforces := Point.enforces_of_visited h ha
      have htraversed : d.plan.root.TraversesFrom _ := Point.traversed_of_visited h ha
      have hgood := Point.good_of_visited h ha
      cases hgood with
      | growing hdraft _ =>
        obtain ⟨done, g', todo, plan, remaining⟩ := d
        cases hgroup
        cases hremaining
        obtain ⟨_, _, hplan⟩ := hdraft.patternPlan
        obtain ⟨-, hvars⟩ := hdraft.complete
        have hbinds : plan.binds = g'.contains := by
          rw [← hplan.ofPattern.valid.hasVariable_eq_binds]
          funext x
          rw [Bool.eq_iff_iff, hvars]
          simp [Component.contains]
        have hsub : plan.root ∈ p.root.subtrees := by
          rw [List.mem_singleton.1 ht] at hroot
          exact hroot
        exact ⟨_, cs, ha, rfl, hbinds, hsub, hplan.count_combines, hbinds ▸ henforces,
          htraversed⟩

/-- Two components that a filter joins. The first one starts from a filter on one of its ends, and a
filter on both of its ends is applied when the connection was followed. -/
theorem Query.run_applies_filters_early_of_joined_components :
    let isCity := Expr.hasLabel "a" "City"
    let closer := Expr.binary (.compare .lt) (.prop "a" "x") (.prop "b" "x")
    let q : Query := { Query.empty with
      vertices := [⟨"c", false⟩]
      connections := [⟨⟨"a", false⟩, ⟨"b", false⟩, ⟨"e", false⟩⟩]
      constraints := [.binary (.compare .lt) (.prop "a" "y") (.prop "c" "y"), closer, isCity,
        .binary (.compare .lt) (.int 1) (.int 2)] }
    ∃ s p, PlannerState.start q = .ok s ∧ q.plan Config.default = .ok p ∧
      p.root.count Operator.isJoin = 1 ∧
      ∃ d cs, Point.Visited Config.default q s (.growing d cs) ∧ d.group ∈ s.groups ∧
        d.plan.root ∈ p.root.subtrees ∧ d.plan.root.count Operator.combines = 0 ∧
        d.plan.Enforces Config.default [closer, isCity] := by
  intro isCity closer q
  obtain ⟨s, hs, g, hg, hcovered⟩ : ∃ s, PlannerState.start q = .ok s ∧ ∃ g ∈ s.groups,
      q.constraints.filter (·.isCovered s.registry g.contains) = [closer, isCity] :=
    ⟨_, rfl, _, List.mem_cons_self, rfl⟩
  obtain ⟨p, hp, hjoins⟩ : ∃ p, q.plan Config.default = .ok p ∧
      p.root.count Operator.isJoin = 1 := ⟨_, rfl, rfl⟩
  obtain ⟨d, cs, ha, rfl, -, hroot, hnone, henforces, -⟩ :=
    (run_applies_filters_early hs).2.2 p hp g hg
  rw [hcovered] at henforces
  exact ⟨s, p, hs, hp, hjoins, d, cs, ha, hg, hroot, hnone, henforces⟩

end GraphPlan
