import GraphPlan.Proofs.Algebra.Layers
import GraphPlan.Proofs.Planner.Result

/-!
# Every part of a query is planned once

The operators of a plan are counted against the parts of the query. Along a derivation the counts
grow with the lists of connections and filters that the derivation keeps. What is put on top of the
plan of a pattern leaves these counts alone and adds the layers that the query asks for.
-/

namespace GraphPlan

/-- Whether a query asks for a layer. -/
def Query.asksFor (q : Query) : Layer → Bool
  | .group =>
    !q.groupBy.isEmpty || q.projection.any (fun elem => elem.expr.containsAggregate) ||
      q.orderBy.any (fun elem => elem.expr.containsAggregate)
  | .sort => !q.orderBy.isEmpty
  | .project => !q.projection.isEmpty
  | .slice => q.limit.isSome || q.offset.isSome

/-- The number of leaves that find the objects on which a filter holds. -/
def PlanNode.filterScans (t : PlanNode) : Nat :=
  t.leaves.countP fun op => op != .scanNodes

/-! ## The plan of a pattern -/

/-- A tree was built from connections, filters and scans. -/
structure PlanNode.Accounts (cs : List Connection) (es : List Expr) (n : Nat) (t : PlanNode) :
    Prop where
  /-- Every connection was followed once. -/
  traversals : t.count Operator.isTraversal = cs.length
  /-- Every filter was applied once. -/
  filters : t.count Operator.isFilter + t.filterScans = es.length
  /-- The leaves are the scans. -/
  leaves : t.leaves.length = n
  /-- There are no results yet. -/
  layer? : ∀ op ∈ t.operators, op.layer? = none

namespace PlanNode.Accounts

variable {cs cs' : List Connection} {es es' : List Expr} {n n' : Nat} {t t' : PlanNode}

/-- A scan. -/
theorem leaf {op : Operator} (htraversal : op.isTraversal = false) (hfilter : op.isFilter = false)
    (hlayer : op.layer? = none) (hes : es.length = (op != .scanNodes).toNat) :
    Accounts [] es 1 (.leaf op) where
  traversals := by rw [count_leaf, htraversal]; rfl
  filters := by
    rw [count_leaf, hfilter, hes, filterScans, leaves_leaf, List.countP_singleton]
    cases op != .scanNodes <;> rfl
  leaves := rfl
  layer? o ho := by
    rw [PlanNode.leaf, operators, operatorsList, List.mem_singleton] at ho
    rw [ho, hlayer]

/-- An operator on top of one input. -/
theorem unary (h : Accounts cs es n t) {op : Operator} (hlayer : op.layer? = none)
    (hcs : cs'.length = op.isTraversal.toNat + cs.length)
    (hes : es'.length = op.isFilter.toNat + es.length) : Accounts cs' es' n (.node op [t]) where
  traversals := by rw [count_unary, h.traversals, hcs]
  filters := by
    have hfilters := h.filters
    simp only [count_unary, filterScans, leaves_unary] at hfilters ⊢
    omega
  leaves := by rw [leaves_unary, h.leaves]
  layer? o ho := by
    simp only [operators, operatorsList, List.append_nil, List.mem_cons] at ho
    rcases ho with rfl | ho
    · exact hlayer
    · exact h.layer? o ho

/-- An operator on top of two inputs. -/
theorem binary (h : Accounts cs es n t) (h' : Accounts cs' es' n' t') {op : Operator}
    {es'' : List Expr} (hlayer : op.layer? = none) (hop : op.isTraversal = false)
    (hes : es''.length = op.isFilter.toNat + (es.length + es'.length)) :
    Accounts (cs ++ cs') es'' (n + n') (.node op [t, t']) where
  traversals := by
    rw [count_binary, h.traversals, h'.traversals, hop, List.length_append, Bool.toNat_false,
      Nat.zero_add]
  filters := by
    have hfilters := h.filters
    have hfilters' := h'.filters
    simp only [count_binary, filterScans, leaves_binary, List.countP_append] at hfilters hfilters' ⊢
    omega
  leaves := by rw [leaves_binary, List.length_append, h.leaves, h'.leaves]
  layer? o ho := by
    simp only [operators, operatorsList, List.append_nil, List.mem_cons, List.mem_append] at ho
    rcases ho with rfl | ho | ho
    · exact hlayer
    · exact h.layer? o ho
    · exact h'.layer? o ho

end PlanNode.Accounts

/-- The plan of a pattern has the connections, the filters and the scans of its derivation. -/
theorem PatternPlan.accounts {config : Config} {r : Registry} {cs : List Connection}
    {es : List Expr} {n : Nat} {p : Plan} (h : PatternPlan config r cs es n p) :
    p.root.Accounts cs es n := by
  induction h with
  | scan hx => exact .leaf rfl rfl rfl rfl
  | seed hx hscan =>
    cases hscan with
    | label => exact .leaf rfl rfl rfl rfl
    | comparison => exact .leaf rfl rfl rfl rfl
  | fetch h hf ih =>
    cases hf with
    | attributes => exact ih.unary rfl (Nat.zero_add _).symm (Nat.zero_add _).symm
    | label => exact ih.unary rfl (Nat.zero_add _).symm (Nat.zero_add _).symm
  | @follow cs es n p c step column h hc hstart ih =>
    have htraverse : (PlanNode.node (step.operator column) [p.root]).Accounts (c :: cs) es n := by
      rcases step with _ | _
      · exact ih.unary rfl (Nat.add_comm _ _) (Nat.zero_add _).symm
      · exact ih.unary rfl (Nat.add_comm _ _) (Nat.zero_add _).symm
    unfold Plan.follow Plan.matchPairs
    split
    · exact htraverse
    · exact htraverse.unary rfl (Nat.zero_add _).symm (Nat.zero_add _).symm
  | select h ht ih => exact ih.unary rfl (Nat.zero_add _).symm (Nat.add_comm _ _)
  | join h h' hdisj ht ih ih' =>
    refine ih.binary ih' rfl rfl ?_
    rw [List.length_cons, List.length_append]
    exact Nat.add_comm _ _
  | product h h' hdisj ih ih' =>
    refine ih.binary ih' rfl rfl ?_
    rw [List.length_append]
    exact (Nat.zero_add _).symm
  | perm h hcs hes ih =>
    exact ⟨hcs.length_eq ▸ ih.traversals, hes.length_eq ▸ ih.filters, ih.leaves, ih.layer?⟩

/-! ## Results -/

namespace PlanNode

/-- The number of operators that are a given layer. -/
def layerCount (l : Layer) (t : PlanNode) : Nat :=
  t.count fun op => op.layer? == some l

/-- A tree gets a layer on top, or stays as it is. -/
inductive Puts (l : Layer) : Bool → PlanNode → PlanNode → Prop where
  /-- The layer is put on top. -/
  | layer {op : Operator} (t : PlanNode) (hop : op.layer? = some l) : Puts l true t (.node op [t])
  /-- Nothing changes. -/
  | nothing (t : PlanNode) : Puts l false t t

variable {l : Layer} {b : Bool} {t t' : PlanNode}

theorem Puts.leaves_eq (h : Puts l b t t') : t'.leaves = t.leaves := by
  cases h with
  | layer => exact leaves_unary _ t
  | nothing => rfl

theorem Puts.count_eq (h : Puts l b t t') {f : Operator → Bool}
    (hf : ∀ op : Operator, op.layer? = some l → f op = false) : t'.count f = t.count f := by
  cases h with
  | layer _ hop => rw [count_unary, hf _ hop, Bool.toNat_false, Nat.zero_add]
  | nothing => rfl

theorem Puts.layerCount_eq (h : Puts l b t t') (l' : Layer) :
    t'.layerCount l' = (if l = l' then b.toNat else 0) + t.layerCount l' := by
  cases h with
  | layer _ hop => by_cases hl : l = l' <;> simp [layerCount, hop, hl]
  | nothing => simp

theorem Puts.layered (h : Puts l b t t') {n : Nat} (ht : Layered n t) (hn : n ≤ l.rank) :
    Layered (l.rank + 1) t' := by
  cases h with
  | layer _ hop => exact ht.layer hop hn
  | nothing => exact ht.mono (Nat.le_succ_of_le hn)

end PlanNode

namespace Plan

variable {config : Config} {p p' : Plan}

/-- Widening a plan only puts operators on top that add values. -/
theorem Widens.root_induction {motive : PlanNode → Prop} (h : Widens config p p')
    (hstep : ∀ op t, op.isAddition = true → motive t → motive (.node op [t]))
    (hp : motive p.root) : motive p'.root := by
  induction h with
  | refl => exact hp
  | tail _ hwiden ih =>
    cases hwiden with
    | fetch hf =>
      cases hf with
      | attributes => exact hstep _ _ rfl ih
      | label => exact hstep _ _ rfl ih
    | extend => exact hstep _ _ rfl ih
    | named => exact ih

theorem Widens.leaves_eq (h : Widens config p p') : p'.root.leaves = p.root.leaves := by
  refine h.root_induction (motive := fun t => t.leaves = p.root.leaves) (fun op t _ ht => ?_) rfl
  rw [PlanNode.leaves_unary, ht]

theorem Widens.count_eq (h : Widens config p p') {f : Operator → Bool}
    (hf : ∀ op, op.isAddition = true → f op = false) : p'.root.count f = p.root.count f := by
  refine h.root_induction (motive := fun t => t.count f = p.root.count f)
    (fun op t hop ht => ?_) rfl
  rw [PlanNode.count_unary, hf op hop, ht, Bool.toNat_false, Nat.zero_add]

theorem Widens.layerCount_eq (h : Widens config p p') (l : Layer) :
    p'.root.layerCount l = p.root.layerCount l :=
  h.count_eq fun op hop => by rw [Operator.layer?_of_isAddition hop]; rfl

theorem Widens.layered (h : Widens config p p') {n : Nat} (hp : p.root.Layered n) :
    p'.root.Layered n :=
  h.root_induction (fun _ _ hop ht => ht.addition hop) hp

theorem puts_grouped (p : Plan) (columns : List Nat) (aggregates : List AggregateInfo) :
    PlanNode.Puts .group (!columns.isEmpty || !aggregates.isEmpty) p.root
      (p.grouped columns aggregates).root := by
  unfold grouped
  cases columns with
  | nil =>
    cases aggregates with
    | nil => exact .nothing _
    | cons => exact .layer _ rfl
  | cons => exact .layer _ rfl

theorem puts_sorted (p : Plan) (columns : List Nat) :
    PlanNode.Puts .sort (!columns.isEmpty) p.root (p.sorted columns).root := by
  unfold sorted
  cases columns with
  | nil => exact .nothing _
  | cons => exact .layer _ rfl

theorem puts_projected (p : Plan) (columns : List Nat) :
    PlanNode.Puts .project (!columns.isEmpty) p.root (p.projected columns).root := by
  unfold projected
  cases columns with
  | nil => exact .nothing _
  | cons => exact .layer _ rfl

theorem puts_slice (p : Plan) (offset limit : Option UInt64) :
    PlanNode.Puts .slice (offset.isSome || limit.isSome) p.root (p.slice offset limit).root := by
  unfold slice
  split
  · next h =>
    rw [h]
    exact .layer _ rfl
  · next h =>
    rw [Bool.not_eq_true] at h
    rw [h]
    exact .nothing _

end Plan

theorem Expr.anyContainsAggregate_eq_any (es : List Expr) :
    anyContainsAggregate es = es.any containsAggregate := by
  induction es with
  | nil => rfl
  | cons e es ih => rw [anyContainsAggregate, List.any_cons, ih]

theorem isEmpty_eq_of_length_eq {α β : Type} {xs : List α} {ys : List β}
    (h : xs.length = ys.length) : xs.isEmpty = ys.isEmpty := by
  rw [Bool.eq_iff_iff, List.isEmpty_iff_length_eq_zero, List.isEmpty_iff_length_eq_zero, h]

/-! ## Queries -/

theorem Query.asksFor_slice (q : Query) :
    (q.offset.isSome || q.limit.isSome) = q.asksFor .slice :=
  Bool.or_comm _ _

/-- A query asks for grouping if there are columns to group by, or aggregates to compute. -/
theorem Query.asksFor_group_eq (q : Query) {columns : List Nat} {aggregates : List AggregateInfo}
    (hcolumns : columns.length = q.groupBy.length)
    (hnil : aggregates = [] ↔
      Expr.anyContainsAggregate (q.projection.map ProjectionElem.expr) = false ∧
        Expr.anyContainsAggregate (q.orderBy.map OrderElem.expr) = false) :
    (!columns.isEmpty || !aggregates.isEmpty) = q.asksFor .group := by
  have hkeys : columns.isEmpty = q.groupBy.isEmpty := isEmpty_eq_of_length_eq hcolumns
  have haggregates : aggregates.isEmpty = true ↔ _ := List.isEmpty_iff.trans hnil
  simp only [Expr.anyContainsAggregate_eq_any, List.any_map] at haggregates
  rw [Query.asksFor, hkeys, Bool.or_assoc]
  congr 1
  rw [Bool.eq_iff_iff, Bool.not_eq_true', ← Bool.not_eq_true, haggregates, ← Bool.or_eq_false_iff,
    Bool.not_eq_false]
  rfl

namespace Plan.Finishing

variable {config : Config} {q : Query} {p : Plan}

theorem asksFor_group (f : Finishing config q p) :
    (!f.groupBy.isEmpty || !f.aggregates.isEmpty) = q.asksFor .group :=
  q.asksFor_group_eq f.length_groupBy f.aggregates_nil

theorem asksFor_sort (f : Finishing config q p) : (!f.orderBy.isEmpty) = q.asksFor .sort := by
  rw [Query.asksFor, isEmpty_eq_of_length_eq f.length_orderBy]

theorem asksFor_project (f : Finishing config q p) :
    (!f.projection.isEmpty) = q.asksFor .project := by
  rw [Query.asksFor, isEmpty_eq_of_length_eq f.length_projection]

/-- The operators that find matches are those of the plan of the pattern. -/
theorem count_eq (f : Finishing config q p) {g : Operator → Bool}
    (hg : ∀ op : Operator, op.isMatching = false → g op = false) :
    f.result.root.count g = p.root.count g := by
  have haddition : ∀ op : Operator, op.isAddition = true → g op = false := fun op hop =>
    hg op (Operator.isMatching_of_isAddition hop)
  have hlayer : ∀ (op : Operator) l, op.layer? = some l → g op = false := fun op l hop =>
    hg op (Operator.isMatching_of_layer? hop)
  rw [result, (puts_slice ..).count_eq fun op => hlayer op _,
    (puts_projected ..).count_eq fun op => hlayer op _,
    (puts_sorted ..).count_eq fun op => hlayer op _, f.widens_after.count_eq haddition,
    (puts_grouped ..).count_eq fun op => hlayer op _, f.widens_before.count_eq haddition]

theorem leaves_eq (f : Finishing config q p) : f.result.root.leaves = p.root.leaves := by
  rw [result, (puts_slice ..).leaves_eq, (puts_projected ..).leaves_eq, (puts_sorted ..).leaves_eq,
    f.widens_after.leaves_eq, (puts_grouped ..).leaves_eq, f.widens_before.leaves_eq]

/-- The layers are those that the query asks for. -/
theorem layerCount_eq (f : Finishing config q p) (l : Layer) :
    f.result.root.layerCount l = (q.asksFor l).toNat + p.root.layerCount l := by
  rw [result, (puts_slice ..).layerCount_eq, (puts_projected ..).layerCount_eq,
    (puts_sorted ..).layerCount_eq, f.widens_after.layerCount_eq, (puts_grouped ..).layerCount_eq,
    f.widens_before.layerCount_eq, f.asksFor_group, f.asksFor_sort, f.asksFor_project,
    q.asksFor_slice]
  cases l <;> simp

/-- Every layer is at its place. -/
theorem layered (f : Finishing config q p) (h : p.root.Layered 0) : f.result.root.Layered 4 := by
  have hgrouped := (puts_grouped f.before f.groupBy f.aggregates).layered
    (f.widens_before.layered h) (Nat.le_refl 0)
  have hsorted := (puts_sorted f.after f.orderBy).layered (f.widens_after.layered hgrouped)
    (Nat.le_refl 1)
  have hprojected := (puts_projected _ f.projection).layered hsorted (Nat.le_refl 2)
  exact (puts_slice _ q.offset q.limit).layered hprojected (Nat.le_refl 3)

end Plan.Finishing

/-- In the plan of a query, every connection is followed once, every filter is applied once, there
is one scan for every component of the pattern, and the layers on top are those that the query asks
for, each of them once and at its place. -/
theorem Query.plan_accounts_for_query {config : Config} {q : Query} {p : Plan}
    (h : q.plan config = .ok p) :
    p.root.count Operator.isTraversal = q.connections.length ∧
      (∃ groups r, Component.partition q .empty = .ok groups r ∧
        p.root.leaves.length = groups.length) ∧
      p.root.count Operator.isFilter + p.root.filterScans = q.constraints.length ∧
      (∀ l, p.root.layerCount l = if q.asksFor l then 1 else 0) ∧
      ∀ t ∈ p.root.subtrees, ∀ op ∈ PlanNode.operatorsList t.inputs, t.op.MayCover op := by
  obtain ⟨groups, r, p, hp, f, rfl⟩ := (q.meets_plan config).result h
  have haccounts := hp.derivation.accounts
  have hnone : ∀ l, p.root.layerCount l = 0 := fun l =>
    List.countP_eq_zero.2 fun op hop => by rw [haccounts.layer? op hop]; exact nofun
  refine ⟨?_, ⟨groups, r, eq_ok_of_outcome_eq_ok hp.outcome_eq, ?_⟩, ?_, fun l => ?_, ?_⟩
  · rw [f.count_eq fun _ => Operator.isTraversal_of_isMatching]
    exact haccounts.traversals
  · rw [f.leaves_eq]
    exact haccounts.leaves
  · rw [f.count_eq fun _ => Operator.isFilter_of_isMatching, PlanNode.filterScans, f.leaves_eq]
    exact haccounts.filters
  · rw [f.layerCount_eq, hnone]
    cases q.asksFor l <;> rfl
  · exact (f.layered (PlanNode.layered_of_layer?_eq_none haccounts.layer?)).mayCover

/-- Two components that a filter connects, and results with a sum. -/
theorem Query.plan_accounts_for_joined_components :
    let q : Query := { Query.empty with
      vertices := [⟨"c", false⟩]
      connections := [⟨⟨"a", false⟩, ⟨"b", false⟩, ⟨"e", false⟩⟩]
      constraints := [.binary (.compare .lt) (.prop "a" "x") (.prop "c" "x"), .hasLabel "b" "City"]
      projection := [⟨.aggregate .sum (.prop "e" "cost"), some "total"⟩]
      limit := some 10 }
    ∃ p, q.plan Config.default = .ok p ∧ p.root.count Operator.isTraversal = q.connections.length ∧
      (∃ groups r, Component.partition q .empty = .ok groups r ∧
        p.root.leaves.length = groups.length) ∧
      p.root.count Operator.isFilter + p.root.filterScans = q.constraints.length ∧
      (∀ l, p.root.layerCount l = if q.asksFor l then 1 else 0) ∧
      ∀ t ∈ p.root.subtrees, ∀ op ∈ PlanNode.operatorsList t.inputs, t.op.MayCover op := by
  intro q
  obtain ⟨p, hp⟩ : ∃ p, q.plan Config.default = .ok p := ⟨_, rfl⟩
  exact ⟨p, hp, plan_accounts_for_query hp⟩

end GraphPlan
