import GraphPlan.Proofs.Pattern.Kinds
import GraphPlan.Proofs.Plan.AggregateColumns
import GraphPlan.Proofs.Planner.Invariant

/-!
# Aggregates are computed once and read where they are

Grouping computes every aggregate of a query once, and what is done after it moves no result away.
Only a projected value could do so, by taking the text of an aggregate for itself: a query that
`KeepsTexts` has none that does. From grouping on, the plan of each point of a run then supplies the
aggregates (`Plan.Supplied`, `Point.Supplies`).
-/

namespace GraphPlan

/-! ## The aggregates of a query -/

namespace Query

/-- The aggregates that stand in the results and the sort keys, from left to right. -/
def aggregates (q : Query) : List Expr :=
  (q.projection.map ProjectionElem.expr ++ q.orderBy.map OrderElem.expr).flatMap Expr.aggregates

/-- Their texts in the order in which they are met first. -/
def aggregateTexts (q : Query) : List String :=
  (q.aggregates.map Expr.text).eraseDups

theorem mem_aggregateTexts {q : Query} {e t : Expr}
    (he : e ∈ q.projection.map ProjectionElem.expr ++ q.orderBy.map OrderElem.expr)
    (ht : t ∈ e.aggregates) : t.text ∈ q.aggregateTexts := by
  rw [aggregateTexts, List.mem_eraseDups]
  exact List.mem_map_of_mem (List.mem_flatMap.2 ⟨e, he, ht⟩)

/-- No result takes the text of an aggregate away from it: not as its declared name, and not as its
own text, which a variable of the pattern or a property of one can have. -/
structure KeepsTexts (q : Query) : Prop where
  name : ∀ elem ∈ q.projection, ∀ name, elem.name = some name → name ∉ q.aggregateTexts
  ref : ∀ elem ∈ q.projection, ∀ x, elem.expr = .ref x → q.HasName x →
    elem.expr.text ∉ q.aggregateTexts
  prop : ∀ elem ∈ q.projection, ∀ x a, elem.expr = .prop x a → q.HasName x →
    elem.expr.text ∉ q.aggregateTexts

end Query

/-- The entries of a query before grouping. -/
theorem Plan.lists_gather {config : Config} {q : Query} {p : Plan} {groupBy : List Nat}
    {x : Extraction} (h : Plan.gather config q p = .ok (groupBy, x)) :
    ∃ keyed, PlanM.exec (Plan.groupColumns config q.groupBy) p = .ok (groupBy, keyed) ∧
      x.Lists config keyed q.aggregates := by
  have hextract : ∀ {stage es y z}, extractAt stage config es y = .ok z →
      outcome (Expr.extractList config es) y = .ok ((), z) := by
    intro stage es y z hz
    unfold extractAt at hz
    unfold outcome
    cases hrun : Expr.extractList config es y with
    | ok u w =>
      rw [hrun] at hz
      cases hz
      rfl
    | error e w =>
      rw [hrun] at hz
      cases hz
  obtain ⟨⟨columns, keyed⟩, hkeys, h⟩ := eq_ok_of_atStage_bind_eq_ok h
  obtain ⟨y, hy, h⟩ := eq_ok_of_bind_eq_ok h
  obtain ⟨z, hz, h⟩ := eq_ok_of_bind_eq_ok h
  cases h
  refine ⟨keyed, hkeys, ?_⟩
  have hall : outcome (Expr.extractList config q.aggregates) ⟨keyed, []⟩ = .ok ((), x) := by
    rw [Query.aggregates, ← Expr.aggregatesList_eq, ← Expr.extractList_eq, Expr.extractList_append,
      outcome_bind, hextract hy]
    exact hextract hz
  refine Extraction.lists_extractList (fun e he => ?_) hall
  obtain ⟨e', -, he⟩ := List.mem_flatMap.1 he
  exact e'.isAggregate_of_mem e he

/-! ## The run after grouping -/

/-- After grouping: the plan has no other grouping than the one that was put on top of it then. -/
def Plan.Grouped (groupBy : List Nat) (x : Extraction) (p : Plan) : Prop :=
  p.root.groupings = (x.plan.grouped groupBy x.aggregates).root.groupings

/-- Between grouping and the projection of the results, the aggregates also have their columns. -/
structure Plan.Supplied (r : Registry) (groupBy : List Nat) (x : Extraction) (p : Plan) : Prop where
  grouped : p.Grouped groupBy x
  inScope : p.schema.Scoped r
  serves : p.schema.Serves groupBy.length (x.aggregates.map AggregateInfo.key)

namespace Plan

variable {config : Config} {q : Query} {r : Registry} {groupBy : List Nat} {x : Extraction}
  {p p' : Plan}

theorem supplied_grouped (hscoped : x.plan.schema.Scoped r) (hx : x.Distinct)
    (hlt : ∀ i ∈ groupBy, i < x.plan.schema.width) :
    (x.plan.grouped groupBy x.aggregates).Supplied r groupBy x :=
  ⟨rfl, scoped_grouped x.aggregates hscoped hlt, serves_grouped hlt hx⟩

/-- Widening keeps the aggregates in their columns, if it keeps their names. -/
theorem Supplied.widens (h : p.Supplied r groupBy x) (hp : Widens config p p')
    (hname : ∀ text ∈ x.aggregates.map AggregateInfo.key,
      p'.schema.aliasColumn? text = p.schema.aliasColumn? text) : p'.Supplied r groupBy x where
  grouped := hp.groupings_eq.trans h.grouped
  inScope := hp.scoped h.inScope
  serves := h.serves.congr hp.aggregateColumn? hname

/-- A result that gets its column does not move an aggregate. -/
theorem Supplied.project (h : p.Supplied r groupBy x) (hq : q.KeepsTexts)
    (hr : ∀ y, r.contains y = true ↔ q.HasName y)
    (hkeys : x.aggregates.map AggregateInfo.key = q.aggregateTexts) {elem : ProjectionElem}
    (helem : elem ∈ q.projection) (hp : Widens config p p') {column : Nat}
    (hexec : PlanM.exec (projectionColumn config elem) p = .ok (column, p')) :
    p'.Supplied r groupBy x := by
  obtain ⟨hnames, htaken⟩ := projectionColumn_eq_ok hexec
  refine h.widens hp fun text htext => ?_
  obtain ⟨i, hi⟩ := List.mem_iff_getElem?.1 htext
  rw [hnames]
  split
  · next hcase =>
    rw [hkeys] at htext
    rcases hcase with hname | rfl
    · exact absurd htext (hq.name elem helem text hname)
    · -- the result has the text of the aggregate, so that it is found in the same column
      have href : ∀ y, elem.expr = .ref y → r.contains y = false := by
        intro y hy
        by_contra hreg
        rw [Bool.not_eq_false, hr] at hreg
        exact hq.ref elem helem y hy hreg htext
      have hprop : ∀ y a, elem.expr = .prop y a → r.contains y = false := by
        intro y a hy
        by_contra hreg
        rw [Bool.not_eq_false, hr] at hreg
        exact hq.prop elem helem y a hy hreg htext
      have hfetch := fetches_fetch config.attributeScope (elem.expr.analyze .postGroup).usage p
      obtain ⟨-, hname⟩ := h.serves i _ hi
      have hfound := (hfetch.widens.scoped h.inScope).existing?_eq href hprop
      rw [hfetch.aliasColumn?_eq, hname] at hfound
      rw [htaken _ hfound, hname]
  · rfl

/-- Neither does a sort key. -/
theorem Supplied.order (h : p.Supplied r groupBy x) {elem : OrderElem} (hp : Widens config p p')
    {column : Nat} (hexec : PlanM.exec (orderColumn config elem) p = .ok (column, p')) :
    p'.Supplied r groupBy x := by
  unfold orderColumn at hexec
  split at hexec
  · cases hexec
  · exact h.widens hp fun text _ => (materialize_eq_ok hexec).1 text

end Plan

namespace Point

variable {config : Config} {q : Query} {r : Registry} {groupBy : List Nat} {x : Extraction}
  {a b : Point}

/-- Whether the rows were grouped, if they are to be. -/
def isGrouped : Point → Bool
  | valuing .. => true
  | sorting .. => true
  | ordered .. => true
  | projected _ => true
  | finished _ => true
  | _ => false

/-- The result or the sort key that gets its column next, and the plan at this moment. -/
def valued? : Point → Option (Expr × Plan)
  | valuing _ (elem :: _) p => some (elem.expr, p)
  | sorting _ _ (elem :: _) p => some (elem.expr, p)
  | _ => none

/-- Rows that were grouped stay so. -/
theorem isGrouped_of_step (h : a.isGrouped = true) (hb : a.step config q r = .ok b) :
    b.isGrouped = true := by
  cases a with
  | valuing projection elems p =>
    cases elems with
    | nil =>
      cases hb
      rfl
    | cons elem elems =>
      obtain ⟨y, -, hb⟩ := eq_ok_of_atStage_bind_eq_ok hb
      cases hb
      rfl
  | sorting projection orderBy elems p =>
    cases elems with
    | nil =>
      cases hb
      rfl
    | cons elem elems =>
      obtain ⟨y, -, hb⟩ := eq_ok_of_atStage_bind_eq_ok hb
      cases hb
      rfl
  | ordered projection p =>
    obtain ⟨y, -, hb⟩ := eq_ok_of_atStage_bind_eq_ok hb
    cases hb
    rfl
  | projected p | finished p =>
    cases hb
    rfl
  | _ => cases h

theorem isGrouped_of_steps (h : a.isGrouped = true) (hb : Steps config q r a b) :
    b.isGrouped = true := by
  induction hb with
  | refl => exact h
  | tail _ hstep ih => exact isGrouped_of_step ih hstep

/-- What is known from the point on at which the rows are grouped. -/
inductive Supplies (r : Registry) (groupBy : List Nat) (x : Extraction) : Point → Prop where
  | collecting : Supplies r groupBy x (.collecting groupBy [] x)
  | valuing {projection : List Nat} {elems : List ProjectionElem} {p : Plan}
      (h : p.Supplied r groupBy x) : Supplies r groupBy x (.valuing projection elems p)
  | sorting {projection orderBy : List Nat} {elems : List OrderElem} {p : Plan}
      (h : p.Supplied r groupBy x) : Supplies r groupBy x (.sorting projection orderBy elems p)
  | ordered {projection : List Nat} {p : Plan} (h : p.Grouped groupBy x) :
      Supplies r groupBy x (.ordered projection p)
  | projected {p : Plan} (h : p.Grouped groupBy x) : Supplies r groupBy x (.projected p)
  | finished {p : Plan} (h : p.Grouped groupBy x) : Supplies r groupBy x (.finished p)

theorem Supplies.step (hq : q.KeepsTexts) (hr : ∀ y, r.contains y = true ↔ q.HasName y)
    (hkeys : x.aggregates.map AggregateInfo.key = q.aggregateTexts)
    (hscoped : x.plan.schema.Scoped r) (h : a.Supplies r groupBy x) (hgood : a.Good config q r)
    (hb : a.step config q r = .ok b) : b.Supplies r groupBy x := by
  cases h with
  | collecting =>
    obtain ⟨y, hy, hb⟩ := eq_ok_of_atStage_bind_eq_ok hb
    cases hb
    cases hgood with
    | collecting hun hx htodo hready =>
      rw [Plan.exec_group x.aggregates hun.lt_width] at hy
      cases hy
      exact .valuing (Plan.supplied_grouped hscoped hx hun.lt_width)
  | @valuing projection elems p h =>
    cases elems with
    | nil =>
      cases hb
      exact .sorting h
    | cons elem elems =>
      obtain ⟨y, hy, hb⟩ := eq_ok_of_atStage_bind_eq_ok hb
      cases hb
      cases hgood with
      | valuing hproj helems hready horder =>
        obtain ⟨hwidens, -⟩ := (Plan.meets_projectionColumn hproj.sharp.valid
          (hready elem List.mem_cons_self)).result hy
        exact .valuing (h.project hq hr hkeys (helems.subset List.mem_cons_self) hwidens hy)
  | @sorting projection orderBy elems p h =>
    cases elems with
    | nil =>
      cases hb
      exact .ordered (((Plan.puts_sorted p orderBy).groupings_eq (by simp)).trans h.grouped)
    | cons elem elems =>
      obtain ⟨y, hy, hb⟩ := eq_ok_of_atStage_bind_eq_ok hb
      cases hb
      cases hgood with
      | sorting hproj helems hready =>
        obtain ⟨hwidens, -⟩ := (Plan.meets_orderColumn hproj.sharp.valid
          (hready elem List.mem_cons_self)).result hy
        exact .sorting (h.order hwidens hy)
  | @ordered projection p h =>
    obtain ⟨y, hy, hb⟩ := eq_ok_of_atStage_bind_eq_ok hb
    cases hb
    cases hgood with
    | ordered hproj =>
      rw [Plan.exec_project hproj.lt_width] at hy
      cases hy
      exact .projected (((Plan.puts_projected p projection).groupings_eq (by simp)).trans h)
  | @projected p h =>
    cases hb
    exact .finished (((Plan.puts_slice p q.offset q.limit).groupings_eq (by simp)).trans h)
  | finished h =>
    cases hb
    exact .finished h

/-- Two points that a run visits come one after the other. -/
theorem Visited.total {s : PlannerState} (ha : Visited config q s a) (hb : Visited config q s b) :
    Steps config q s.registry a b ∨ Steps config q s.registry b a := by
  refine Relation.ReflTransGen.total_of_right_unique ?_ ha hb
  intro c d e hd he
  rw [hd] at he
  cases he
  rfl

/-- What is known from grouping on holds at all points after it. -/
theorem supplies_of_visited {s : PlannerState} (hs : PlannerState.start q = .ok s)
    (hq : q.KeepsTexts) (hr : ∀ y, s.registry.contains y = true ↔ q.HasName y)
    (hkeys : x.aggregates.map AggregateInfo.key = q.aggregateTexts)
    (hscoped : x.plan.schema.Scoped s.registry)
    (hvisited : Visited config q s (.collecting groupBy [] x)) (ha : Visited config q s a)
    (hgrouped : a.isGrouped = true) : a.Supplies s.registry groupBy x := by
  rcases hvisited.total ha with hsteps | hback
  · clear ha hgrouped
    induction hsteps with
    | refl => exact .collecting
    | tail hsteps hstep ih =>
      exact ih.step hq hr hkeys hscoped (good_of_visited hs (hvisited.trans hsteps)) hstep
  · -- the run does not go back before grouping
    cases isGrouped_of_steps hgrouped hback

theorem valued?_eq_some {e : Expr} {p : Plan} (h : a.valued? = some (e, p)) :
    (∃ projection elem elems, a = .valuing projection (elem :: elems) p ∧ elem.expr = e) ∨
      ∃ projection orderBy elem elems, a = .sorting projection orderBy (elem :: elems) p ∧
        elem.expr = e := by
  cases a with
  | valuing projection elems p' =>
    cases elems with
    | nil => cases h
    | cons elem elems =>
      cases h
      exact Or.inl ⟨projection, elem, elems, rfl, rfl⟩
  | sorting projection orderBy elems p' =>
    cases elems with
    | nil => cases h
    | cons elem elems =>
      cases h
      exact Or.inr ⟨projection, orderBy, elem, elems, rfl, rfl⟩
  | _ => cases h

theorem isGrouped_of_valued? {e : Expr} {p : Plan} (ha : a.valued? = some (e, p)) :
    a.isGrouped = true := by
  rcases valued?_eq_some ha with ⟨_, _, _, rfl, -⟩ | ⟨_, _, _, _, rfl, -⟩
  · rfl
  · rfl

/-- Where a value gets its column after grouping, the plan supplies the aggregates. -/
theorem Supplies.valued? {e : Expr} {p : Plan} (h : a.Supplies r groupBy x)
    (ha : a.valued? = some (e, p)) : p.Supplied r groupBy x := by
  rcases valued?_eq_some ha with ⟨_, _, _, rfl, -⟩ | ⟨_, _, _, _, rfl, -⟩
  · cases h with
    | valuing h => exact h
  · cases h with
    | sorting h => exact h

/-- What gets a column after grouping is a result or a sort key of the query. -/
theorem Good.valued?_mem {e : Expr} {p : Plan} (h : a.Good config q r)
    (ha : a.valued? = some (e, p)) :
    e ∈ q.projection.map ProjectionElem.expr ++ q.orderBy.map OrderElem.expr := by
  rcases valued?_eq_some ha with ⟨_, elem, _, rfl, rfl⟩ | ⟨_, _, elem, _, rfl, rfl⟩
  · cases h with
    | valuing _ helems =>
      exact List.mem_append_left _ (List.mem_map_of_mem (helems.subset List.mem_cons_self))
  · cases h with
    | sorting _ helems =>
      exact List.mem_append_right _ (List.mem_map_of_mem (helems.subset List.mem_cons_self))

/-! ## Every value gets its column -/

section

variable {s : PlannerState} {p : Plan}

/-- A run that comes to its end does not stop before. -/
theorem Visited.exists_step (ha : Visited config q s a) (hp : Visited config q s (.finished p)) :
    ∃ b, a.step config q s.registry = .ok b ∧ Visited config q s b := by
  have hlast : ∀ b, Steps config q s.registry (.finished p) b → b = .finished p := by
    intro b hb
    induction hb with
    | refl => rfl
    | tail _ hstep ih =>
      rw [ih] at hstep
      cases hstep
      rfl
  rcases ha.total hp with hsteps | hsteps
  · rcases Relation.ReflTransGen.cases_head hsteps with rfl | ⟨b, hb, -⟩
    · exact ⟨_, rfl, hp⟩
    · exact ⟨b, hb, ha.tail hb⟩
  · rw [hlast a hsteps]
    exact ⟨_, rfl, hp⟩

/-- Values get their columns one by one, from the first to the last. The point `at` holds the values
that are left. -/
theorem exists_valued {α : Type} (expr : α → Expr) (at' : List Nat → List α → Plan → Point)
    (hvalued : ∀ is a as p, (at' is (a :: as) p).valued? = some (expr a, p))
    (hstep : ∀ is a as p b, (at' is (a :: as) p).step config q s.registry = .ok b →
      ∃ is' p', b = at' is' as p')
    (hp : Visited config q s (.finished p)) {as : List α} {is : List Nat} {p₁ : Plan}
    (ha : Visited config q s (at' is as p₁)) :
    (∀ a ∈ as, ∃ b p', Visited config q s b ∧ b.valued? = some (expr a, p')) ∧
      ∃ is' p', Visited config q s (at' is' [] p') := by
  induction as generalizing is p₁ with
  | nil => exact ⟨by simp, is, p₁, ha⟩
  | cons a as ih =>
    obtain ⟨b, hb, hvisited⟩ := ha.exists_step hp
    obtain ⟨is', p', rfl⟩ := hstep is a as p₁ b hb
    obtain ⟨hrest, hend⟩ := ih hvisited
    refine ⟨fun c hc => ?_, hend⟩
    rcases List.mem_cons.1 hc with rfl | hc
    · exact ⟨_, p₁, ha, hvalued is c as p₁⟩
    · exact hrest c hc

/-- Every result and every sort key gets its value after grouping. -/
theorem exists_valued?_of_collecting (ha : Visited config q s (.collecting groupBy [] x))
    (hp : Visited config q s (.finished p)) {e : Expr}
    (he : e ∈ q.projection.map ProjectionElem.expr ++ q.orderBy.map OrderElem.expr) :
    ∃ b p', Visited config q s b ∧ b.valued? = some (e, p') := by
  obtain ⟨b, hb, hvaluing⟩ := ha.exists_step hp
  obtain ⟨y, -, hb⟩ := eq_ok_of_atStage_bind_eq_ok hb
  cases hb
  obtain ⟨hresults, projection, p₁, hlast⟩ := exists_valued ProjectionElem.expr valuing
    (fun _ _ _ _ => rfl) (fun is elem elems p b hb => by
      obtain ⟨z, -, hb⟩ := eq_ok_of_atStage_bind_eq_ok hb
      cases hb
      exact ⟨_, _, rfl⟩) hp hvaluing
  obtain ⟨b, hb, hsorting⟩ := hlast.exists_step hp
  cases hb
  obtain ⟨hkeys, -⟩ := exists_valued OrderElem.expr (sorting projection)
    (fun _ _ _ _ => rfl) (fun is elem elems p b hb => by
      obtain ⟨z, -, hb⟩ := eq_ok_of_atStage_bind_eq_ok hb
      cases hb
      exact ⟨_, _, rfl⟩) hp hsorting
  rcases List.mem_append.1 he with he | he
  · obtain ⟨elem, helem, rfl⟩ := List.mem_map.1 he
    exact hresults elem helem
  · obtain ⟨elem, helem, rfl⟩ := List.mem_map.1 he
    exact hkeys elem helem

end

end Point

/-- The run of planning a query that has a plan, with the points before and at grouping. -/
theorem Query.exists_visited {config : Config} {q : Query} {p : Plan} (h : q.plan config = .ok p) :
    ∃ s m groupBy x, PlannerState.start q = .ok s ∧ q.matchPlan config = .ok m ∧
      Plan.gather config q m = .ok (groupBy, x) ∧ Point.Visited config q s (.matched m) ∧
      Point.Visited config q s (.collecting groupBy [] x) ∧
      Point.Visited config q s (.finished p) := by
  obtain ⟨m, hm, hfinish⟩ := eq_ok_of_bind_eq_ok h
  obtain ⟨s, hs, -⟩ := eq_ok_of_atStage_bind_eq_ok hm
  rw [Plan.finish_eq] at hfinish
  obtain ⟨⟨groupBy, x⟩, hgather, -⟩ := eq_ok_of_bind_eq_ok hfinish
  have hmatched : Point.Visited config q s (.matched m) := Point.visited_of_matchPlan hs hm
  have hgathered : Point.Visited config q s (.collecting groupBy [] x) := by
    have hleads : Point.Leads config q s.registry (.matched m) _ := Point.leads_gather m
    rw [hgather] at hleads
    exact hmatched.trans hleads
  exact ⟨s, m, groupBy, x, hs, hm, hgather, hmatched, hgathered, Point.visited_of_plan hs h⟩

/-- If no result takes the text of an aggregate, grouping computes every aggregate of the query
once, and every use of it reads its result. The entries of the grouping are in the order in which
the texts are met first; the argument of each has the column that it got when the first aggregate
with the text was met. Every result and every sort key gets its value afterwards, and wherever one
does, each aggregate in it reads the column behind the grouping columns that belongs to its text. -/
theorem Query.plan_computes_aggregates_once {config : Config} {q : Query} {p : Plan}
    (h : q.plan config = .ok p) (hq : q.KeepsTexts) :
    ∃ s m keyed groupBy x, PlannerState.start q = .ok s ∧ q.matchPlan config = .ok m ∧
      PlanM.exec (Plan.groupColumns config q.groupBy) m = .ok (groupBy, keyed) ∧
      groupBy.length = q.groupBy.length ∧
      Point.Visited config q s (.collecting groupBy [] x) ∧
      Point.Visited config q s (.finished p) ∧
      p.root.groupings = (if q.groupBy = [] ∧ q.aggregateTexts = [] then []
        else [.node (.group groupBy (x.aggregates.map AggregateInfo.aggregation)) [x.plan.root]]) ∧
      x.aggregates.map AggregateInfo.key = q.aggregateTexts ∧
      (∀ a ∈ x.aggregates, (∀ c, a.column = some c → c < x.plan.schema.width) ∧
        ∃ before e after y p', q.aggregates = before ++ e :: after ∧
          e.text ∉ before.map Expr.text ∧
          outcome (Expr.extractList config before) ⟨keyed, []⟩ = .ok ((), y) ∧
          e.Computes config y.plan a p') ∧
      (∀ e ∈ q.projection.map ProjectionElem.expr ++ q.orderBy.map OrderElem.expr,
        ∃ a p', Point.Visited config q s a ∧ a.valued? = some (e, p')) ∧
      ∀ a e p', Point.Visited config q s a → a.valued? = some (e, p') → ∀ t ∈ e.aggregates,
        ∃ i, q.aggregateTexts[i]? = some t.text ∧
          (p'.schemaFor config e).Delivers t (q.groupBy.length + i) := by
  obtain ⟨s, m, groupBy, x, hs, hm, hgather, hmatched, hgathered, hfinished⟩ := exists_visited h
  obtain ⟨keyed, hkeyed, hlists⟩ := Plan.lists_gather hgather
  have hkeys : x.aggregates.map AggregateInfo.key = q.aggregateTexts := hlists.keys
  have hr : ∀ y, s.registry.contains y = true ↔ q.HasName y := fun y =>
    Component.contains_iff_hasName
      (eq_ok_of_outcome_eq_ok ((PlannerState.meets_start q).result hs).outcome_eq)
  cases Point.good_of_visited hs hmatched with
  | matched hpattern hvars =>
    have hbefore := (Plan.meets_gather q hpattern.ofPattern.valid).result hgather
    have hscoped : x.plan.schema.Scoped s.registry :=
      hbefore.widens.scoped (hpattern.scoped hvars)
    have hsupplies : ∀ a, Point.Visited config q s a → a.isGrouped = true →
        a.Supplies s.registry groupBy x := fun a =>
      Point.supplies_of_visited hs hq hr hkeys hscoped hgathered
    refine ⟨s, m, keyed, groupBy, x, hs, hm, hkeyed, hbefore.length_eq, hgathered, hfinished, ?_,
      hkeys, fun a ha => ⟨hbefore.inRange a ha, hlists.first a ha⟩,
      fun e he => Point.exists_valued?_of_collecting hgathered hfinished he, ?_⟩
    · cases hsupplies _ hfinished rfl with
      | finished hgrouped =>
        have hnone : x.plan.root.groupings = [] := by
          rw [hbefore.widens.groupings_eq]
          exact PlanNode.groupings_eq_nil hpattern.accounts.layer?
        have hempty : (groupBy = [] ∧ x.aggregates = []) ↔
            (q.groupBy = [] ∧ q.aggregateTexts = []) := by
          rw [← hkeys, List.map_eq_nil_iff, ← List.length_eq_zero_iff, hbefore.length_eq,
            List.length_eq_zero_iff]
        rw [hgrouped, Plan.groupings_grouped, hnone]
        exact if_congr hempty rfl rfl
    · intro a e p' ha hvalued t ht
      have hsupplied := (hsupplies a ha (Point.isGrouped_of_valued? hvalued)).valued? hvalued
      have hserves := Plan.serves_schemaFor config e hsupplied.serves
      have hmem := mem_aggregateTexts ((Point.good_of_visited hs ha).valued?_mem hvalued) ht
      obtain ⟨i, hi⟩ := List.mem_iff_getElem?.1 hmem
      refine ⟨i, hi, ?_⟩
      rw [hkeys] at hserves
      rw [← hbefore.length_eq]
      exact hserves.delivers (e.isAggregate_of_mem t ht) hi

/-- A sum and a count that are used twice each. When the last sort key gets its value, an attribute
was fetched and a quotient computed since the rows were grouped; the count is still read from the
second column behind the grouping column. -/
theorem Query.plan_computes_aggregates_once_of_shared_count :
    let sum := Expr.aggregate .sum (.prop "n" "age")
    let count := Expr.aggregateAll .count
    let last := Expr.binary .sub count (.int 1)
    let q : Query := { Query.empty with
      vertices := [⟨"n", false⟩]
      groupBy := [⟨.ref "n", "who"⟩]
      projection := [⟨.prop "n" "name", none⟩, ⟨sum, some "total"⟩, ⟨.binary .div sum count, none⟩]
      orderBy := [⟨count, true⟩, ⟨last, true⟩] }
    q.KeepsTexts ∧ q.aggregateTexts = ["SUM(n.age)", "COUNT(*)"] ∧
      ∃ p s a p', q.plan Config.default = .ok p ∧ PlannerState.start q = .ok s ∧
        p.root.groupings.map PlanNode.op = [.group [0] [.column .sum 1, .all .count]] ∧
        Point.Visited Config.default q s a ∧ a.valued? = some (last, p') ∧
        (p'.schemaFor Config.default last).Delivers count 2 := by
  intro sum count last q
  have htexts : q.aggregateTexts = ["SUM(n.age)", "COUNT(*)"] := by decide +kernel
  have hq : q.KeepsTexts := by
    constructor
    · intro elem helem name hname
      rw [htexts]
      simp only [q, List.mem_cons, List.not_mem_nil, or_false] at helem
      rcases helem with rfl | rfl | rfl
      · cases hname
      · cases hname
        decide
      · cases hname
    · intro elem helem x hx
      simp only [q, List.mem_cons, List.not_mem_nil, or_false] at helem
      rcases helem with rfl | rfl | rfl <;> cases hx
    · intro elem helem x a hx _
      rw [htexts]
      simp only [q, List.mem_cons, List.not_mem_nil, or_false] at helem
      rcases helem with rfl | rfl | rfl
      · decide
      · cases hx
      · cases hx
  have hplan : (q.plan Config.default).toOption.map (fun p => p.root.groupings.map PlanNode.op) =
      some [.group [0] [.column .sum 1, .all .count]] := by
    decide +kernel
  cases hp : q.plan Config.default with
  | error f =>
    rw [hp] at hplan
    cases hplan
  | ok p =>
    rw [hp] at hplan
    obtain ⟨s, -, -, -, -, hs, -, -, -, -, -, -, -, -, hvalued, hreads⟩ :=
      plan_computes_aggregates_once hp hq
    obtain ⟨a, p', ha, hlast⟩ := hvalued last (by simp [q])
    obtain ⟨i, hi, hdelivers⟩ := hreads a last p' ha hlast count List.mem_cons_self
    have hsecond : i = 1 := by
      have htext : count.text = "COUNT(*)" := by decide +kernel
      rw [htexts, htext] at hi
      rcases i with _ | _ | i
      · simp at hi
      · rfl
      · simp at hi
    rw [hsecond] at hdelivers
    exact ⟨hq, htexts, p, s, a, p', rfl, hs, Option.some.inj hplan, ha, hlast, hdelivers⟩

/-- A vertex whose name is the text of a count. The name is not declared for anything, but when the
vertex is projected, its text becomes a name for its column, and the count is read from there. -/
theorem Query.plan_misreads_count_of_projected_vertex :
    let count := Expr.aggregateAll .count
    let next := Expr.binary .add count (.int 1)
    let q : Query := { Query.empty with
      vertices := [⟨"COUNT(*)", false⟩]
      groupBy := [⟨.ref "COUNT(*)", "k"⟩]
      projection := [⟨.ref "COUNT(*)", none⟩, ⟨next, none⟩] }
    q.aggregateTexts = ["COUNT(*)"] ∧ (∀ key ∈ q.groupBy, key.name ∉ q.aggregateTexts) ∧
      (∀ elem ∈ q.projection, ∀ name, elem.name = some name → name ∉ q.aggregateTexts) ∧
      (∃ p, q.plan Config.default = .ok p) ∧
      ∃ s a p', PlannerState.start q = .ok s ∧ Point.Visited Config.default q s a ∧
        a.valued? = some (next, p') ∧
        next.resolve ⟨p'.schemaFor Config.default next, none⟩ =
          .ok (.binary .add (.column 0) (.int 1)) ∧
        ¬ (p'.schemaFor Config.default next).Delivers count (q.groupBy.length + 0) := by
  intro count next q
  have htexts : q.aggregateTexts = ["COUNT(*)"] := by decide +kernel
  obtain ⟨s, a, p', hs, ha, hvalued, hresolve, hcount⟩ : ∃ s a p', PlannerState.start q = .ok s ∧
      Point.after Config.default q s.registry 15 (.seeding [] s.groups s.constraints) = .ok a ∧
      a.valued? = some (next, p') ∧
      next.resolve ⟨p'.schemaFor Config.default next, none⟩ =
        .ok (.binary .add (.column 0) (.int 1)) ∧
      (p'.schemaFor Config.default next).existing? count = some 0 :=
    ⟨_, _, _, rfl, rfl, rfl, rfl, rfl⟩
  refine ⟨htexts, ?_, ?_, ⟨_, rfl⟩, s, a, p', hs, Point.steps_of_after ha, hvalued, hresolve, ?_⟩
  · rw [htexts]
    simp [q]
  · simp [q]
  · intro hdelivers
    cases hdelivers.existing.symm.trans hcount

end GraphPlan
