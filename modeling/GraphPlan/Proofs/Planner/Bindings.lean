import GraphPlan.Proofs.Planner.Invariant

/-!
# Columns of variables through a run

Wherever a run comes, the columns of each plan are looked up by different keys, so that a lookup
gives the one column that is meant. As long as there are several plans, no two of them bind the same
variable, the plan of a component binds exactly its variables, and in the end the plan of the
pattern binds every variable of the pattern in one column.
-/

namespace GraphPlan

/-- Plans that have no variable in common. -/
def Plan.Apart (p p' : Plan) : Prop :=
  ∀ x, Content.var x ∈ p.schema.contents → Content.var x ∉ p'.schema.contents

/-- A component with a plan that binds its variables, each of them in one column. -/
def Component.Binds (g : Component) (p : Plan) : Prop :=
  g.plan = some p ∧ ∀ x, p.schema.contents.count (.var x) = if x ∈ g.vars then 1 else 0

theorem Component.Planned.binds {config : Config} {r : Registry} {g : Component}
    {used : List Expr} {n : Nat} (h : g.Planned config r used n) :
    ∃ p, g.Binds p ∧ p.schema.Sharp := by
  obtain ⟨p, hp, hderiv, hvars⟩ := h
  refine ⟨p, ⟨hp, fun x => ?_⟩, hderiv.sharp⟩
  rw [hderiv.sharp.count_var]
  simp only [hvars]

/-- What a plan of a component binds belongs to the component. -/
theorem Component.Binds.mem_vars {g : Component} {p : Plan} (h : g.Binds p) {x : String}
    (hx : Content.var x ∈ p.schema.contents) : x ∈ g.vars := by
  by_contra hnot
  have hcount := h.2 x
  rw [if_neg hnot] at hcount
  exact List.count_eq_zero.1 hcount hx

namespace Point

variable {config : Config} {q : Query} {r : Registry} {a : Point}

/-- The components that have plans share no variable. -/
theorem Good.disjoint_planned (h : a.Good config q r) :
    a.planned.Pairwise fun g g' => ∀ x ∈ g.vars, x ∉ g'.vars := by
  cases h with
  | seeding h => exact (List.pairwise_append.1 h.split.disjoint).1
  | checking h | growing h => exact (List.pairwise_append.1 h.split.disjoint).1
  | joining h | multiplying h | closing h => exact h.disjoint
  | filtering | matched | keying | collecting => exact .nil
  | valuing | sorting | ordered | projected | finished => exact .nil

/-- Each of them has a plan that binds its variables. -/
theorem Good.binds (h : a.Good config q r) {g : Component} (hg : g ∈ a.planned) :
    ∃ p, g.Binds p ∧ p.schema.Sharp := by
  have hplanned : ∃ used n, g.Planned config r used n := by
    cases h with
    | seeding h =>
      obtain ⟨_, hall, -⟩ := h.planned
      exact hall.of_mem hg
    | checking h | growing h =>
      obtain ⟨_, _, _, hall, -⟩ := h.planned
      exact hall.of_mem hg
    | joining h | multiplying h | closing h => exact h.planned hg
    | filtering | matched | keying | collecting => cases hg
    | valuing | sorting | ordered | projected | finished => cases hg
  obtain ⟨used, n, hplanned⟩ := hplanned
  exact hplanned.binds

/-- The plans of different components have no variable in common. -/
theorem Good.apart_planned (h : a.Good config q r) :
    (a.planned.filterMap Component.plan).Pairwise Plan.Apart := by
  rw [List.pairwise_filterMap]
  refine h.disjoint_planned.imp_of_mem fun {g g'} hg hg' hdisj p hp p' hp' x hx hx' => ?_
  obtain ⟨o, ho, -⟩ := h.binds hg
  obtain ⟨o', ho', -⟩ := h.binds hg'
  obtain rfl : p = o := Option.some.inj (hp.symm.trans ho.1)
  obtain rfl : p' = o' := Option.some.inj (hp'.symm.trans ho'.1)
  exact hdisj x (ho.mem_vars hx) (ho'.mem_vars hx')

/-- The columns of all plans have different keys. -/
theorem Good.sharp (h : a.Good config q r) {p : Plan} (hp : p ∈ a.plans) : p.schema.Sharp := by
  rcases List.mem_append.1 hp with hp | hp
  · obtain ⟨g, hg, hgp⟩ := List.mem_filterMap.1 hp
    obtain ⟨p', hp', hsharp⟩ := h.binds hg
    rwa [Option.some.inj (hgp.symm.trans hp'.1)]
  · cases h with
    | seeding | joining | multiplying | closing => cases hp
    | checking h | growing h =>
      obtain ⟨_, _, hplan⟩ := h.patternPlan
      rw [List.mem_singleton.1 hp]
      exact hplan.sharp
    | filtering h =>
      obtain ⟨_, hplan, -⟩ := h.derivation
      rw [List.mem_singleton.1 hp]
      exact hplan.sharp
    | matched h | keying h | collecting h | valuing h | sorting h | ordered h =>
      rw [List.mem_singleton.1 hp]
      exact h.sharp
    | projected h | finished h =>
      rw [List.mem_singleton.1 hp]
      exact h

/-- No two plans have a variable in common. -/
theorem Good.apart (h : a.Good config q r) : a.plans.Pairwise Plan.Apart := by
  refine List.pairwise_append.2 ⟨h.apart_planned, ?_, ?_⟩
  · cases h with
    | seeding | joining | multiplying | closing => exact .nil
    | checking | growing | filtering | matched => exact List.pairwise_singleton _ _
    | keying | collecting | valuing | sorting => exact List.pairwise_singleton _ _
    | ordered | projected | finished => exact List.pairwise_singleton _ _
  · intro p hp p' hp' x hx hx'
    obtain ⟨g, hg, hgp⟩ := List.mem_filterMap.1 hp
    obtain ⟨o, ho, -⟩ := h.binds hg
    obtain rfl : p = o := Option.some.inj (hgp.symm.trans ho.1)
    cases h with
    | seeding | joining | multiplying | closing => cases hp'
    | @checking d _ _ _ h | @growing d _ h =>
      -- the plan in progress binds variables of its own component only
      obtain ⟨_, _, hplan⟩ := h.patternPlan
      rw [List.mem_singleton.1 hp'] at hx'
      have hmem := h.within x (hplan.sharp.valid.hasVariable_iff.2 hx')
      have hnone := List.any_eq_false.1 (h.split.not_mem_done hmem) g hg
      exact hnone (by simpa [Component.contains] using ho.mem_vars hx)
    | filtering | matched | keying | collecting => cases hg
    | valuing | sorting | ordered | projected | finished => cases hg

end Point

/-- All the way through planning, no two columns of a plan are looked up by the same key, so lookups
are exact. The plans of different components bind different variables, the plan of a component
binds the variables of the component, and the plan of the pattern binds all of its variables: each
of them in one column, and no others. -/
theorem Query.run_keeps_lookups_exact {config : Config} {q : Query} {s : PlannerState}
    (h : PlannerState.start q = .ok s) :
    Point.Leads config q s.registry (.seeding [] s.groups s.constraints)
        (q.plan config >>= fun p => .ok (.finished p)) ∧
      (∀ a, Point.Visited config q s a →
        (∀ p ∈ a.plans, p.schema.Exact) ∧ a.plans.Pairwise Plan.Apart ∧
        ∀ g ∈ a.planned, ∃ p ∈ a.plans, g.Binds p) ∧
      ∀ p, q.matchPlan config = .ok p → Point.Visited config q s (.matched p) ∧
        ∀ x, p.schema.contents.count (.var x) = if s.registry.contains x then 1 else 0 := by
  refine ⟨Point.leads_plan h, fun a ha => ?_, fun p hp => ?_⟩
  · have hgood := Point.good_of_visited h ha
    refine ⟨fun p hp => (hgood.sharp hp).exact, hgood.apart, fun g hg => ?_⟩
    obtain ⟨p, hp, -⟩ := hgood.binds hg
    exact ⟨p, List.mem_append_left _ (List.mem_filterMap.2 ⟨g, hg, hp.1⟩), hp⟩
  · have hvisited : Point.Visited config q s (.matched p) := by
      have hleads : Point.Leads config q s.registry _ _ := Point.leads_matchPlan h
      rw [hp] at hleads
      exact hleads
    refine ⟨hvisited, fun x => ?_⟩
    cases Point.good_of_visited h hvisited with
    | matched hplan hvars =>
      rw [hplan.sharp.count_var]
      simp only [hvars]

/-- A loop, whose end is bound already when it is followed, and a value that is projected twice:
each of them gives a scratch column. -/
theorem Query.run_keeps_lookups_exact_of_loop :
    let q : Query := { Query.empty with
      connections := [⟨⟨"a", false⟩, ⟨"b", false⟩, ⟨"e", false⟩⟩,
        ⟨⟨"b", false⟩, ⟨"b", false⟩, ⟨"f", false⟩⟩]
      constraints := [.hasLabel "a" "City"]
      groupBy := [⟨.prop "b" "size", "k"⟩]
      projection := [⟨.ref "k", none⟩, ⟨.ref "k", none⟩] }
    ∃ s p p', PlannerState.start q = .ok s ∧ q.matchPlan Config.default = .ok p ∧
      p.schema.contents = [.var "a", .var "e", .var "b", .var "f", .scratch "b"] ∧
      (∀ x, p.schema.contents.count (.var x) = if s.registry.contains x then 1 else 0) ∧
      q.plan Config.default = .ok p' ∧
      Point.Visited Config.default q s (.finished p') ∧ p'.schema.Exact := by
  intro q
  obtain ⟨s, hs⟩ : ∃ s, PlannerState.start q = .ok s := ⟨_, rfl⟩
  obtain ⟨p, hp, hcontents⟩ : ∃ p, q.matchPlan Config.default = .ok p ∧
      p.schema.contents = [.var "a", .var "e", .var "b", .var "f", .scratch "b"] := ⟨_, rfl, rfl⟩
  obtain ⟨p', hp'⟩ : ∃ p', q.plan Config.default = .ok p' := ⟨_, rfl⟩
  obtain ⟨hleads, hall, hmatch⟩ := @run_keeps_lookups_exact Config.default q s hs
  have hvisited : Point.Visited Config.default q s (.finished p') := by
    rw [hp'] at hleads
    exact hleads
  exact ⟨s, p, p', hs, hp, hcontents, (hmatch p hp).2, hp', hvisited,
    (hall _ hvisited).1 p' (List.mem_singleton.2 rfl)⟩

end GraphPlan
