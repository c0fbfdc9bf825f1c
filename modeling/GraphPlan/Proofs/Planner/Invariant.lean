import GraphPlan.Proofs.Planner.Run
import GraphPlan.Proofs.Planner.Tracking
import GraphPlan.Proofs.Schema.Distinct

/-!
# What holds all the way through planning

`Point.Good` is the invariant of a run: at each kind of point, what is known about the components,
the plans and the filters there. One step keeps it (`Good.step`), so it holds wherever a run comes
(`good_of_visited`).

Up to the last product this is bookkeeping: no connection and no filter is lost, every plan has a
derivation, and a filter is linked to its components and counts what it waits for. From there on it
is about the columns, which keep different keys.
-/

namespace GraphPlan

variable {config : Config} {q : Query} {r : Registry}

/-! ## Components that are not planned yet -/

/-- What does not depend on plans is the same after a component got one. -/
theorem Component.exists_mem_setPlan {before after : List Component} {g : Component} {p : Plan}
    {P : Component → Prop} (hP : P (g.setPlan p) ↔ P g) :
    (∃ g' ∈ before ++ g.setPlan p :: after, P g') ↔ ∃ g' ∈ before ++ g :: after, P g' := by
  simp only [List.mem_append, List.mem_cons, or_and_right, exists_or, exists_eq_left, hP]

/-- The components of a pattern, of which those of `todo` have no plans yet. -/
structure Split (q : Query) (r : Registry) (done todo : List Component) : Prop where
  nonempty : done ++ todo ≠ []
  ids : ((done ++ todo).map Component.id).Nodup
  disjoint : (done ++ todo).Pairwise fun g g' => ∀ x ∈ g.vars, x ∉ g'.vars
  connections : ((done ++ todo).flatMap Component.connections).Perm q.connections
  contains_iff : ∀ x, r.contains x = true ↔ ∃ g ∈ done ++ todo, x ∈ g.vars
  linked : ∀ g ∈ todo, g.Linked r
  typed : ∀ c ∈ q.connections, c.Typed r

namespace Split

variable {done todo : List Component} {g : Component}

/-- The next component has its plan. -/
theorem advance (h : Split q r done (g :: todo)) (p : Plan) :
    Split q r (done ++ [g.setPlan p]) todo where
  nonempty := by simp
  ids := by simpa [Component.setPlan] using h.ids
  disjoint := by
    have hdisj := h.disjoint
    rw [List.append_assoc, List.singleton_append]
    simp only [List.pairwise_append, List.pairwise_cons, List.mem_cons, forall_eq_or_imp] at hdisj ⊢
    exact hdisj
  connections := by simpa [Component.setPlan] using h.connections
  contains_iff := by
    intro x
    rw [h.contains_iff, List.append_assoc, List.singleton_append,
      Component.exists_mem_setPlan Iff.rfl]
  linked := fun g' hg' => h.linked g' (.tail g hg')
  typed := h.typed

theorem typed_of_mem (h : Split q r done (g :: todo)) {c : Connection} (hc : c ∈ g.connections) :
    c.Typed r :=
  h.typed c (h.connections.mem_iff.1 (List.mem_flatMap.2 ⟨g, by simp, hc⟩))

/-- The variables of the next component do not belong to an earlier one. -/
theorem not_mem_done (h : Split q r done (g :: todo)) {x : String} (hx : x ∈ g.vars) :
    done.any (·.contains x) = false := by
  rw [List.any_eq_false]
  intro g' hg' hx'
  have hx' : x ∈ g'.vars := by simpa [Component.contains] using hx'
  exact (List.pairwise_append.1 h.disjoint).2.2 g' hg' g List.mem_cons_self x hx' hx

end Split

/-- Between two components: those of `done` have plans, those of `todo` do not. -/
structure Seeding (config : Config) (q : Query) (r : Registry) (done todo : List Component)
    (cs : List Constraint) : Prop where
  split : Split q r done todo
  planned : ∃ used, PlannedAll config r done used done.length ∧
    (used ++ cs.map Constraint.expr).Perm q.constraints
  sound : ∀ c ∈ cs, c.Sound (done ++ todo)

/-- While a component gets its plan. -/
structure Drafting (config : Config) (q : Query) (r : Registry) (d : Draft)
    (cs : List Constraint) : Prop where
  split : Split q r d.done (d.group :: d.todo)
  planned : ∃ used exprs conns, PlannedAll config r d.done used d.done.length ∧
    (used ++ exprs).Perm q.constraints ∧ (conns ++ d.remaining).Perm d.group.connections ∧
    Building config r d.groups conns exprs 1 (fun x => d.plan.schema.hasVariable x = true) d.plan cs
  /-- Something is bound. -/
  starts : ∃ x ∈ d.group.vars, d.plan.schema.hasVariable x = true
  /-- Nothing else is bound than variables of the component. -/
  within : ∀ x, d.plan.schema.hasVariable x = true → x ∈ d.group.vars

/-- The bound variables of a plan are those that it has columns for. -/
theorem Building.self {groups : List Component} {conns : List Connection} {exprs : List Expr}
    {n : Nat} {bound : String → Prop} {p : Plan} {cs : List Constraint}
    (h : Building config r groups conns exprs n bound p cs) :
    Building config r groups conns exprs n (fun x => p.schema.hasVariable x = true) p cs :=
  ⟨h.derivation, fun _ => Iff.rfl, h.sound⟩

/-! ## Steps while components get their plans -/

theorem PlannerState.seeding_start {s : PlannerState} (h : PlannerState.start q = .ok s) :
    Seeding config q s.registry [] s.groups s.constraints := by
  have hs := (meets_start q).result h
  have hpart := hs.partitioned
  refine ⟨?_, ⟨[], .nil, ?_⟩, hs.sound⟩
  · exact ⟨hpart.nonempty, nodup_ids hpart.ids, hpart.disjoint, hpart.connections,
      hpart.contains_iff, hpart.linked, hpart.typed⟩
  · rw [hs.filters]
    exact List.Perm.refl _

namespace Seeding

variable {done todo : List Component} {cs : List Constraint} {g : Component}

/-- When all components have plans, they can be joined. -/
theorem progress (h : Seeding config q r done [] cs) :
    Progress config q r done.length done cs := by
  obtain ⟨hne, hids, hdisj, hconns, hcontains, -, -⟩ := h.split
  have hsound := h.sound
  rw [List.append_nil] at hne hids hdisj hconns hsound
  simp only [List.append_nil] at hcontains
  exact ⟨hne, hids, hdisj, hcontains, hconns, h.planned, hsound⟩

/-- The plan of the next component can be started. -/
theorem meets_seed (h : Seeding config q r done (g :: todo) cs) :
    (PlannerState.seed config r g cs).Meets
      (fun x => ∃ y ∈ g.vars, Building config r (done ++ g :: todo) [] (cs.map Constraint.expr) 1
        (· = y) x.1 x.2) (fun _ => False) := by
  have hsplit := h.split
  have hreg : ∀ y ∈ g.vars, r.contains y = true := fun y hy =>
    (hsplit.contains_iff y).2 ⟨g, by simp, hy⟩
  exact PlannerState.meets_seed (hsplit.linked g List.mem_cons_self)
    (fun c hc => hsplit.typed_of_mem hc) hreg h.sound

/-- The plan of the next component is started. -/
theorem seed {x : Plan × List Constraint} (h : Seeding config q r done (g :: todo) cs)
    (hx : PlannerState.seed config r g cs = .ok x) :
    Drafting config q r ⟨done, g, todo, x.1, g.connections⟩ x.2 := by
  obtain ⟨y, hy, hbuild⟩ := h.meets_seed.result hx
  obtain ⟨used, hplanned, hperm⟩ := h.planned
  refine ⟨h.split, ⟨used, _, [], hplanned, hperm, List.Perm.refl _, hbuild.self⟩, ?_, fun z hz => ?_⟩
  · exact ⟨y, hy, (hbuild.bound_iff y).2 rfl⟩
  · rw [(hbuild.bound_iff z).1 hz]
    exact hy

end Seeding

namespace Drafting

variable {d : Draft} {c : Constraint} {cs : List Constraint}

/-- The filters that remain may be listed in another order, with other counts. -/
theorem congr {cs' : List Constraint} (h : Drafting config q r d cs)
    (hexprs : (cs'.map Constraint.expr).Perm (cs.map Constraint.expr))
    (hsound : ∀ c ∈ cs', c.Sound d.groups) : Drafting config q r d cs' := by
  obtain ⟨used, exprs, conns, hplanned, hperm, hconns, hbuild⟩ := h.planned
  exact ⟨h.split, ⟨used, exprs, conns, hplanned, hperm, hconns, hbuild.congr hexprs hsound⟩,
    h.starts, h.within⟩

theorem sound (h : Drafting config q r d cs) (hc : c ∈ cs) : c.Sound d.groups := by
  obtain ⟨_, _, _, _, _, _, hbuild⟩ := h.planned
  exact hbuild.sound c hc

theorem patternPlan (h : Drafting config q r d cs) :
    ∃ conns used, PatternPlan config r conns used 1 d.plan := by
  obtain ⟨_, _, conns, _, _, _, hbuild⟩ := h.planned
  obtain ⟨used, hplan, -⟩ := hbuild.derivation
  exact ⟨conns, used, hplan⟩

/-- A filter is applied, which binds nothing. -/
theorem apply {x : Unit × Plan} (h : Drafting config q r d (c :: cs))
    (hx : PlanM.exec (c.apply config) d.plan = .ok x) :
    Drafting config q r { d with plan := x.2 } cs ∧
      ∀ y, x.2.schema.hasVariable y = d.plan.schema.hasVariable y := by
  obtain ⟨used, exprs, conns, hplanned, hperm, hconns, hbuild⟩ := h.planned
  have hnext := (Constraint.meets_apply hbuild).result hx
  have hvars : ∀ y, x.2.schema.hasVariable y = d.plan.schema.hasVariable y := fun y =>
    Bool.eq_iff_iff.2 (hnext.bound_iff y)
  refine ⟨⟨h.split, ⟨used, exprs, conns, hplanned, hperm, hconns, hnext.self⟩, ?_, ?_⟩, hvars⟩
  · obtain ⟨y, hy, hbound⟩ := h.starts
    exact ⟨y, hy, (hvars y).trans hbound⟩
  · intro y hy
    exact h.within y ((hvars y).symm.trans hy)

/-- A connection is followed, which binds its variables. -/
theorem follow {conn : Connection} {how : Traversal} {rest : List Connection} {x : Unit × Plan}
    (h : Drafting config q r d cs)
    (hpick : pick? (Traversal.next? d.plan.schema) d.remaining = some (conn, how, rest))
    (hx : PlanM.exec (Plan.traverse conn how) d.plan = .ok x) :
    Drafting config q r { d with plan := x.2, remaining := rest } cs ∧
      ∀ y, x.2.schema.hasVariable y = true ↔
        d.plan.schema.hasVariable y = true ∨ y ∈ conn.names := by
  obtain ⟨used, exprs, conns, hplanned, hperm, hconns, hbuild⟩ := h.planned
  obtain ⟨used', hplan, hused'⟩ := hbuild.derivation
  obtain ⟨hrest, hnext⟩ := perm_of_pick?_eq_some hpick
  obtain ⟨column, hcolumn⟩ := PlannerState.next?_eq_some hnext
  rw [Plan.exec_traverse, hcolumn] at hx
  cases hx
  have hconns' : (conn :: conns ++ rest).Perm d.group.connections :=
    List.perm_middle.symm.trans ((hrest.symm.append_left conns).trans hconns)
  have hconn : conn ∈ d.group.connections := hconns'.mem_iff.1 (by simp)
  have htyped : conn.Typed r := h.split.typed_of_mem hconn
  have hvars := hplan.hasVariable_follow hcolumn
  refine ⟨⟨h.split, ⟨used, exprs, conn :: conns, hplanned, hperm, hconns',
    ⟨used', hplan.follow htyped hcolumn, hused'⟩, fun _ => Iff.rfl, hbuild.sound⟩, ?_, ?_⟩, hvars⟩
  · obtain ⟨y, hy, hbound⟩ := h.starts
    exact ⟨y, hy, (hvars y).2 (Or.inl hbound)⟩
  · intro y hy
    rcases (hvars y).1 hy with hy | hy
    · exact h.within y hy
    · exact (h.split.linked _ List.mem_cons_self).mem_vars hconn hy

/-- When all connections are followed, the component has its plan. -/
theorem complete {done todo : List Component} {g : Component} {p : Plan}
    (h : Drafting config q r ⟨done, g, todo, p, []⟩ cs) :
    Seeding config q r (done ++ [g.setPlan p]) todo cs ∧
      ∀ x, p.schema.hasVariable x = true ↔ x ∈ g.vars := by
  obtain ⟨used, exprs, conns, hplanned, hperm, hconns, hbuild⟩ := h.planned
  rw [List.append_nil] at hconns
  have hwhole := PlannerState.Building.complete (h.split.linked g List.mem_cons_self) hbuild hconns
    h.starts h.within
  obtain ⟨used', hplan, hused'⟩ := hwhole.derivation
  have hgroup : (g.setPlan p).Planned config r used' 1 := ⟨p, rfl, hplan, hwhole.bound_iff⟩
  obtain ⟨all, hall, hplannedAll⟩ :=
    (PlannedAll.cons hgroup hplanned).perm (List.perm_append_singleton _ _).symm
  refine ⟨⟨h.split.advance p, ⟨all, ?_, ?_⟩, ?_⟩, hwhole.bound_iff⟩
  · rw [List.length_append, List.length_singleton, Nat.add_comm]
    exact hplannedAll
  · refine (hall.append_right _).trans (List.Perm.trans ?_ hperm)
    rw [List.append_assoc]
    exact (List.perm_append_comm_assoc _ _ _).trans (hused'.append_left used)
  · intro c hc
    refine (hbuild.sound c hc).congr fun id vars => ?_
    rw [List.append_assoc, List.singleton_append, Component.exists_mem_setPlan Iff.rfl]
    rfl

end Drafting

/-! ## Filters -/

/-- The variables that are bound while a component gets its plan. -/
def Draft.binds (d : Draft) (x : String) : Bool :=
  d.done.any (·.contains x) || d.plan.schema.hasVariable x

/-- What was bound before some variables of the component got bound. -/
theorem Drafting.binds_eq {d : Draft} {cs : List Constraint} (h : Drafting config q r d cs)
    (before : String → Bool) {added : List String}
    (hadded : ∀ x, x ∈ added ↔ d.plan.schema.hasVariable x = true ∧ before x = false)
    (hbefore : ∀ x, before x = true → d.plan.schema.hasVariable x = true) (x : String) :
    (d.done.any (·.contains x) || before x) = (d.binds x && !added.contains x) := by
  unfold Draft.binds
  by_cases hx : x ∈ added
  · -- a variable of this component belongs to no other one
    obtain ⟨hbound, hnew⟩ := (hadded x).1 hx
    have hdone := h.split.not_mem_done (h.within x hbound)
    have hx' : added.contains x = true := by simpa using hx
    rw [hdone, hnew, hx', Bool.not_true, Bool.and_false, Bool.or_false]
  · have hx' : added.contains x = false := by simpa using hx
    have hsame : before x = d.plan.schema.hasVariable x := by
      rw [Bool.eq_iff_iff]
      refine ⟨hbefore x, fun hbound => ?_⟩
      by_contra hnew
      exact hx ((hadded x).2 ⟨hbound, by simpa using hnew⟩)
    rw [hsame, hx', Bool.not_false, Bool.and_true]

/-- Marking the variables that were added makes the count right. -/
theorem Draft.tracked_markAvailable {d : Draft} {added : List String} {c : Constraint}
    (hadded : added.Nodup) (hnew : ∀ x ∈ added, d.plan.schema.hasVariable x = true)
    (hc : c.Tracked r fun x => d.binds x && !added.contains x) :
    (c.markAvailable added).Tracked r d.binds := by
  refine hc.markAvailable hadded fun x hx => ?_
  rw [Draft.binds, hnew x hx, Bool.or_true]

/-- Starting a plan takes at most one filter. -/
theorem mem_of_seed {g : Component} {cs : List Constraint} {x : Plan × List Constraint}
    (h : PlannerState.seed config r g cs = .ok x) {c : Constraint} (hc : c ∈ x.2) : c ∈ cs := by
  unfold PlannerState.seed at h
  split at h
  · next first rest hfirst =>
    obtain ⟨-, hperm⟩ := PlannerState.seedFilter?_eq_some hfirst
    split at h
    · cases h
      exact hperm.mem_iff.2 (.tail first hc)
    · cases h
  · split at h
    · cases h
      exact hc
    · cases h

/-- Joining changes the links of filters only. -/
theorem info_of_joinStep {s s' : PlannerState}
    (h : PlannerState.joinStep config s = .ok (some s')) {c : Constraint}
    (hc : c ∈ s'.constraints) : ∃ c' ∈ s.constraints, c.info = c'.info := by
  unfold PlannerState.joinStep at h
  split at h
  · cases h
  · next hpick =>
    obtain ⟨groups, -, h⟩ := eq_ok_of_bind_eq_ok h
    cases h
    obtain ⟨hperm, -⟩ := perm_of_pick?_eq_some hpick
    exact ⟨c, hperm.mem_iff.2 (.tail _ hc), rfl⟩
  · next hpick =>
    obtain ⟨groups, -, h⟩ := eq_ok_of_bind_eq_ok h
    cases h
    obtain ⟨hperm, -⟩ := perm_of_pick?_eq_some hpick
    obtain ⟨c', hc', rfl⟩ := List.mem_map.1 hc
    exact ⟨c', hperm.mem_iff.2 (.tail _ hc'), rfl⟩

/-- Multiplying changes the links of filters only. -/
theorem info_of_productStep {first other : Component} {cs : List Constraint}
    {x : Component × List Constraint} (h : PlannerState.productStep first other cs = .ok x)
    {c : Constraint} (hc : c ∈ x.2) : ∃ c' ∈ cs, c.info = c'.info := by
  unfold PlannerState.productStep at h
  obtain ⟨y, -, h⟩ := eq_ok_of_bind_eq_ok h
  obtain ⟨z, -, h⟩ := eq_ok_of_bind_eq_ok h
  obtain ⟨w, -, h⟩ := eq_ok_of_bind_eq_ok h
  cases h
  obtain ⟨c', hc', rfl⟩ := List.mem_map.1 hc
  exact ⟨c', hc', rfl⟩

/-! ## The invariant -/

/-- A plan before grouping, with columns of it to group by. -/
structure Ungrouped (groupBy : List Nat) (p : Plan) : Prop where
  sharp : p.schema.Sharp
  aggregateColumn?_eq_none : ∀ text, p.schema.aggregateColumn? text = none
  lt_width : ∀ i ∈ groupBy, i < p.schema.width

/-- A plan with columns of it to project. -/
structure Projectable (projection : List Nat) (p : Plan) : Prop where
  sharp : p.schema.Sharp
  lt_width : ∀ i ∈ projection, i < p.schema.width

theorem Ungrouped.widens {groupBy : List Nat} {p p' : Plan} (h : Ungrouped groupBy p)
    (hp : Plan.Widens config p p') : Ungrouped groupBy p' where
  sharp := hp.sharp h.sharp
  aggregateColumn?_eq_none := fun text => (hp.aggregateColumn? text).trans
    (h.aggregateColumn?_eq_none text)
  lt_width := fun i hi => Nat.lt_of_lt_of_le (h.lt_width i hi) hp.keeps.width_le

theorem Projectable.widens {projection : List Nat} {p p' : Plan} (h : Projectable projection p)
    (hp : Plan.Widens config p p') : Projectable projection p' where
  sharp := hp.sharp h.sharp
  lt_width := fun i hi => Nat.lt_of_lt_of_le (h.lt_width i hi) hp.keeps.width_le

/-- What is known at a point of a run. -/
inductive Point.Good (config : Config) (q : Query) (r : Registry) : Point → Prop where
  | seeding {done todo : List Component} {cs : List Constraint}
      (h : Seeding config q r done todo cs)
      (ht : ∀ c ∈ cs, c.Tracked r fun x => done.any (·.contains x)) :
      Good config q r (.seeding done todo cs)
  | checking {d : Draft} {added : List String} {kept waiting : List Constraint}
      (h : Drafting config q r d (kept ++ waiting)) (hadded : added.Nodup)
      (hnew : ∀ x ∈ added, d.plan.schema.hasVariable x = true)
      (hkept : ∀ c ∈ kept, c.Tracked r d.binds)
      (hwaiting : ∀ c ∈ waiting, c.Tracked r fun x => d.binds x && !added.contains x) :
      Good config q r (.checking d added kept waiting)
  | growing {d : Draft} {cs : List Constraint} (h : Drafting config q r d cs)
      (ht : ∀ c ∈ cs, c.Tracked r d.binds) : Good config q r (.growing d cs)
  | joining {groups : List Component} {cs : List Constraint} {n : Nat}
      (h : Progress config q r n groups cs) (ha : ∀ c ∈ cs, c.Analyzed r) :
      Good config q r (.joining groups cs)
  | multiplying {groups : List Component} {cs : List Constraint} {n : Nat}
      (h : Progress config q r n groups cs) (ha : ∀ c ∈ cs, c.Analyzed r) :
      Good config q r (.multiplying groups cs)
  | closing {g : Component} {cs : List Constraint} {n : Nat}
      (h : Progress config q r n [g] cs) (ha : ∀ c ∈ cs, c.Analyzed r) :
      Good config q r (.closing [g] cs)
  | filtering {g : Component} {p : Plan} {cs : List Constraint} {n : Nat}
      (h : Building config r [g] q.connections q.constraints n (· ∈ g.vars) p cs)
      (hr : ∀ x, r.contains x = true ↔ x ∈ g.vars) (ha : ∀ c ∈ cs, c.Analyzed r) :
      Good config q r (.filtering g p cs)
  | matched {p : Plan} {n : Nat} (h : PatternPlan config r q.connections q.constraints n p)
      (hvars : ∀ x, p.schema.hasVariable x = true ↔ r.contains x = true) :
      Good config q r (.matched p)
  | keying {groupBy : List Nat} {keys : List GroupKey} {p : Plan} (h : Ungrouped groupBy p)
      (hkeys : keys <:+ q.groupBy) : Good config q r (.keying groupBy keys p)
  | collecting {groupBy : List Nat} {todo : List (Stage × Expr)} {x : Extraction}
      (h : Ungrouped groupBy x.plan) (hx : x.Distinct) (htodo : todo <:+ Point.collected q)
      (hready : ∀ e ∈ (Point.collected q).map Prod.snd, e ∈ todo.map Prod.snd ∨
        ∀ text ∈ e.aggregatesRead, x.contains text = true) :
      Good config q r (.collecting groupBy todo x)
  | valuing {projection : List Nat} {elems : List ProjectionElem} {p : Plan}
      (h : Projectable projection p) (helems : elems <:+ q.projection)
      (hready : ∀ elem ∈ elems, elem.expr.Ready p.schema)
      (horder : ∀ elem ∈ q.orderBy, elem.expr.Ready p.schema) :
      Good config q r (.valuing projection elems p)
  | sorting {projection orderBy : List Nat} {elems : List OrderElem} {p : Plan}
      (h : Projectable projection p) (helems : elems <:+ q.orderBy)
      (hready : ∀ elem ∈ elems, elem.expr.Ready p.schema) :
      Good config q r (.sorting projection orderBy elems p)
  | ordered {projection : List Nat} {p : Plan} (h : Projectable projection p) :
      Good config q r (.ordered projection p)
  | projected {p : Plan} (h : p.schema.Sharp) : Good config q r (.projected p)
  | finished {p : Plan} (h : p.schema.Sharp) : Good config q r (.finished p)

namespace Point

variable {b : Point}

/-! ## One step -/

theorem good_seeding {done todo : List Component} {cs : List Constraint}
    (h : Seeding config q r done todo cs)
    (ht : ∀ c ∈ cs, c.Tracked r fun x => done.any (·.contains x))
    (hb : (seeding done todo cs).step config q r = .ok b) : b.Good config q r := by
  cases todo with
  | nil =>
    cases hb
    exact .joining h.progress fun c hc => (ht c hc).analyzed
  | cons g todo =>
    obtain ⟨x, hx, hb⟩ := eq_ok_of_atStage_bind_eq_ok hb
    cases hb
    have hdraft := h.seed hx
    obtain ⟨conns, used, hplan⟩ := hdraft.patternPlan
    have hvars : ∀ y, y ∈ x.1.schema.vars ↔ x.1.schema.hasVariable y = true := fun y =>
      hplan.sharp.valid.mem_vars
    refine .checking hdraft hplan.sharp.nodup_vars (fun y hy => (hvars y).1 hy) nofun ?_
    intro c hc
    refine (ht c (mem_of_seed hx hc)).congr fun y => ?_
    have hbinds : (done.any (·.contains y) || false) = _ :=
      hdraft.binds_eq (fun _ => false) (fun z => by rw [hvars]; simp) (fun _ => nofun) y
    rwa [Bool.or_false] at hbinds

theorem good_checking {d : Draft} {added : List String} {kept waiting : List Constraint}
    (h : Drafting config q r d (kept ++ waiting)) (hadded : added.Nodup)
    (hnew : ∀ x ∈ added, d.plan.schema.hasVariable x = true)
    (hkept : ∀ c ∈ kept, c.Tracked r d.binds)
    (hwaiting : ∀ c ∈ waiting, c.Tracked r fun x => d.binds x && !added.contains x)
    (hb : (checking d added kept waiting).step config q r = .ok b) : b.Good config q r := by
  cases waiting with
  | nil =>
    cases hb
    rw [List.append_nil] at h
    exact .growing h hkept
  | cons c waiting =>
    have hmarked : (c.markAvailable added).Tracked r d.binds :=
      Draft.tracked_markAvailable hadded hnew (hwaiting c List.mem_cons_self)
    have hsound : (c.markAvailable added).Sound d.groups :=
      (h.sound (c := c) (by simp)).markAvailable added
    have hrest : ∀ c' ∈ waiting, c'.Tracked r fun x => d.binds x && !added.contains x :=
      fun c' hc' => hwaiting c' (.tail c hc')
    simp only [Point.step] at hb
    split at hb
    · -- the filter is ready and goes into the plan
      obtain ⟨x, hx, hb⟩ := eq_ok_of_atStage_bind_eq_ok hb
      cases hb
      have hfirst : Drafting config q r d (c.markAvailable added :: (kept ++ waiting)) := by
        refine h.congr ?_ fun c' hc' => ?_
        · rw [List.map_cons, List.map_append, List.map_append]
          exact List.perm_middle.symm
        · rcases List.mem_cons.1 hc' with rfl | hc'
          · exact hsound
          · refine h.sound ?_
            rw [List.mem_append] at hc' ⊢
            exact hc'.imp_right (.tail c)
      obtain ⟨hnext, hvars⟩ := hfirst.apply hx
      have hbinds : ∀ y, d.binds y = Draft.binds { d with plan := x.2 } y := by
        intro y
        simp only [Draft.binds, hvars]
      refine .checking hnext hadded (fun y hy => (hvars y).trans (hnew y hy)) ?_ ?_
      · exact fun c' hc' => (hkept c' hc').congr hbinds
      · exact fun c' hc' => (hrest c' hc').congr fun y => by rw [hbinds]
    · -- the filter waits on, with the new count
      cases hb
      refine .checking (h.congr ?_ fun c' hc' => ?_) hadded hnew ?_ hrest
      · simp only [List.map_append, List.append_assoc]
        exact List.Perm.refl _
      · simp only [List.mem_append, List.mem_singleton] at hc'
        rcases hc' with (hc' | rfl) | hc'
        · exact h.sound (List.mem_append_left _ hc')
        · exact hsound
        · exact h.sound (List.mem_append_right _ (.tail c hc'))
      · intro c' hc'
        rcases List.mem_append.1 hc' with hc' | hc'
        · exact hkept c' hc'
        · rw [List.mem_singleton.1 hc']
          exact hmarked

theorem good_growing {d : Draft} {cs : List Constraint} (h : Drafting config q r d cs)
    (ht : ∀ c ∈ cs, c.Tracked r d.binds) (hb : (growing d cs).step config q r = .ok b) :
    b.Good config q r := by
  obtain ⟨done, g, todo, p, remaining⟩ := d
  cases remaining with
  | nil =>
    cases hb
    obtain ⟨hseed, hvars⟩ := h.complete
    refine .seeding hseed fun c hc => (ht c hc).congr fun x => ?_
    have hx : p.schema.hasVariable x = (g.setPlan p).contains x := by
      rw [Bool.eq_iff_iff, hvars]
      simp [Component.contains, Component.setPlan]
    rw [List.any_append, List.any_cons, List.any_nil, Bool.or_false, ← hx]
    rfl
  | cons conn conns =>
    simp only [Point.step] at hb
    split at hb
    · cases hb
    · next next how rest hpick =>
      obtain ⟨x, hx, hb⟩ := eq_ok_of_atStage_bind_eq_ok hb
      cases hb
      obtain ⟨hdraft, hvars⟩ := h.follow hpick hx
      obtain ⟨_, _, hold⟩ := h.patternPlan
      obtain ⟨_, _, hplan⟩ := hdraft.patternPlan
      -- the variables that the connection adds are those that no filter has counted as bound
      have hadded : ∀ y, y ∈ x.2.schema.vars.filter (fun var => !p.schema.vars.contains var) ↔
          x.2.schema.hasVariable y = true ∧ p.schema.hasVariable y = false := by
        intro y
        have hold' : y ∈ p.schema.vars ↔ p.schema.hasVariable y = true :=
          hold.sharp.valid.mem_vars
        rw [List.mem_filter, hplan.sharp.valid.mem_vars, ← Bool.not_eq_true, ← hold']
        simp
      refine .checking hdraft (hplan.sharp.nodup_vars.filter _) ?_ (by simp) ?_
      · exact fun y hy => ((hadded y).1 hy).1
      · exact fun c hc => (ht c hc).congr
          (hdraft.binds_eq p.schema.hasVariable hadded fun y hy => (hvars y).2 (Or.inl hy))

theorem good_joining {groups : List Component} {cs : List Constraint} {n : Nat}
    (h : Progress config q r n groups cs) (ha : ∀ c ∈ cs, c.Analyzed r)
    (hb : (joining groups cs).step config q r = .ok b) : b.Good config q r := by
  obtain ⟨o, ho, hb⟩ := eq_ok_of_atStage_bind_eq_ok hb
  cases o with
  | none =>
    cases hb
    exact .multiplying h ha
  | some s =>
    cases hb
    have hnext : Progress config q r n s.groups s.constraints :=
      (PlannerState.meets_joinStep (s := ⟨r, groups, cs⟩) h).result ho s rfl
    refine .joining hnext fun c hc => ?_
    obtain ⟨c', hc', hinfo⟩ := info_of_joinStep ho hc
    exact (ha c' hc').of_info_eq hinfo

theorem good_multiplying {groups : List Component} {cs : List Constraint} {n : Nat}
    (h : Progress config q r n groups cs) (ha : ∀ c ∈ cs, c.Analyzed r)
    (hb : (multiplying groups cs).step config q r = .ok b) : b.Good config q r := by
  match groups with
  | [] => exact absurd rfl h.nonempty
  | [g] =>
    cases hb
    exact .closing h ha
  | first :: other :: rest =>
    obtain ⟨x, hx, hb⟩ := eq_ok_of_atStage_bind_eq_ok hb
    cases hb
    refine .multiplying ((PlannerState.meets_productStep h).result hx) fun c hc => ?_
    obtain ⟨c', hc', hinfo⟩ := info_of_productStep hx hc
    exact (ha c' hc').of_info_eq hinfo

theorem good_closing {g : Component} {cs : List Constraint} {n : Nat}
    (h : Progress config q r n [g] cs) (ha : ∀ c ∈ cs, c.Analyzed r)
    (hb : (closing [g] cs).step config q r = .ok b) : b.Good config q r := by
  obtain ⟨x, hx, hb⟩ := eq_ok_of_atStage_bind_eq_ok hb
  cases hb
  obtain ⟨used, hplanned, hused⟩ := h.filters
  obtain ⟨p, hp, hderiv, hvars⟩ := hplanned.single
  have hconns := h.connections
  simp only [List.flatMap_cons, List.flatMap_nil, List.append_nil] at hconns
  rw [Component.takePlan, hp] at hx
  cases hx
  refine .filtering ⟨⟨used, hderiv.perm hconns (List.Perm.refl _), hused⟩, hvars, ?_⟩ ?_ ha
  · intro c hc
    refine (h.sound c hc).congr fun id vars => ?_
    simp only [List.mem_singleton, exists_eq_left]
  · intro x
    rw [h.contains_iff]
    simp only [List.mem_singleton, exists_eq_left]

theorem good_filtering {g : Component} {p : Plan} {cs : List Constraint} {n : Nat}
    (h : Building config r [g] q.connections q.constraints n (· ∈ g.vars) p cs)
    (hr : ∀ x, r.contains x = true ↔ x ∈ g.vars) (ha : ∀ c ∈ cs, c.Analyzed r)
    (hb : (filtering g p cs).step config q r = .ok b) : b.Good config q r := by
  cases cs with
  | nil =>
    cases hb
    obtain ⟨used, hplan, hused⟩ := h.derivation
    rw [List.map_nil, List.append_nil] at hused
    refine .matched (hplan.perm (List.Perm.refl _) hused) fun x => ?_
    rw [h.bound_iff, hr]
  | cons c cs =>
    simp only [Point.step] at hb
    split at hb
    · obtain ⟨x, hx, hb⟩ := eq_ok_of_atStage_bind_eq_ok hb
      cases hb
      exact .filtering ((Constraint.meets_apply h).result hx) hr fun c' hc' => ha c' (.tail c hc')
    · cases hb

theorem good_collecting {groupBy : List Nat} {todo : List (Stage × Expr)} {x : Extraction}
    (h : Ungrouped groupBy x.plan) (hx : x.Distinct) (htodo : todo <:+ collected q)
    (hready : ∀ e ∈ (collected q).map Prod.snd, e ∈ todo.map Prod.snd ∨
      ∀ text ∈ e.aggregatesRead, x.contains text = true)
    (hb : (collecting groupBy todo x).step config q r = .ok b) : b.Good config q r := by
  cases todo with
  | nil =>
    obtain ⟨y, hy, hb⟩ := eq_ok_of_atStage_bind_eq_ok hb
    cases hb
    rw [Plan.exec_group x.aggregates h.lt_width] at hy
    cases hy
    have hmem : ∀ e ∈ (collected q).map Prod.snd,
        e.Ready (x.plan.grouped groupBy x.aggregates).schema := fun e he =>
      Plan.ready_grouped ((hready e he).resolve_left List.not_mem_nil)
    have hsharp := Plan.sharp_grouped h.sharp h.lt_width hx h.aggregateColumn?_eq_none
    refine .valuing ⟨hsharp, nofun⟩ (List.suffix_refl _) (fun elem helem => hmem _ ?_)
      fun elem helem => hmem _ ?_
    · simp only [collected, List.map_append, List.map_map, List.mem_append]
      exact Or.inl (List.mem_map_of_mem helem)
    · simp only [collected, List.map_append, List.map_map, List.mem_append]
      exact Or.inr (List.mem_map_of_mem helem)
  | cons entry todo =>
    obtain ⟨stage, e⟩ := entry
    obtain ⟨y, hy, hb⟩ := eq_ok_of_atStage_bind_eq_ok hb
    cases hb
    -- the aggregates of this expression are there now, and no other one is lost
    have hgathers := (e.meets_extract h.sharp.valid).result hy
    refine .collecting (h.widens hgathers.widens) ((e.distinct_extract hx).result hy)
      ((List.suffix_cons _ _).trans htodo) ?_
    intro e' he'
    rcases hready e' he' with hmem | hmem
    · rcases List.mem_cons.1 hmem with rfl | hmem
      · exact Or.inr hgathers.covers
      · exact Or.inl hmem
    · exact Or.inr fun text htext => hgathers.keeps text (hmem text htext)

/-- One step keeps the invariant. -/
theorem Good.step {a : Point} (h : a.Good config q r) (hb : a.step config q r = .ok b) :
    b.Good config q r := by
  cases h with
  | seeding h ht => exact good_seeding h ht hb
  | checking h hadded hnew hkept hwaiting => exact good_checking h hadded hnew hkept hwaiting hb
  | growing h ht => exact good_growing h ht hb
  | joining h ha => exact good_joining h ha hb
  | multiplying h ha => exact good_multiplying h ha hb
  | closing h ha => exact good_closing h ha hb
  | filtering h hr ha => exact good_filtering h hr ha hb
  | matched h hvars =>
    cases hb
    exact .keying ⟨h.sharp, h.ofPattern.aggregateColumn?_eq_none, nofun⟩ (List.suffix_refl _)
  | @keying groupBy keys p h hkeys =>
    cases keys with
    | nil =>
      cases hb
      exact .collecting h List.nodup_nil (List.suffix_refl _) fun e he => Or.inl he
    | cons key keys =>
      obtain ⟨x, hx, hb⟩ := eq_ok_of_atStage_bind_eq_ok hb
      cases hb
      obtain ⟨hwidens, hlt⟩ := (Plan.meets_groupColumn key h.sharp.valid).result hx
      have hnext := h.widens hwidens
      exact .keying ⟨hnext.sharp, hnext.aggregateColumn?_eq_none,
        List.forall_mem_append.2 ⟨hnext.lt_width, by simpa using hlt⟩⟩
        ((List.suffix_cons _ _).trans hkeys)
  | collecting h hx htodo hready => exact good_collecting h hx htodo hready hb
  | @valuing projection elems p h helems hready horder =>
    cases elems with
    | nil =>
      cases hb
      exact .sorting h (List.suffix_refl _) horder
    | cons elem elems =>
      obtain ⟨x, hx, hb⟩ := eq_ok_of_atStage_bind_eq_ok hb
      cases hb
      obtain ⟨hwidens, hlt⟩ := (Plan.meets_projectionColumn h.sharp.valid
        (hready elem List.mem_cons_self)).result hx
      have hnext := h.widens hwidens
      refine .valuing ⟨hnext.sharp, List.forall_mem_append.2 ⟨hnext.lt_width, by simpa using hlt⟩⟩
        ((List.suffix_cons _ _).trans helems)
        (fun elem' helem => (hready elem' (.tail _ helem)).keeps hwidens.keeps)
        fun elem' helem => (horder elem' helem).keeps hwidens.keeps
  | @sorting projection orderBy elems p h helems hready =>
    cases elems with
    | nil =>
      cases hb
      refine .ordered ⟨?_, ?_⟩ <;> rw [Plan.schema_sorted]
      · exact h.sharp
      · exact h.lt_width
    | cons elem elems =>
      obtain ⟨x, hx, hb⟩ := eq_ok_of_atStage_bind_eq_ok hb
      cases hb
      obtain ⟨hwidens, -⟩ := (Plan.meets_orderColumn h.sharp.valid
        (hready elem List.mem_cons_self)).result hx
      exact .sorting (h.widens hwidens) ((List.suffix_cons _ _).trans helems)
        fun elem' helem => (hready elem' (.tail _ helem)).keeps hwidens.keeps
  | ordered h =>
    obtain ⟨x, hx, hb⟩ := eq_ok_of_atStage_bind_eq_ok hb
    cases hb
    rw [Plan.exec_project h.lt_width] at hx
    cases hx
    refine .projected ?_
    unfold Plan.projected
    split
    · exact h.sharp
    · exact h.sharp.reduced h.lt_width
  | projected h =>
    cases hb
    refine .finished ?_
    unfold Plan.slice
    split
    · exact h
    · exact h
  | finished h =>
    cases hb
    exact .finished h

/-- The invariant holds wherever a run comes. -/
theorem good_of_visited {s : PlannerState} {a : Point} (h : PlannerState.start q = .ok s)
    (ha : Visited config q s a) : a.Good config q s.registry := by
  induction ha with
  | refl =>
    exact .seeding (PlannerState.seeding_start h) (PlannerState.tracked_start h)
  | tail _ hstep ih => exact ih.step hstep

end Point

end GraphPlan
