import GraphPlan.Proofs.Expr.Parts
import GraphPlan.Proofs.Pattern.Kinds
import GraphPlan.Proofs.Planner.Invariant

/-!
# Which patterns have a plan

A query that asks for the matches of its pattern has a plan exactly when it is `Acceptable`: there is
something in the pattern, no name is a vertex and an edge, and the filters are made of what the
algebra can express and of names that the pattern has.

That a plan needs this is read off its derivation. That nothing else is needed is a matter of
progress: a filter is only ever applied where its variables are bound, so that no point of a run gets
stuck (`Good.exists_step`).
-/

namespace GraphPlan

/-- What the pattern and the filters of a query must be like. -/
structure Query.Acceptable (q : Query) : Prop where
  pattern : q.HasPattern
  kinds : q.KindsApart
  supported : ∀ e ∈ q.constraints, ∀ t ∈ e.parts, t.isExcluded = false
  bound : ∀ e ∈ q.constraints, ∀ t ∈ e.parts, ∀ x, t.named? = some x → q.HasName x

variable {config : Config} {q : Query} {r : Registry}

/-! ## Filters that can be applied -/

/-- A filter has no other variables than those that its expression names. -/
theorem Expr.mem_names_of_mem_needs {e : Expr} {x : String} (h : x ∈ (e.needs r).names) :
    x ∈ e.names := by
  have hmentions : (e.visit .preGroup .empty).Mentions x :=
    (Usage.mem_vars_promote.1 h).imp_right And.left
  rcases e.mentions_visit hmentions with hempty | hname
  · rcases hempty with hempty | hempty <;> cases hempty
  · exact hname

namespace Constraint

variable {c : Constraint} {x : String}

/-- A filter that knows what its expression needs, and whose expression can be resolved where its
variables are bound. -/
structure Applicable (r : Registry) (c : Constraint) : Prop where
  analyzed : c.Analyzed r
  supported : c.expr.Supported
  registered : ∀ x ∈ c.expr.names, r.contains x = true

namespace Applicable

theorem records (h : c.Applicable r) {t : Expr} (ht : t ∈ c.expr.parts) :
    ((c.expr.analyze .preGroup).usage.promote r).Records t :=
  (Expr.records_visit c.expr h.supported .empty ht).promote r

/-- The filter knows its variables. -/
theorem mem_vars (h : c.Applicable r) (hx : x ∈ c.expr.names) : x ∈ c.usage.vars.names := by
  have hreg := h.registered x hx
  obtain ⟨t, ht, hnamed⟩ := (c.expr.mem_names_iff x).1 hx
  have hrecords := Expr.records_visit c.expr h.supported .empty ht
  have hmem : ∀ use, (c.expr.visit .preGroup .empty).vars.get? x = some use →
      x ∈ (c.expr.visit .preGroup .empty).vars.names := by
    intro use huse
    rw [← NameMap.contains_iff, NameMap.contains, huse]
    rfl
  rw [h.analyzed]
  refine Usage.mem_vars_promote.2 ?_
  cases t with
  | ref y =>
    cases hnamed
    exact Or.inr ⟨hrecords, hreg⟩
  | prop y a | hasLabel y label | labelOf y =>
    cases hnamed
    obtain ⟨use, huse, -⟩ := hrecords
    exact Or.inl (hmem use huse)
  | _ => cases hnamed

/-- The filter knows no other variables than those that its expression names. -/
theorem mem_vars_iff (h : c.Applicable r) : x ∈ c.usage.vars.names ↔ x ∈ c.expr.names := by
  refine ⟨fun hx => ?_, h.mem_vars⟩
  rw [h.analyzed] at hx
  exact Expr.mem_names_of_mem_needs hx

/-- The filter can be resolved where all that it needs from its variables has columns. -/
theorem exists_resolve (h : c.Applicable r) {scope : Scope}
    (hscope : ∀ x ∈ c.expr.names, ∃ s ∈ scope.schemas, s.hasVariable x = true ∧
      ∀ use, c.usage.vars.get? x = some use → s.Offers x use) :
    ∃ t, c.expr.resolve scope = .ok t := by
  refine Expr.exists_resolve h.supported fun t ht => ?_
  have hnames : ∀ x, t.named? = some x → x ∈ c.expr.names := fun x hx =>
    (c.expr.mem_names_iff x).2 ⟨t, ht, hx⟩
  have hrecords := h.records ht
  have hvars : ((c.expr.analyze .preGroup).usage.promote r).vars = c.usage.vars := h.analyzed.symm
  cases t with
  | ref x =>
    obtain ⟨s, hs, hvar, -⟩ := hscope x (hnames x rfl)
    exact Scope.isSome_find?.2 ⟨s, hs, hvar⟩
  | prop x a =>
    obtain ⟨use, huse, ha⟩ := hrecords
    obtain ⟨s, hs, -, hoffers⟩ := hscope x (hnames x rfl)
    exact Scope.isSome_find?.2 ⟨s, hs, (hoffers use (hvars ▸ huse)).attributes a ha⟩
  | hasLabel x label =>
    obtain ⟨use, huse, hlabel⟩ := hrecords
    obtain ⟨s, hs, -, hoffers⟩ := hscope x (hnames x rfl)
    exact Scope.isSome_find?.2 ⟨s, hs, (hoffers use (hvars ▸ huse)).label hlabel⟩
  | labelOf x =>
    obtain ⟨use, huse, hlabel⟩ := hrecords
    obtain ⟨s, hs, -, hoffers⟩ := hscope x (hnames x rfl)
    exact Scope.isSome_find?.2 ⟨s, hs, (hoffers use (hvars ▸ huse)).label hlabel⟩
  | _ => trivial

/-- After its columns were fetched, a plan has all that the filter needs from a bound variable. -/
theorem hasVariable_fetch {p : Plan} (scope : String) (hx : p.schema.hasVariable x = true) :
    (p.fetch scope c.usage).schema.hasVariable x = true ∧
      ∀ use, c.usage.vars.get? x = some use → (p.fetch scope c.usage).schema.Offers x use :=
  ⟨(Plan.fetches_fetch scope c.usage p).isSome_get? hx, fun _ huse => Plan.offers_fetch huse hx⟩

/-- The filter can be applied to a plan that binds its variables. -/
theorem exists_apply (h : c.Applicable r) (config : Config) {p : Plan}
    (hbound : ∀ x ∈ c.expr.names, p.schema.hasVariable x = true) :
    ∃ y, PlanM.exec (c.apply config) p = .ok y := by
  have hresolve : ∃ t, c.expr.resolve ⟨(p.fetch config.attributeScope c.usage).schema, none⟩ =
      .ok t := by
    refine h.exists_resolve fun x hx => ⟨_, List.mem_cons_self, ?_⟩
    exact hasVariable_fetch config.attributeScope (hbound x hx)
  obtain ⟨t, ht⟩ := hresolve
  rw [exec_apply, ht]
  exact ⟨_, rfl⟩

/-- The filter can join two plans that bind its variables. -/
theorem exists_applyJoin (h : c.Applicable r) {conns : List Connection} {u : List Expr} {m : Nat}
    {p p' : Plan} (hp' : PatternPlan config r conns u m p')
    (hbound : ∀ x ∈ c.expr.names, p.schema.hasVariable x = true ∨
      p'.schema.hasVariable x = true) :
    ∃ y, PlanM.exec (c.applyJoin config p') p = .ok y := by
  obtain ⟨hfetched, -⟩ := hp'.fetches (Plan.fetches_fetch config.attributeScope c.usage p')
  have hresolve : ∃ t, c.expr.resolve ⟨(p.fetch config.attributeScope c.usage).schema,
      some (p'.fetch config.attributeScope c.usage).schema⟩ = .ok t := by
    refine h.exists_resolve fun x hx => ?_
    rcases hbound x hx with hleft | hright
    · exact ⟨_, by simp [Scope.schemas], hasVariable_fetch config.attributeScope hleft⟩
    · refine ⟨(p'.fetch config.attributeScope c.usage).schema, by simp [Scope.schemas], ?_⟩
      exact hasVariable_fetch config.attributeScope hright
  obtain ⟨t, ht⟩ := hresolve
  rw [exec_applyJoin hfetched.ofPattern, ht]
  exact ⟨_, rfl⟩

/-- Each variable of the filter lies in a component that the filter is linked to. -/
theorem exists_linked (h : c.Applicable r) {groups : List Component} (hc : c.Sound groups)
    (hcontains : ∀ x, r.contains x = true ↔ ∃ g ∈ groups, x ∈ g.vars) (hx : x ∈ c.expr.names) :
    ∃ g ∈ groups, g.id ∈ c.linked ∧ x ∈ g.vars := by
  obtain ⟨g, hg, hxg⟩ := (hcontains x).1 (h.registered x hx)
  have htouches : c.touches g = true := touches_iff.2 ⟨x, h.mem_vars hx, hxg⟩
  exact ⟨g, hg, (hc.mem_linked g.id).2 ⟨g, hg, rfl, htouches⟩, hxg⟩

end Applicable

end Constraint

/-- The filters of an acceptable query can be applied. -/
theorem Query.Acceptable.applicable (hq : q.Acceptable)
    (hr : ∀ x, r.contains x = true ↔ q.HasName x) {c : Constraint} (hc : c.Analyzed r)
    (he : c.expr ∈ q.constraints) : c.Applicable r := by
  refine ⟨hc, hq.supported c.expr he, fun x hx => (hr x).2 ?_⟩
  obtain ⟨t, ht, hnamed⟩ := (c.expr.mem_names_iff x).1 hx
  exact hq.bound c.expr he t ht x hnamed

/-! ## Filters in their places -/

theorem Progress.expr_mem {n : Nat} {groups : List Component} {cs : List Constraint}
    (h : Progress config q r n groups cs) {c : Constraint} (hc : c ∈ cs) :
    c.expr ∈ q.constraints := by
  obtain ⟨used, -, hperm⟩ := h.filters
  exact hperm.mem_iff.1 (List.mem_append_right _ (List.mem_map_of_mem hc))

theorem Building.expr_mem {groups : List Component} {conns : List Connection} {exprs : List Expr}
    {n : Nat} {bound : String → Prop} {p : Plan} {cs : List Constraint}
    (h : Building config r groups conns exprs n bound p cs) {c : Constraint} (hc : c ∈ cs) :
    c.expr ∈ exprs := by
  obtain ⟨used, -, hperm⟩ := h.derivation
  exact hperm.mem_iff.1 (List.mem_append_right _ (List.mem_map_of_mem hc))

theorem Drafting.expr_mem {d : Draft} {cs : List Constraint} (h : Drafting config q r d cs)
    {c : Constraint} (hc : c ∈ cs) : c.expr ∈ q.constraints := by
  obtain ⟨used, exprs, conns, -, hperm, -, hbuild⟩ := h.planned
  exact hperm.mem_iff.1 (List.mem_append_right _ (hbuild.expr_mem hc))

/-- A filter that went into a plan has its variables in one component. -/
theorem PlannedAll.exists_of_mem {groups : List Component} {used : List Expr} {n : Nat}
    (h : PlannedAll config r groups used n) {e : Expr} (he : e ∈ used) :
    ∃ g ∈ groups, ∀ x ∈ e.names, x ∈ g.vars := by
  induction h with
  | nil => cases he
  | @cons g _ _ _ _ _ hg _ ih =>
    rcases List.mem_append.1 he with he | he
    · obtain ⟨p, -, hp, hvars⟩ := hg
      refine ⟨g, List.mem_cons_self, ?_⟩
      intro x hx
      exact (hvars x).1 (hp.hasVariable_of_mem_exprNames he hx)
    · obtain ⟨g', hg', hnames⟩ := ih he
      exact ⟨g', List.mem_cons_of_mem _ hg', hnames⟩

/-- A filter that waits for nothing and is linked to one component has its variables there. -/
theorem Drafting.bound_of_ready {d : Draft} {cs : List Constraint} (h : Drafting config q r d cs)
    {c : Constraint} (hc : c.Sound d.groups) (ht : c.Tracked r d.binds) (hpending : c.pending = 0)
    (hlinked : c.linked = [d.group.id]) {x : String} (hx : x ∈ c.usage.vars.names) :
    d.plan.schema.hasVariable x = true := by
  rcases Bool.or_eq_true_iff.1 (ht.bound_of_pending_eq_zero hpending hx) with hdone | hplan
  · -- a component that has its plan already would be linked, too
    obtain ⟨g, hg, hxg⟩ := List.any_eq_true.1 hdone
    have htouches : c.touches g = true :=
      Constraint.touches_iff.2 ⟨x, hx, by simpa [Component.contains] using hxg⟩
    have hmem : g ∈ d.groups := List.mem_append_left _ hg
    have hid := (hc.mem_linked g.id).2 ⟨g, hmem, rfl, htouches⟩
    rw [hlinked, List.mem_singleton] at hid
    have hids := h.split.ids
    rw [List.map_append, List.map_cons, List.nodup_append] at hids
    exact absurd hid (hids.2.2 _ (List.mem_map_of_mem hg) _ List.mem_cons_self)
  · exact hplan

namespace PlannerState

variable {s : PlannerState} {n : Nat}

/-- The planner can start with an acceptable query. -/
theorem exists_start (hq : q.Acceptable) :
    ∃ s, start q = .ok s ∧ ∀ x, s.registry.contains x = true ↔ q.HasName x := by
  obtain ⟨groups, r, hpart⟩ := Component.partition_isOk_iff.2 ⟨hq.pattern, hq.kinds⟩
  have hfilters : (q.constraints.mapM fun e => Constraint.ofExpr e r).Meets
      (fun cs => ∀ c ∈ cs, True) (fun _ => False) := by
    refine meets_mapM fun e he => ?_
    have hnone : (e.analyze .preGroup).usage.hasAggregates = false :=
      e.hasAggregates_visit_eq_false (hq.supported e he) rfl
    simp [Constraint.ofExpr, hnone]
  obtain ⟨cs, hcs⟩ := hfilters.exists_ok
  refine ⟨⟨r, groups, cs.map (·.link groups)⟩, ?_, fun x => Component.contains_iff_hasName hpart⟩
  simp only [start, hpart, hcs]
  rfl

/-- A filter that is linked to one component can be applied there. -/
theorem exists_applyTo (h : Progress config q r n s.groups s.constraints) {c : Constraint}
    (hc : c ∈ s.constraints) (happ : c.Applicable r) {target : GroupId}
    (hlinked : c.linked = [target]) :
    ∃ groups, modifyGroup target (onPlan (c.apply config)) s.groups = .ok groups := by
  have hsound := h.sound c hc
  obtain ⟨g, hg, hid, -⟩ := (hsound.mem_linked target).1 (by simp [hlinked])
  refine (meets_modifyGroup ⟨g, hg, hid⟩ fun g hg hid e he => ?_).exists_ok
  obtain ⟨u, m, p, hp, -, hvars⟩ := h.planned hg
  have happly : ∃ y, PlanM.exec (c.apply config) p = .ok y := by
    refine happ.exists_apply config fun x hx => (hvars x).2 ?_
    -- the component of the variable is linked, and there is one link only
    obtain ⟨g', hg', hmem, hxg'⟩ := happ.exists_linked hsound h.contains_iff hx
    rw [hlinked, List.mem_singleton, ← hid] at hmem
    rwa [List.inj_on_of_nodup_map h.ids hg' hg hmem] at hxg'
  obtain ⟨y, hy⟩ := happly
  rw [onPlan_eq hp, hy] at he
  cases he

/-- A filter that is linked to two components can join them. -/
theorem exists_joinGroups (h : Progress config q r n s.groups s.constraints) {c : Constraint}
    (hc : c ∈ s.constraints) (happ : c.Applicable r) {left right : GroupId}
    (hlinked : c.linked = [left, right]) :
    ∃ groups, joinGroups config c left right s.groups = .ok groups := by
  obtain ⟨absorbed, rest, p', hperm, hright, hp', hleft, heq⟩ :=
    joinGroups_eq config h hc hlinked
  rw [heq]
  refine (meets_modifyGroup hleft fun g hg hid e he => ?_).exists_ok
  have hg : g ∈ s.groups := hperm.mem_iff.2 (.tail _ hg)
  have habsorbed : absorbed ∈ s.groups := hperm.mem_iff.2 List.mem_cons_self
  obtain ⟨u, m, p, hp, -, hvars⟩ := h.planned hg
  obtain ⟨u', m', p'', hp'', hderiv', hvars'⟩ := h.planned habsorbed
  cases hp'.symm.trans hp''
  have hjoin : ∃ y, PlanM.exec (c.applyJoin config p') p = .ok y := by
    -- the variable lies in one of the two components, whose plan binds it
    refine happ.exists_applyJoin hderiv' fun x hx => ?_
    obtain ⟨g', hg', hmem, hxg'⟩ := happ.exists_linked (h.sound c hc) h.contains_iff hx
    rw [hlinked, List.mem_cons, List.mem_singleton, ← hid, ← hright] at hmem
    rcases hmem with hmem | hmem
    · rw [List.inj_on_of_nodup_map h.ids hg' hg hmem] at hxg'
      exact Or.inl ((hvars x).2 hxg')
    · rw [List.inj_on_of_nodup_map h.ids hg' habsorbed hmem] at hxg'
      exact Or.inr ((hvars' x).2 hxg')
  obtain ⟨y, hy⟩ := hjoin
  rw [onPlan_eq hp, hy] at he
  cases he

/-- A round of joining succeeds. -/
theorem exists_joinStep (h : Progress config q r n s.groups s.constraints)
    (happ : ∀ c ∈ s.constraints, c.Applicable r) : ∃ o, joinStep config s = .ok o := by
  unfold joinStep
  split
  · exact ⟨none, rfl⟩
  · next c target rest hpick =>
    obtain ⟨hcs, hlinks⟩ := perm_of_pick?_eq_some hpick
    have hc : c ∈ s.constraints := hcs.mem_iff.2 List.mem_cons_self
    obtain ⟨groups, hgroups⟩ := exists_applyTo h hc (happ c hc) (links?_eq_some hlinks)
    rw [hgroups]
    exact ⟨_, rfl⟩
  · next c left right rest hpick =>
    obtain ⟨hcs, hlinks⟩ := perm_of_pick?_eq_some hpick
    have hc : c ∈ s.constraints := hcs.mem_iff.2 List.mem_cons_self
    obtain ⟨groups, hgroups⟩ := exists_joinGroups h hc (happ c hc) (links?_eq_some hlinks)
    rw [hgroups]
    exact ⟨_, rfl⟩

end PlannerState

/-! ## Progress -/

namespace Point

theorem exists_step_seeding {done todo : List Component} {cs : List Constraint}
    (h : Seeding config q r done todo cs) :
    ∃ b, (seeding done todo cs).step config q r = .ok b := by
  cases todo with
  | nil => exact ⟨_, rfl⟩
  | cons g todo =>
    obtain ⟨x, hx⟩ := h.meets_seed.exists_ok
    simp only [Point.step, hx]
    exact ⟨_, rfl⟩

theorem exists_step_checking {d : Draft} {added : List String} {kept waiting : List Constraint}
    (h : Drafting config q r d (kept ++ waiting)) (hadded : added.Nodup)
    (hnew : ∀ x ∈ added, d.plan.schema.hasVariable x = true)
    (hwaiting : ∀ c ∈ waiting, c.Tracked r fun x => d.binds x && !added.contains x)
    (happ : ∀ c ∈ waiting, c.Applicable r) :
    ∃ b, (checking d added kept waiting).step config q r = .ok b := by
  cases waiting with
  | nil => exact ⟨_, rfl⟩
  | cons c waiting =>
    have hmarked : (c.markAvailable added).Tracked r d.binds :=
      Draft.tracked_markAvailable hadded hnew (hwaiting c List.mem_cons_self)
    have hsound : (c.markAvailable added).Sound d.groups :=
      (h.sound (c := c) (by simp)).markAvailable added
    have hc := happ c List.mem_cons_self
    have hc' : (c.markAvailable added).Applicable r := ⟨hc.analyzed, hc.supported, hc.registered⟩
    simp only [Point.step]
    split
    · next hready =>
      have hbound : ∀ x ∈ (c.markAvailable added).expr.names,
          d.plan.schema.hasVariable x = true := fun x hx =>
        h.bound_of_ready hsound hmarked hready.1 hready.2 (hc'.mem_vars hx)
      obtain ⟨y, hy⟩ := hc'.exists_apply config hbound
      rw [hy]
      exact ⟨_, rfl⟩
    · exact ⟨_, rfl⟩

theorem exists_step_growing {d : Draft} {cs : List Constraint} (h : Drafting config q r d cs) :
    ∃ b, (growing d cs).step config q r = .ok b := by
  obtain ⟨done, g, todo, p, remaining⟩ := d
  cases remaining with
  | nil => exact ⟨_, rfl⟩
  | cons conn conns =>
    -- the component hangs together, so a connection that is left touches the plan
    obtain ⟨used, exprs, followed, -, -, hconns, hbuild⟩ := h.planned
    have hpick := PlannerState.pick?_next?_ne_none (h.split.linked g List.mem_cons_self) hbuild
      hconns (List.cons_ne_nil _ _) h.starts
    simp only [Point.step]
    split
    · next hnone => exact absurd hnone hpick
    · next next how rest hsome =>
      obtain ⟨-, hnext⟩ := perm_of_pick?_eq_some hsome
      obtain ⟨column, hcolumn⟩ := PlannerState.next?_eq_some hnext
      simp only [Plan.exec_traverse, hcolumn]
      exact ⟨_, rfl⟩

theorem exists_step_multiplying {groups : List Component} {cs : List Constraint} {n : Nat}
    (h : Progress config q r n groups cs) :
    ∃ b, (multiplying groups cs).step config q r = .ok b := by
  match groups with
  | [] => exact ⟨_, rfl⟩
  | [g] => exact ⟨_, rfl⟩
  | first :: other :: rest =>
    obtain ⟨x, hx⟩ := (PlannerState.meets_productStep h).exists_ok
    simp only [Point.step, hx]
    exact ⟨_, rfl⟩

theorem exists_step_filtering {g : Component} {p : Plan} {cs : List Constraint} {n : Nat}
    (h : Building config r [g] q.connections q.constraints n (· ∈ g.vars) p cs)
    (hr : ∀ x, r.contains x = true ↔ x ∈ g.vars) (happ : ∀ c ∈ cs, c.Applicable r) :
    ∃ b, (filtering g p cs).step config q r = .ok b := by
  cases cs with
  | nil => exact ⟨_, rfl⟩
  | cons c cs =>
    have hc := happ c List.mem_cons_self
    have hbound : ∀ x ∈ c.expr.names, p.schema.hasVariable x = true := fun x hx =>
      (h.bound_iff x).2 ((hr x).1 (hc.registered x hx))
    obtain ⟨y, hy⟩ := hc.exists_apply config hbound
    simp only [Point.step, if_pos (h.sound c List.mem_cons_self).linked_of_singleton, hy]
    exact ⟨_, rfl⟩

/-- No point of a run gets stuck if the query is acceptable and asks for the matches only. -/
theorem Good.exists_step (hq : q.Acceptable) (hr : ∀ x, r.contains x = true ↔ q.HasName x)
    (hgroup : q.groupBy = []) (hproj : q.projection = []) (horder : q.orderBy = []) {a : Point}
    (h : a.Good config q r) : ∃ b, a.step config q r = .ok b := by
  cases h with
  | seeding h ht => exact exists_step_seeding h
  | checking h hadded hnew hkept hwaiting =>
    refine exists_step_checking h hadded hnew hwaiting fun c hc => ?_
    exact hq.applicable hr (hwaiting c hc).analyzed (h.expr_mem (List.mem_append_right _ hc))
  | growing h ht => exact exists_step_growing h
  | @joining groups cs n h ha =>
    have happ : ∀ c ∈ cs, c.Applicable r := fun c hc => hq.applicable hr (ha c hc) (h.expr_mem hc)
    obtain ⟨o, ho⟩ := PlannerState.exists_joinStep (s := ⟨r, groups, cs⟩) h happ
    simp only [Point.step, ho]
    cases o <;> exact ⟨_, rfl⟩
  | multiplying h ha => exact exists_step_multiplying h
  | @closing g cs n h ha =>
    obtain ⟨_, _, p, hp, -⟩ := h.planned (g := g) (by simp)
    simp only [Point.step, Component.takePlan, hp]
    exact ⟨_, rfl⟩
  | filtering h hg ha =>
    exact exists_step_filtering h hg fun c hc => hq.applicable hr (ha c hc) (h.expr_mem hc)
  | matched h hvars => exact ⟨_, rfl⟩
  | keying h hkeys =>
    rw [hgroup, List.suffix_nil] at hkeys
    rw [hkeys]
    exact ⟨_, rfl⟩
  | @collecting groupBy todo x h hx htodo hready =>
    -- there is nothing to collect, and the columns to group by exist
    rw [collected, hproj, horder] at htodo
    rw [List.suffix_nil.1 htodo]
    simp only [Point.step, Plan.exec_group x.aggregates h.lt_width]
    exact ⟨_, rfl⟩
  | valuing h helems hready hsort =>
    rw [hproj, List.suffix_nil] at helems
    rw [helems]
    exact ⟨_, rfl⟩
  | sorting h helems hready =>
    rw [horder, List.suffix_nil] at helems
    rw [helems]
    exact ⟨_, rfl⟩
  | ordered h =>
    simp only [Point.step, Plan.exec_project h.lt_width]
    exact ⟨_, rfl⟩
  | projected h => exact ⟨_, rfl⟩
  | finished h => exact ⟨_, rfl⟩

end Point

/-! ## Acceptance -/

theorem Expr.ScansAs.supported {scope x : String} {e : Expr} {op : Operator}
    (h : e.ScansAs scope x op) : e.Supported := by
  cases h with
  | label => simp [Expr.Supported, Expr.parts, Expr.isExcluded]
  | @comparison _ _ cmp rhs value hvalue =>
    -- the other side is a literal
    cases rhs with
    | int | decimal | str | bool => simp [Expr.Supported, Expr.parts, Expr.isExcluded]
    | _ => cases hvalue

/-- The filters that went into a plan are made of what the algebra can express. -/
theorem PatternPlan.supported {cs : List Connection} {es : List Expr} {n : Nat} {p : Plan}
    (h : PatternPlan config r cs es n p) {e : Expr} (he : e ∈ es) : e.Supported := by
  induction h with
  | scan => cases he
  | seed _ hscan =>
    rw [List.mem_singleton.1 he]
    exact hscan.supported
  | fetch _ _ ih => exact ih he
  | follow _ _ _ ih => exact ih he
  | select h ht ih =>
    rcases List.mem_cons.1 he with rfl | he
    · exact Expr.supported_of_resolve (Scope.alias?_single h.ofPattern) ht
    · exact ih he
  | join _ _ _ ht ih ih' =>
    rcases List.mem_cons.1 he with rfl | he
    · exact Expr.supported_of_resolve (Scope.alias?_pair _ _) ht
    · exact (List.mem_append.1 he).elim ih ih'
  | product _ _ _ ih ih' => exact (List.mem_append.1 he).elim ih ih'
  | perm _ _ hes ih => exact ih (hes.mem_iff.2 he)

namespace Query

/-- A query that has a plan is acceptable, whatever else it asks for. -/
theorem acceptable_of_plan {p : Plan} (h : q.plan config = .ok p) : q.Acceptable := by
  obtain ⟨groups, r, p₀, hp, -⟩ := (meets_plan config q).result h
  have hpart := eq_ok_of_outcome_eq_ok hp.outcome_eq
  obtain ⟨hpattern, hkinds⟩ := Component.partition_isOk_iff.1 ⟨groups, r, hpart⟩
  refine ⟨hpattern, hkinds, fun e he => hp.derivation.supported he, fun e he t ht x hx => ?_⟩
  have hname : x ∈ e.names := (e.mem_names_iff x).2 ⟨t, ht, hx⟩
  have hbound := hp.derivation.hasVariable_of_mem_exprNames he hname
  exact (Component.contains_iff_hasName hpart).1 ((hp.hasVariable_iff x).1 hbound)

/-- An acceptable query that asks for the matches of its pattern has a plan. -/
theorem Acceptable.exists_plan (hq : q.Acceptable) (config : Config) (hgroup : q.groupBy = [])
    (hproj : q.projection = []) (horder : q.orderBy = []) : ∃ p, q.plan config = .ok p := by
  obtain ⟨s, hs, hr⟩ := PlannerState.exists_start hq
  have hleads : Point.Leads config q s.registry _ _ := Point.leads_plan hs
  cases hplan : q.plan config with
  | ok p => exact ⟨p, rfl⟩
  | error f =>
    -- a failure is that of a point where the run is stuck, and there is no such point
    rw [hplan] at hleads
    obtain ⟨a, ha, hstuck⟩ := hleads
    obtain ⟨b, hb⟩ := (Point.good_of_visited hs ha).exists_step hq hr hgroup hproj horder
    rw [hstuck] at hb
    cases hb

/-- The order of vertices, connections and filters makes no difference. -/
theorem Acceptable.perm {q' : Query} (hq : q.Acceptable) (hvs : q.vertices.Perm q'.vertices)
    (hcs : q.connections.Perm q'.connections) (hes : q.constraints.Perm q'.constraints) :
    q'.Acceptable := by
  have hname : ∀ x, q.HasName x → q'.HasName x := by
    rintro x (⟨c, hc, hx⟩ | ⟨v, hv, hx⟩)
    · exact Or.inl ⟨c, hcs.mem_iff.1 hc, hx⟩
    · exact Or.inr ⟨v, hvs.mem_iff.1 hv, hx⟩
  refine ⟨?_, ?_, ?_, ?_⟩
  · rcases hq.pattern with ⟨c, hc⟩ | ⟨v, hv, hanon⟩
    · exact Or.inl ⟨c, hcs.mem_iff.1 hc⟩
    · exact Or.inr ⟨v, hvs.mem_iff.1 hv, hanon⟩
  · intro c hc c' hc'
    exact hq.kinds c (hcs.mem_iff.2 hc) c' (hcs.mem_iff.2 hc')
  · exact fun e he => hq.supported e (hes.mem_iff.2 he)
  · exact fun e he t ht x hx => hname x (hq.bound e (hes.mem_iff.2 he) t ht x hx)

/-- A query without grouping, projection and order has a plan exactly when it is acceptable,
whatever the configuration; the order of what is in it makes no difference. -/
theorem plan_isOk_iff_acceptable {q : Query} (hgroup : q.groupBy = []) (hproj : q.projection = [])
    (horder : q.orderBy = []) (config : Config) :
    ((∃ p, q.plan config = .ok p) ↔ q.Acceptable) ∧
      ∀ vs cs es, q.vertices.Perm vs → q.connections.Perm cs → q.constraints.Perm es →
        ((∃ p, Query.plan config { q with vertices := vs, connections := cs, constraints := es } =
          .ok p) ↔ ∃ p, q.plan config = .ok p) := by
  refine ⟨⟨fun ⟨p, hp⟩ => acceptable_of_plan hp, fun hq =>
    hq.exists_plan config hgroup hproj horder⟩, fun vs cs es hvs hcs hes => ⟨?_, ?_⟩⟩
  · rintro ⟨p, hp⟩
    exact ((acceptable_of_plan hp).perm hvs.symm hcs.symm hes.symm).exists_plan config hgroup hproj
      horder
  · rintro ⟨p, hp⟩
    exact ((acceptable_of_plan hp).perm hvs hcs hes).exists_plan config hgroup hproj horder

/-- Two components that a filter joins are accepted; an edge that is named as an end of another
connection is not. -/
theorem plan_isOk_iff_acceptable_of_joined_components :
    let a : PatternVar := ⟨"a", false⟩
    let b : PatternVar := ⟨"b", false⟩
    let c : PatternVar := ⟨"c", false⟩
    let q : Query := { Query.empty with
      vertices := [c, ⟨"_v", true⟩]
      connections := [⟨a, b, ⟨"e", false⟩⟩]
      constraints := [.binary (.compare .lt) (.prop "a" "x") (.prop "c" "y"),
        .unary .not (.hasLabel "e" "Road")] }
    let q' : Query := { q with connections := ⟨a, c, b⟩ :: q.connections }
    q.groupBy = [] ∧ q.projection = [] ∧ q.orderBy = [] ∧ q.Acceptable ∧
      (∃ p, q.plan Config.default = .ok p) ∧ ¬ ∃ p, q'.plan Config.default = .ok p := by
  intro a b c q q'
  have hq : q.Acceptable := by
    refine ⟨Or.inl ⟨_, List.mem_cons_self⟩, ?_, ?_, ?_⟩
    · simp [KindsApart, q, a, b]
    · simp [q, Expr.parts, Expr.isExcluded]
    · simp [q, a, b, c, Expr.parts, Expr.named?, HasName, Connection.names]
  have hq' : ¬ q'.Acceptable := fun h =>
    (h.kinds ⟨a, c, b⟩ List.mem_cons_self ⟨a, b, ⟨"e", false⟩⟩ (.tail _ List.mem_cons_self)).2 rfl
  refine ⟨rfl, rfl, rfl, hq, ?_, fun haccepted => hq' ?_⟩
  · exact (plan_isOk_iff_acceptable rfl rfl rfl Config.default).1.2 hq
  · exact (plan_isOk_iff_acceptable rfl rfl rfl Config.default).1.1 haccepted

end Query

end GraphPlan
