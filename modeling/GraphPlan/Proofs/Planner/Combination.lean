import GraphPlan.Proofs.Planner.Growth

/-!
# Combining the plans of components

Once every component has its plan, joins and products merge the components one by one. `Progress` is
the invariant of the planner from there on: every connection and every filter of the query is
accounted for, either in a plan or in the list of what remains, and the links of the filters lead to
components that exist. One merge keeps it (`Progress.merge`), and with it the bookkeeping cannot
fail: the only errors are those of resolving a filter.
-/

namespace GraphPlan

variable {config : Config} {r : Registry} {q : Query} {n : Nat} {s : PlannerState}

/-! ## Plans of several components -/

namespace PlannedAll

/-- The order of the components makes no difference. -/
theorem perm {gs gs' : List Component} {used : List Expr} (h : PlannedAll config r gs used n)
    (hgs : gs.Perm gs') : ∃ used', used'.Perm used ∧ PlannedAll config r gs' used' n := by
  induction hgs generalizing used n with
  | nil => exact ⟨used, List.Perm.refl _, h⟩
  | cons g hperm ih =>
    cases h with
    | cons hg hgs =>
      obtain ⟨used', hused, hgs'⟩ := ih hgs
      exact ⟨_, hused.append_left _, .cons hg hgs'⟩
  | swap g g' gs =>
    cases h with
    | @cons _ _ u _ m _ hg hgs =>
      cases hgs with
      | @cons _ _ u' us m' ms hg' hgs =>
        refine ⟨u' ++ (u ++ us), ?_, ?_⟩
        · rw [← List.append_assoc, ← List.append_assoc]
          exact List.perm_append_comm.append_right us
        · rw [Nat.add_left_comm]
          exact .cons hg' (.cons hg hgs)
  | trans _ _ ih ih' =>
    obtain ⟨used', hused, h'⟩ := ih h
    obtain ⟨used'', hused', h''⟩ := ih' h'
    exact ⟨used'', hused'.trans hused, h''⟩

theorem of_mem {gs : List Component} {used : List Expr} (h : PlannedAll config r gs used n)
    {g : Component} (hg : g ∈ gs) : ∃ u m, g.Planned config r u m := by
  induction h with
  | nil => cases hg
  | cons hplanned _ ih =>
    rcases List.mem_cons.1 hg with rfl | hg
    · exact ⟨_, _, hplanned⟩
    · exact ih hg

theorem single {g : Component} {used : List Expr} (h : PlannedAll config r [g] used n) :
    g.Planned config r used n := by
  cases h with
  | cons hg hnil =>
    cases hnil
    rw [List.append_nil, Nat.add_zero]
    exact hg

/-- Two components become one, and their plans one with further filters. -/
theorem merge {left right merged : Component} {rest : List Component} {used extra : List Expr}
    (h : PlannedAll config r (left :: right :: rest) used n)
    (hmerged : ∀ u u' m m', left.Planned config r u m → right.Planned config r u' m' →
      merged.Planned config r (extra ++ (u ++ u')) (m + m')) :
    PlannedAll config r (merged :: rest) (extra ++ used) n := by
  cases h with
  | @cons _ _ u _ m _ hleft hrest =>
    cases hrest with
    | @cons _ _ u' us m' ms hright hrest =>
      have hall := PlannedAll.cons (hmerged u u' m m' hleft hright) hrest
      simpa only [List.append_assoc, Nat.add_assoc] using hall

end PlannedAll

/-! ## The invariant -/

/-- What holds of the planner once all components have plans: `n` is the number of scans. -/
structure Progress (config : Config) (q : Query) (r : Registry) (n : Nat)
    (groups : List Component) (cs : List Constraint) : Prop where
  /-- There is a component. -/
  nonempty : groups ≠ []
  /-- The components have different numbers. -/
  ids : (groups.map Component.id).Nodup
  /-- No variable belongs to two components. -/
  disjoint : groups.Pairwise fun g g' => ∀ x ∈ g.vars, x ∉ g'.vars
  /-- Every variable belongs to a component. -/
  contains_iff : ∀ x, r.contains x = true ↔ ∃ g ∈ groups, x ∈ g.vars
  /-- Every connection belongs to a component. -/
  connections : (groups.flatMap Component.connections).Perm q.connections
  /-- Every filter is in a plan or remains. -/
  filters : ∃ used, PlannedAll config r groups used n ∧
    (used ++ cs.map Constraint.expr).Perm q.constraints
  /-- The links of what remains are right. -/
  sound : ∀ c ∈ cs, c.Sound groups

namespace Progress

variable {groups : List Component} {cs : List Constraint}

theorem planned (h : Progress config q r n groups cs) {g : Component} (hg : g ∈ groups) :
    ∃ u m, g.Planned config r u m := by
  obtain ⟨used, hplanned, -⟩ := h.filters
  exact hplanned.of_mem hg

/-- The order of components and filters makes no difference. -/
theorem congr (h : Progress config q r n groups cs) {groups' : List Component}
    {cs' : List Constraint} (hgroups : groups.Perm groups') (hcs : cs.Perm cs') :
    Progress config q r n groups' cs' where
  nonempty := by
    rintro rfl
    exact h.nonempty hgroups.eq_nil
  ids := (hgroups.map _).nodup_iff.1 h.ids
  disjoint := by
    refine (hgroups.pairwise_iff ?_).1 h.disjoint
    exact fun hdisj x hx hx' => hdisj x hx' hx
  contains_iff := by
    intro x
    rw [h.contains_iff]
    simp only [hgroups.mem_iff]
  connections := (hgroups.flatMap_right _).symm.trans h.connections
  filters := by
    obtain ⟨used, hplanned, hused⟩ := h.filters
    obtain ⟨used', hperm, hplanned'⟩ := hplanned.perm hgroups
    exact ⟨used', hplanned', (hperm.append (hcs.map _).symm).trans hused⟩
  sound := by
    intro c hc
    refine (h.sound c (hcs.mem_iff.2 hc)).congr fun id vars => ?_
    simp only [hgroups.mem_iff]

/-- A filter was applied to the plan of one component. -/
theorem update {g g' : Component} {rest : List Component} {c : Constraint} {cs : List Constraint}
    (h : Progress config q r n (g :: rest) (c :: cs)) (hid : g'.id = g.id)
    (hvars : g'.vars = g.vars) (hconns : g'.connections = g.connections)
    (hplanned : ∀ u m, g.Planned config r u m → g'.Planned config r (c.expr :: u) m) :
    Progress config q r n (g' :: rest) cs where
  nonempty := List.cons_ne_nil _ _
  ids := by simpa only [List.map_cons, hid] using h.ids
  disjoint := by simpa only [List.pairwise_cons, hvars] using h.disjoint
  contains_iff := by simpa only [List.mem_cons, exists_eq_or_imp, hvars] using h.contains_iff
  connections := by simpa only [List.flatMap_cons, hconns] using h.connections
  filters := by
    obtain ⟨used, hall, hused⟩ := h.filters
    cases hall with
    | @cons _ _ u us m ms hg hrest =>
      refine ⟨(c.expr :: u) ++ us, .cons (hplanned u m hg) hrest, ?_⟩
      exact List.perm_middle.symm.trans hused
  sound := by
    intro d hd
    refine (h.sound d (.tail c hd)).congr fun id vars => ?_
    simp only [List.mem_cons, exists_eq_or_imp, hid, hvars]

/-- A component took in another one, and their plans were combined. -/
theorem merge {left right merged : Component} {rest : List Component} {cs : List Constraint}
    (extra : List Constraint)
    (h : Progress config q r n (left :: right :: rest) (extra ++ cs)) (hid : merged.id = left.id)
    (hvars : ∀ x, x ∈ merged.vars ↔ x ∈ left.vars ∨ x ∈ right.vars)
    (hconns : merged.connections = left.connections ++ right.connections)
    (hplanned : ∀ u u' m m', left.Planned config r u m → right.Planned config r u' m' →
      merged.Planned config r (extra.map Constraint.expr ++ (u ++ u')) (m + m')) :
    Progress config q r n (merged :: rest) (cs.map (·.replaceGroup right.id left.id)) where
  nonempty := List.cons_ne_nil _ _
  ids := by
    have hids := h.ids
    simp only [List.map_cons, List.nodup_cons, List.mem_cons, not_or] at hids ⊢
    rw [hid]
    exact ⟨hids.1.2, hids.2.2⟩
  disjoint := by
    have hdisj := h.disjoint
    simp only [List.pairwise_cons, List.mem_cons, forall_eq_or_imp] at hdisj ⊢
    refine ⟨fun g hg x hx => ?_, hdisj.2.2⟩
    rcases (hvars x).1 hx with hx | hx
    · exact hdisj.1.2 g hg x hx
    · exact hdisj.2.1 g hg x hx
  contains_iff := by
    intro x
    rw [h.contains_iff]
    simp only [List.mem_cons, exists_eq_or_imp, hvars, or_assoc]
  connections := by
    have hperm := h.connections
    rw [List.flatMap_cons, hconns, List.append_assoc]
    rwa [List.flatMap_cons, List.flatMap_cons] at hperm
  filters := by
    obtain ⟨used, hall, hused⟩ := h.filters
    refine ⟨extra.map Constraint.expr ++ used, hall.merge hplanned, List.Perm.trans ?_ hused⟩
    have hexprs : (cs.map (·.replaceGroup right.id left.id)).map Constraint.expr =
        cs.map Constraint.expr := by
      rw [List.map_map]
      rfl
    rw [hexprs, List.map_append, List.append_assoc]
    exact List.perm_append_comm_assoc _ _ _
  sound := by
    intro d hd
    obtain ⟨c, hc, rfl⟩ := List.mem_map.1 hd
    exact (h.sound c (List.mem_append_right _ hc)).replaceGroup (List.Perm.refl _) h.ids hid hvars
      (List.Perm.refl _)

end Progress

/-! ## Joins -/

namespace Constraint

theorem exec_applyJoin {c : Constraint} {p p' : Plan}
    (hp' : (p'.fetch config.attributeScope c.usage).schema.OfPattern) :
    PlanM.exec (c.applyJoin config p') p =
      (c.expr.resolve ⟨(p.fetch config.attributeScope c.usage).schema,
          some (p'.fetch config.attributeScope c.usage).schema⟩ >>= fun t =>
        .ok ((), (p.fetch config.attributeScope c.usage).beside
          (p'.fetch config.attributeScope c.usage) (.join t config.joinType))) := by
  simp only [applyJoin, PlanM.exec_bind, PlanM.exec_modify, PlanM.exec_get, PlanM.exec_ofExcept,
    PlanM.exec_onSchema, outcome, hp'.append_eq_ok, ok_bind]
  cases c.expr.resolve ⟨(p.fetch config.attributeScope c.usage).schema,
    some (p'.fetch config.attributeScope c.usage).schema⟩ <;> rfl

/-- A filter joins two plans over different variables. -/
theorem meets_applyJoin {c : Constraint} (hc : c.expr.aggregatesRead = []) {p p' : Plan}
    {conns conns' : List Connection} {u u' : List Expr} {m m' : Nat}
    (hp : PatternPlan config r conns u m p) (hp' : PatternPlan config r conns' u' m' p')
    (hdisj : ∀ x, p.schema.hasVariable x = true → p'.schema.hasVariable x = false) :
    (PlanM.exec (c.applyJoin config p') p).Meets
      (fun x => PatternPlan config r (conns ++ conns') (c.expr :: (u ++ u')) (m + m') x.2 ∧
        ∀ y, x.2.schema.hasVariable y = true ↔
          p.schema.hasVariable y = true ∨ p'.schema.hasVariable y = true)
      PlanError.IsResolution := by
  obtain ⟨hf, hvars⟩ := hp.fetches (Plan.fetches_fetch config.attributeScope c.usage p)
  obtain ⟨hf', hvars'⟩ := hp'.fetches (Plan.fetches_fetch config.attributeScope c.usage p')
  rw [exec_applyJoin hf'.ofPattern]
  have hresolve := Expr.meets_resolve (Scope.valid_pair hf.ofPattern.valid hf'.ofPattern.valid)
    c.expr (by rw [hc]; exact nofun)
  cases ht : c.expr.resolve ⟨(p.fetch config.attributeScope c.usage).schema,
      some (p'.fetch config.attributeScope c.usage).schema⟩ with
  | error e => exact hresolve.failure ht
  | ok t =>
    refine ⟨hf.join hf' (fun x hx => ?_) ht, fun y => ?_⟩
    · rw [← Bool.not_eq_true, hvars', Bool.not_eq_true]
      exact hdisj x ((hvars x).1 hx)
    · rw [← hvars, ← hvars']
      exact hf.hasVariable_beside hf' _ y

end Constraint

namespace PlannerState

/-- Changing a component that is there changes this one only. -/
theorem meets_modifyGroup {id : GroupId} {f : Component → Except PlanError Component}
    {gs : List Component} {bad : PlanError → Prop} (hid : ∃ g ∈ gs, g.id = id)
    (hf : ∀ g ∈ gs, g.id = id → ∀ e, f g = .error e → bad e) :
    (modifyGroup id f gs).Meets
      (fun gs' => ∃ g g' rest, gs.Perm (g :: rest) ∧ g.id = id ∧ f g = .ok g' ∧
        gs'.Perm (g' :: rest)) bad := by
  induction gs with
  | nil =>
    obtain ⟨g, hg, -⟩ := hid
    cases hg
  | cons g gs ih =>
    rw [modifyGroup]
    split
    · next hg =>
      cases hfg : f g with
      | error e => exact hf g (.head _) hg e hfg
      | ok g' => exact ⟨g, g', gs, List.Perm.refl _, hg, hfg, List.Perm.refl _⟩
    · next hne =>
      have hid' : ∃ g ∈ gs, g.id = id := by
        obtain ⟨g', hg', hid⟩ := hid
        rcases List.mem_cons.1 hg' with rfl | hg'
        · exact absurd hid hne
        · exact ⟨g', hg', hid⟩
      refine (ih hid' fun g hg => hf g (.tail _ hg)).bind ?_
      rintro gs' ⟨h, h', rest, hperm, hh, hfh, hperm'⟩
      refine ⟨h, h', g :: rest, ?_, hh, hfh, ?_⟩
      · exact (hperm.cons g).trans (List.Perm.swap h g rest)
      · exact (hperm'.cons g).trans (List.Perm.swap h' g rest)

theorem onPlan_eq {act : PlanM Unit} {g : Component} {p : Plan} (h : g.plan = some p) :
    onPlan act g = PlanM.exec act p >>= fun x => .ok (g.setPlan x.2) := by
  rw [onPlan, Component.takePlan, h]
  rfl

/-- Applying a filter to the plan of a component. -/
theorem meets_onPlan_apply {g : Component} {groups : List Component} {c : Constraint}
    (hc : c.Sound groups) {u : List Expr} {m : Nat} (hg : g.Planned config r u m) :
    (onPlan (c.apply config) g).Meets
      (fun g' => (∃ plan, g' = g.setPlan plan) ∧ g'.Planned config r (c.expr :: u) m)
      PlanError.IsResolution := by
  obtain ⟨p, hp, hderiv, hvars⟩ := hg
  have hbuilding : Building config r groups g.connections (c.expr :: u) m (· ∈ g.vars) p [c] := by
    refine ⟨⟨u, hderiv, ?_⟩, hvars, by simpa using hc⟩
    exact List.perm_append_comm
  rw [onPlan_eq hp]
  refine (Constraint.meets_apply hbuilding).bind fun x hx =>
    ⟨⟨x.2, rfl⟩, x.2, rfl, ?_, hx.bound_iff⟩
  obtain ⟨used, hused, hperm⟩ := hx.derivation
  rw [List.map_nil, List.append_nil] at hperm
  exact hused.perm (List.Perm.refl _) hperm

/-- What a component becomes when it takes in another one, their plans being joined by a filter. -/
theorem meets_join {left right : Component} {c : Constraint} (hc : c.expr.aggregatesRead = [])
    {u u' : List Expr} {m m' : Nat} {p' : Plan} (hright : right.plan = some p')
    (hl : left.Planned config r u m) (hr : right.Planned config r u' m')
    (hdisj : ∀ x ∈ left.vars, x ∉ right.vars) :
    (onPlan (c.applyJoin config p') left >>= fun g =>
        .ok (g.absorb { right with plan := none })).Meets
      (fun merged => merged.id = left.id ∧
        (∀ x, x ∈ merged.vars ↔ x ∈ left.vars ∨ x ∈ right.vars) ∧
        merged.connections = left.connections ++ right.connections ∧
        merged.Planned config r (c.expr :: (u ++ u')) (m + m')) PlanError.IsResolution := by
  obtain ⟨p, hp, hderiv, hvars⟩ := hl
  obtain ⟨p'', hp'', hderiv', hvars'⟩ := hr
  cases hright.symm.trans hp''
  have hdisj' : ∀ x, p.schema.hasVariable x = true → p'.schema.hasVariable x = false := by
    intro x hx
    rw [← Bool.not_eq_true, hvars']
    exact hdisj x ((hvars x).1 hx)
  rw [onPlan_eq hp]
  have hjoin := Constraint.meets_applyJoin hc hderiv hderiv' hdisj'
  cases hx : PlanM.exec (c.applyJoin config p') p with
  | error e => exact hjoin.failure hx
  | ok x =>
    obtain ⟨hplan, hbound⟩ := hjoin.result hx
    refine ⟨rfl, fun y => Component.mem_vars_absorb, rfl, x.2, rfl, hplan, fun y => ?_⟩
    rw [hbound, hvars, hvars']
    exact Component.mem_vars_absorb.symm

/-- A filter joins a component into another one that comes with it. -/
theorem meets_joinInto {c : Constraint} {cs : List Constraint} {absorbed : Component}
    {rest : List Component} {p' : Plan} {left : GroupId}
    (h : Progress config q r n (absorbed :: rest) (c :: cs)) (hp' : absorbed.plan = some p')
    (hleft : ∃ g ∈ rest, g.id = left) :
    (modifyGroup left (fun g => onPlan (c.applyJoin config p') g >>= fun g =>
        .ok (g.absorb { absorbed with plan := none })) rest).Meets
      (fun groups => Progress config q r n groups (cs.map (·.replaceGroup absorbed.id left)))
      PlanError.IsResolution := by
  have hc := h.sound c List.mem_cons_self
  have hdisj : ∀ g ∈ rest, ∀ x ∈ g.vars, x ∉ absorbed.vars := fun g hg x hx hx' =>
    (List.pairwise_cons.1 h.disjoint).1 g hg x hx' hx
  obtain ⟨u', m', hplanned'⟩ := h.planned List.mem_cons_self
  refine (meets_modifyGroup hleft fun g hg _ e he => ?_).mono ?_ fun _ => id
  · obtain ⟨u, m, hplanned⟩ := h.planned (.tail _ hg)
    exact (meets_join hc.aggregates hp' hplanned hplanned' (hdisj g hg)).failure he
  · rintro groups ⟨g, merged, rest', hrest, rfl, hmerged, hgroups⟩
    have hg : g ∈ rest := hrest.mem_iff.2 List.mem_cons_self
    have hjoin : ∀ u u' m m', g.Planned config r u m → absorbed.Planned config r u' m' → _ :=
      fun u u' m m' hu hu' => (meets_join hc.aggregates hp' hu hu' (hdisj g hg)).result hmerged
    obtain ⟨u, m, hplanned⟩ := h.planned (.tail _ hg)
    obtain ⟨hid, hvars, hconns, -⟩ := hjoin u u' m m' hplanned hplanned'
    have hall : (absorbed :: rest).Perm (g :: absorbed :: rest') :=
      (hrest.cons absorbed).trans (List.Perm.swap g absorbed rest')
    have hmerge := (h.congr hall (List.Perm.refl _)).merge [c] hid hvars hconns
      fun u u' m m' hu hu' => (hjoin u u' m m' hu hu').2.2.2
    exact hmerge.congr hgroups.symm (List.Perm.refl _)

/-- A filter that touches two components finds them both. -/
theorem joinGroups_eq (config : Config) {c : Constraint} {left right : GroupId}
    (h : Progress config q r n s.groups s.constraints) (hc : c ∈ s.constraints)
    (hlinked : c.linked = [left, right]) :
    ∃ absorbed rest p', s.groups.Perm (absorbed :: rest) ∧ absorbed.id = right ∧
      absorbed.plan = some p' ∧ (∃ g ∈ rest, g.id = left) ∧
      joinGroups config c left right s.groups =
        modifyGroup left (fun g => onPlan (c.applyJoin config p') g >>= fun g =>
          .ok (g.absorb { absorbed with plan := none })) rest := by
  have hsound := h.sound c hc
  have hnodup := hsound.nodup
  rw [hlinked, List.nodup_cons, List.mem_singleton] at hnodup
  obtain ⟨gl, hgl, hleft, -⟩ := (hsound.mem_linked left).1 (by simp [hlinked])
  obtain ⟨gr, hgr, hright, -⟩ := (hsound.mem_linked right).1 (by simp [hlinked])
  unfold joinGroups
  split
  · next hnone =>
    have := pick?_eq_none_iff.1 hnone gr hgr
    simp [hright] at this
  · next absorbed u rest hpick =>
    obtain ⟨hperm, htest⟩ := perm_of_pick?_eq_some hpick
    have hid : absorbed.id = right := by
      by_contra hne
      simp [hne] at htest
    obtain ⟨_, _, p', hp', -⟩ := h.planned (hperm.mem_iff.2 List.mem_cons_self)
    have hmem : ∃ g ∈ rest, g.id = left := by
      rcases List.mem_cons.1 (hperm.mem_iff.1 hgl) with rfl | hgl
      · exact absurd (hleft.symm.trans hid) hnodup.1
      · exact ⟨gl, hgl, hleft⟩
    refine ⟨absorbed, rest, p', hperm, hid, hp', hmem, ?_⟩
    rw [Component.takePlan, hp', ok_bind]
    rfl

/-- A filter that touches two components joins them. -/
theorem meets_joinGroups {c : Constraint} {cs : List Constraint} {left right : GroupId}
    (h : Progress config q r n s.groups s.constraints) (hcs : s.constraints.Perm (c :: cs))
    (hlinked : c.linked = [left, right]) :
    (joinGroups config c left right s.groups).Meets
      (fun groups => Progress config q r n groups (cs.map (·.replaceGroup right left)))
      PlanError.IsResolution := by
  obtain ⟨absorbed, rest, p', hperm, rfl, hp', hleft, heq⟩ :=
    joinGroups_eq config h (hcs.mem_iff.2 List.mem_cons_self) hlinked
  rw [heq]
  exact meets_joinInto (h.congr hperm hcs) hp' hleft

theorem links?_eq_some {c : Constraint} {links : Links} (h : links? c = some links) :
    c.linked = match links with
      | .one g => [g]
      | .two left right => [left, right] := by
  unfold links? at h
  split at h
  · next hlinked =>
    cases h
    exact hlinked
  · next hlinked =>
    cases h
    exact hlinked
  · cases h

/-- A filter that touches one component is applied to its plan. -/
theorem meets_applyTo {c : Constraint} {cs : List Constraint} {target : GroupId}
    (h : Progress config q r n s.groups s.constraints) (hcs : s.constraints.Perm (c :: cs))
    (hlinked : c.linked = [target]) :
    (modifyGroup target (onPlan (c.apply config)) s.groups).Meets
      (fun groups => Progress config q r n groups cs) PlanError.IsResolution := by
  have hc := h.sound c (hcs.mem_iff.2 List.mem_cons_self)
  obtain ⟨g, hg, hid, -⟩ := (hc.mem_linked target).1 (by simp [hlinked])
  refine (meets_modifyGroup ⟨g, hg, hid⟩ fun g hg _ e he => ?_).mono ?_ fun _ => id
  · obtain ⟨u, m, hplanned⟩ := h.planned hg
    exact (meets_onPlan_apply hc hplanned).failure he
  · rintro groups ⟨g, g', rest, hperm, -, hg', hgroups⟩
    have hupdate : ∀ u m, g.Planned config r u m → _ := fun u m hplanned =>
      (meets_onPlan_apply hc hplanned).result hg'
    obtain ⟨u, m, hplanned⟩ := h.planned (hperm.mem_iff.2 List.mem_cons_self)
    obtain ⟨⟨plan, rfl⟩, -⟩ := hupdate u m hplanned
    have hnext : Progress config q r n (g.setPlan plan :: rest) cs :=
      (h.congr hperm hcs).update rfl rfl rfl fun u m hplanned => (hupdate u m hplanned).2
    exact hnext.congr hgroups.symm (List.Perm.refl _)

/-- One round of joining. -/
theorem meets_joinStep (h : Progress config q r n s.groups s.constraints) :
    (joinStep config s).Meets
      (fun o => ∀ s', o = some s' → Progress config q r n s'.groups s'.constraints)
      PlanError.IsResolution := by
  unfold joinStep
  split
  · exact nofun
  · next c target rest hpick =>
    obtain ⟨hcs, hlinks⟩ := perm_of_pick?_eq_some hpick
    exact (meets_applyTo h hcs (links?_eq_some hlinks)).bind
      fun groups hgroups s' hs' => by cases hs'; exact hgroups
  · next c left right rest hpick =>
    obtain ⟨hcs, hlinks⟩ := perm_of_pick?_eq_some hpick
    exact (meets_joinGroups h hcs (links?_eq_some hlinks)).bind
      fun groups hgroups s' hs' => by cases hs'; exact hgroups

/-- All rounds of joining. -/
theorem meets_resolveJoins (h : Progress config q r n s.groups s.constraints) :
    (resolveJoins config s).Meets (fun s' => Progress config q r n s'.groups s'.constraints)
      PlanError.IsResolution := by
  unfold resolveJoins
  induction s.constraints.length generalizing s with
  | zero => exact h
  | succ k ih =>
    refine (meets_joinStep h).bind fun o ho => ?_
    cases o with
    | none => exact h
    | some s' => exact ih (ho s' rfl)

/-! ## Products -/

/-- Multiplying two components, of which the first takes in the second. -/
theorem meets_productStep {first other : Component} {rest : List Component}
    {cs : List Constraint} (h : Progress config q r n (first :: other :: rest) cs) :
    (productStep first other cs).Meets
      (fun x => Progress config q r n (x.1 :: rest) x.2) (fun _ => False) := by
  obtain ⟨u, m, p, hp, hderiv, hvars⟩ := h.planned (g := first) (by simp)
  obtain ⟨u', m', p', hp', hderiv', hvars'⟩ := h.planned (g := other) (by simp)
  have hdisj : ∀ x, p.schema.hasVariable x = true → p'.schema.hasVariable x = false := by
    intro x hx
    rw [← Bool.not_eq_true, hvars']
    exact (List.pairwise_cons.1 h.disjoint).1 other (by simp) x ((hvars x).1 hx)
  have hexec : PlanM.exec (multiply p') p = .ok ((), p.beside p' .product) := by
    simp only [multiply, PlanM.exec_bind, PlanM.exec_onSchema, outcome,
      hderiv'.ofPattern.append_eq_ok, ok_bind, PlanM.exec_modify]
    rfl
  rw [productStep, Component.takePlan, hp, ok_bind]
  simp only [Component.takePlan, hp', ok_bind, hexec]
  refine h.merge [] rfl (fun x => Component.mem_vars_absorb) rfl ?_
  rintro u u' m m' ⟨p₁, hp₁, hderiv, -⟩ ⟨p₂, hp₂, hderiv', -⟩
  cases hp.symm.trans hp₁
  cases hp'.symm.trans hp₂
  refine ⟨_, rfl, hderiv.product hderiv' hdisj, fun x => ?_⟩
  rw [hderiv.hasVariable_beside hderiv', hvars, hvars']
  exact Component.mem_vars_absorb.symm

theorem meets_products {first : Component} {rest : List Component} {cs : List Constraint}
    (h : Progress config q r n (first :: rest) cs) :
    (products first rest cs).Meets (fun x => Progress config q r n [x.1] x.2)
      (fun _ => False) := by
  induction rest generalizing first cs with
  | nil => exact h
  | cons other rest ih => exact (meets_productStep h).bind fun x hx => ih hx

/-- All components become one. -/
theorem meets_crossProduct (h : Progress config q r n s.groups s.constraints) :
    (s.crossProduct).Meets
      (fun s' => Progress config q r n s'.groups s'.constraints ∧ ∃ g, s'.groups = [g])
      (fun _ => False) := by
  unfold crossProduct
  split
  · next hnil => exact absurd hnil h.nonempty
  · next first rest hgroups =>
    have h' : Progress config q r n (first :: rest) s.constraints :=
      h.congr (by rw [hgroups]) (List.Perm.refl _)
    exact (meets_products h').bind fun x hx => ⟨hx, x.1, rfl⟩

/-! ## Remaining filters -/

theorem meets_applyResidual {g : Component} {conns : List Connection} {exprs : List Expr}
    {bound : String → Prop} {p : Plan} {cs : List Constraint}
    (h : Building config r [g] conns exprs n bound p cs) :
    (PlanM.exec (applyResidual config g.id cs) p).Meets
      (fun x => Building config r [g] conns exprs n bound x.2 []) PlanError.IsResolution := by
  induction cs generalizing p with
  | nil => exact h
  | cons c cs ih =>
    rw [applyResidual, if_pos (h.sound c List.mem_cons_self).linked_of_singleton, PlanM.exec_bind]
    exact (Constraint.meets_apply h).bind fun x hx => ih hx

/-- In the end there is one plan, made of all connections and all filters. -/
theorem meets_finish (h : Progress config q r n s.groups s.constraints) {g : Component}
    (hg : s.groups = [g]) :
    (finish config s).Meets
      (fun p => PatternPlan config r q.connections q.constraints n p ∧
        ∀ x, p.schema.hasVariable x = true ↔ r.contains x = true)
      PlanError.IsResolution := by
  obtain ⟨used, hplanned, hused⟩ := h.filters
  have hconns := h.connections
  have hcontains := h.contains_iff
  have hsound := h.sound
  rw [hg] at hplanned hconns hcontains hsound
  obtain ⟨p, hp, hderiv, hvars⟩ := hplanned.single
  simp only [List.flatMap_cons, List.flatMap_nil, List.append_nil] at hconns
  have hbuilding : Building config r [g] q.connections q.constraints n (· ∈ g.vars) p
      s.constraints :=
    ⟨⟨used, hderiv.perm hconns (List.Perm.refl _), hused⟩, hvars, hsound⟩
  unfold finish
  rw [hg]
  simp only [Component.takePlan, hp, ok_bind]
  refine (meets_applyResidual hbuilding).bind fun x hx => ?_
  obtain ⟨used', hx', hused'⟩ := hx.derivation
  rw [List.map_nil, List.append_nil] at hused'
  refine ⟨hx'.perm (List.Perm.refl _) hused', fun y => ?_⟩
  rw [hx.bound_iff, hcontains]
  simp

end PlannerState

end GraphPlan
