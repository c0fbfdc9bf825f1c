import GraphPlan.Planner.Basic
import GraphPlan.Proofs.Planner.Combination

/-!
# Planning a pattern

The stages put together. `meets_matchPlan` says what planning a pattern gives: a plan with a
derivation from exactly the connections and the filters of the query, one scan per component, and
one column for every variable; and it lists the stages and causes of the failures.
-/

namespace GraphPlan

/-- Errors at a stage are errors of what happens there. -/
theorem meets_atStage {α : Type} {x : Except PlanError α} {good : α → Prop} {bad : PlanError → Prop}
    (stage : Stage) (h : x.Meets good bad) :
    (atStage stage x).Meets good (fun f => f.stage = stage ∧ bad f.error) := by
  cases x with
  | ok a => exact h
  | error e => exact ⟨rfl, h⟩

namespace PlannerState

variable {config : Config} {r : Registry} {q : Query} {s : PlannerState}

/-! ## The start -/

theorem meets_mapM_ofExpr (es : List Expr) (r : Registry) :
    (es.mapM fun e => Constraint.ofExpr e r).Meets
      (fun cs => cs.map Constraint.expr = es ∧ ∀ c ∈ cs, c.Faithful) PlanError.IsResolution := by
  induction es with
  | nil => exact ⟨rfl, nofun⟩
  | cons e es ih =>
    rw [List.mapM_cons]
    refine (Constraint.meets_ofExpr e r).bind fun c ⟨hce, hc⟩ => ?_
    refine ih.bind fun cs ⟨hcse, hcs⟩ => ?_
    refine ⟨by rw [List.map_cons, hce, hcse], fun d hd => ?_⟩
    rcases List.mem_cons.1 hd with rfl | hd
    · exact hc
    · exact hcs d hd

/-- The state before any plan is made. -/
structure Started (q : Query) (s : PlannerState) : Prop where
  /-- The components and the registry come from the partition. -/
  outcome_eq : outcome (Component.partition q) .empty = .ok (s.groups, s.registry)
  /-- What the partition guarantees. -/
  partitioned : Component.Partitioned q s.groups s.registry
  /-- The filters are those of the query. -/
  filters : s.constraints.map Constraint.expr = q.constraints
  /-- Each filter is linked to its components. -/
  sound : ∀ c ∈ s.constraints, c.Sound s.groups

theorem nodup_ids {groups : List Component} (h : (groups.map (·.id.index)).Pairwise (· < ·)) :
    (groups.map Component.id).Nodup := by
  rw [List.pairwise_map] at h
  refine List.pairwise_map.2 (h.imp fun hlt heq => ?_)
  rw [heq] at hlt
  exact Nat.lt_irrefl _ hlt

/-- Splitting the pattern fails for a reason of the partition or for an aggregate in a filter. -/
theorem meets_start (q : Query) :
    (start q).Meets (Started q) (fun e => (e.IsKindConflict ∨
      e = .emptyPattern ∧ Component.IsEmptyPattern q) ∨ e.IsResolution) := by
  have hpartition := Component.meets_partition q
  have hrun : start q = outcome (Component.partition q) .empty >>= fun x =>
      (q.constraints.mapM fun e => Constraint.ofExpr e x.2) >>= fun cs =>
        .ok ⟨x.2, x.1, cs.map (·.link x.1)⟩ := by
    unfold start outcome
    cases Component.partition q .empty <;> rfl
  rw [hrun]
  cases hx : outcome (Component.partition q) .empty with
  | error e => exact Or.inl (hpartition.failure hx)
  | ok x =>
    have hpart := hpartition.result hx
    rw [ok_bind]
    refine ((meets_mapM_ofExpr q.constraints x.2).widen fun _ => Or.inr).bind
      fun cs ⟨hexprs, hcs⟩ => ⟨hx, hpart, ?_, fun d hd => ?_⟩
    · rw [← hexprs, List.map_map]
      rfl
    · obtain ⟨c, hc, rfl⟩ := List.mem_map.1 hd
      exact (hcs c hc).link (nodup_ids hpart.ids)

/-! ## Plans of all components -/

/-- What does not depend on the plans stays the same. -/
theorem map_eq_of_setPlan {β : Type} {f : Component → β} (hf : ∀ g plan, f (g.setPlan plan) = f g)
    {gs gs' : List Component}
    (h : List.Forall₂ (fun g g' => ∃ plan, g' = g.setPlan plan) gs gs') :
    gs'.map f = gs.map f := by
  induction h with
  | nil => rfl
  | cons hg _ ih =>
    obtain ⟨plan, rfl⟩ := hg
    rw [List.map_cons, List.map_cons, hf, ih]

theorem exists_mem_of_setPlan {P : Component → Prop} (hP : ∀ g plan, P (g.setPlan plan) ↔ P g)
    {gs gs' : List Component}
    (h : List.Forall₂ (fun g g' => ∃ plan, g' = g.setPlan plan) gs gs') :
    (∃ g ∈ gs', P g) ↔ ∃ g ∈ gs, P g := by
  induction h with
  | nil => rfl
  | cons hg _ ih =>
    obtain ⟨plan, rfl⟩ := hg
    simp only [List.mem_cons, exists_eq_or_imp, hP, ih]

/-- When every component has its plan, everything is accounted for. -/
theorem meets_planGroups (h : Started q s) :
    (planGroups config s).Meets
      (fun s' => Progress config q s.registry s.groups.length s'.groups s'.constraints)
      PlanError.IsResolution := by
  have hpart := h.partitioned
  have htyped : ∀ g ∈ s.groups, ∀ c ∈ g.connections, c.Typed s.registry := by
    intro g hg c hc
    exact hpart.typed c (hpart.connections.mem_iff.1 (List.mem_flatMap.2 ⟨g, hg, hc⟩))
  have hreg : ∀ g ∈ s.groups, ∀ x ∈ g.vars, s.registry.contains x = true :=
    fun g hg x hx => (hpart.contains_iff x).2 ⟨g, hg, hx⟩
  refine (meets_groupPlans s.groups hpart.linked htyped hreg h.sound).bind
    fun x ⟨⟨used, hplanned, hused⟩, hsound, hsame⟩ => ?_
  have hids : x.1.map Component.id = s.groups.map Component.id :=
    map_eq_of_setPlan (fun _ _ => rfl) hsame
  have hvars : x.1.map Component.vars = s.groups.map Component.vars :=
    map_eq_of_setPlan (fun _ _ => rfl) hsame
  have hconns : x.1.map Component.connections = s.groups.map Component.connections :=
    map_eq_of_setPlan (fun _ _ => rfl) hsame
  refine ⟨?_, ?_, ?_, fun y => ?_, ?_, ⟨used, hplanned, ?_⟩, fun c hc => ?_⟩
  · rw [← List.length_pos_iff, ← hsame.length_eq, List.length_pos_iff]
    exact hpart.nonempty
  · rw [hids]
    exact nodup_ids hpart.ids
  · have hdisj : (x.1.map Component.vars).Pairwise fun vs ws => ∀ y ∈ vs, y ∉ ws := by
      rw [hvars]
      exact List.pairwise_map.2 hpart.disjoint
    exact List.pairwise_map.1 hdisj
  · rw [exists_mem_of_setPlan (fun _ _ => Iff.rfl) hsame]
    exact hpart.contains_iff y
  · rw [List.flatMap_def, hconns, ← List.flatMap_def]
    exact hpart.connections
  · rw [← h.filters]
    exact hused
  · exact (hsound c hc).congr fun id vars =>
      (exists_mem_of_setPlan (fun _ _ => Iff.rfl) hsame).symm

end PlannerState

namespace Query

variable {config : Config} {q : Query}

/-- What is known about the plan of a pattern: `groups` and `r` come from the partition. -/
structure Planned (config : Config) (q : Query) (groups : List Component) (r : Registry)
    (p : Plan) : Prop where
  /-- The components and the registry come from the partition. -/
  outcome_eq : outcome (Component.partition q) .empty = .ok (groups, r)
  /-- What the partition guarantees. -/
  partitioned : Component.Partitioned q groups r
  /-- The plan was built from all connections and all filters, with a scan for every component. -/
  derivation : PatternPlan config r q.connections q.constraints groups.length p
  /-- The plan binds the variables of the pattern. -/
  hasVariable_iff : ∀ x, p.schema.hasVariable x = true ↔ r.contains x = true

/-- Why the pattern of a query has no plan. -/
inductive MatchFailure (q : Query) : Failure → Prop where
  /-- A name is used for a vertex and for an edge. -/
  | kindConflict {e : PlanError} (h : e.IsKindConflict) : MatchFailure q ⟨.partition, e⟩
  /-- There is nothing in the pattern. -/
  | emptyPattern (h : Component.IsEmptyPattern q) : MatchFailure q ⟨.partition, .emptyPattern⟩
  /-- A filter cannot be resolved. -/
  | resolution {stage : Stage} {e : PlanError}
      (hstage : stage ∈ [.partition, .groupPlan, .constraintJoin, .residualConstraints])
      (h : e.IsResolution) : MatchFailure q ⟨stage, e⟩

/-- A stage that fails only to resolve a filter. -/
theorem meets_atStage_resolution {α : Type} {x : Except PlanError α} {good : α → Prop}
    {stage : Stage}
    (hstage : stage ∈ [.partition, .groupPlan, .constraintJoin, .residualConstraints])
    (h : x.Meets good PlanError.IsResolution) : (atStage stage x).Meets good (MatchFailure q) := by
  refine (meets_atStage stage h).widen ?_
  rintro ⟨_, e⟩ ⟨rfl, he⟩
  exact .resolution hstage he

/-- A pattern gets a plan, or there is a reason why not. -/
theorem meets_matchPlan (config : Config) (q : Query) :
    (matchPlan config q).Meets (fun p => ∃ groups r, q.Planned config groups r p)
      (MatchFailure q) := by
  unfold matchPlan
  refine Except.Meets.bind ((meets_atStage .partition (PlannerState.meets_start q)).widen ?_)
    fun s₀ hs₀ => ?_
  · rintro ⟨_, e⟩ ⟨rfl, (he | ⟨rfl, hempty⟩) | he⟩
    · exact .kindConflict he
    · exact .emptyPattern hempty
    · exact .resolution (by simp) he
  refine (meets_atStage_resolution (by simp) (PlannerState.meets_planGroups hs₀)).bind
    fun s₁ hs₁ => ?_
  refine (meets_atStage_resolution (by simp) (PlannerState.meets_resolveJoins hs₁)).bind
    fun s₂ hs₂ => ?_
  refine Except.Meets.bind ((meets_atStage .crossProduct
    (PlannerState.meets_crossProduct hs₂)).widen fun _ h => h.2.elim) fun s₃ ⟨hs₃, g, hg⟩ => ?_
  refine (meets_atStage_resolution (by simp) (PlannerState.meets_finish hs₃ hg)).mono
    (fun p ⟨hp, hvars⟩ => ?_) fun _ => id
  exact ⟨s₀.groups, s₀.registry, hs₀.outcome_eq, hs₀.partitioned, hp, hvars⟩

end Query

end GraphPlan
