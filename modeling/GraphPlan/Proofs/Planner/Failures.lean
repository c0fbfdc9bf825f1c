import GraphPlan.Proofs.Planner.Result

/-!
# Why a query has no plan

The planner checks its own bookkeeping at every step and has an error for each way in which it could
be broken. None of them can be reached: a failure is due to the query.
-/

namespace GraphPlan

namespace PlanError

/-- An expression that cannot be resolved is never the fault of the pattern. -/
theorem IsResolution.code_ne {e : PlanError} (h : e.IsResolution) :
    e.code ≠ .unsatisfiablePattern := by
  rcases h with h | h
  · rw [h]
    exact nofun
  · cases e <;> simp [isUnresolved, code] at h ⊢

theorem IsResolution.isUnresolved {e : PlanError} (h : e.IsResolution)
    (hcode : e.code = .invalidState) : e.isUnresolved = true := by
  rcases h with h | h
  · rw [h] at hcode
    cases hcode
  · exact h

theorem exists_of_isUnresolved {e : PlanError} (h : e.isUnresolved = true) :
    (∃ x, e = .unknownName x) ∨ (∃ x a, e = .attributeMissing x a) ∨ ∃ x, e = .labelMissing x := by
  cases e <;> simp [isUnresolved] at h ⊢

end PlanError

namespace Query

variable {config : Config} {q : Query} {f : Failure}

/-- A pattern with nothing in it stops planning at once. -/
theorem plan_of_isEmptyPattern (h : Component.IsEmptyPattern q) :
    q.plan config = .error ⟨.partition, .emptyPattern⟩ := by
  have hpartition := Component.outcome_partition_of_isEmptyPattern h
  have hstart : PlannerState.start q = .error .emptyPattern := by
    unfold PlannerState.start
    unfold outcome at hpartition
    cases hp : Component.partition q .empty with
    | ok groups r => simp [hp] at hpartition
    | error e r =>
      simp only [hp, Except.error.injEq] at hpartition
      rw [hpartition]
  rw [plan, matchPlan, hstart]
  rfl

/-- Planning fails where expressions are resolved or the pattern is split. -/
theorem stage_of_failure (h : q.MatchFailure f ∨ Plan.ResultFailure f) :
    f.stage ∉ [Stage.crossProduct, .finalProjection, .slice] := by
  have hstage : f.stage ∈ [Stage.partition, .groupPlan, .constraintJoin, .residualConstraints] ∨
      f.stage ∈ [Stage.groupBy, .projection, .orderBy] := by
    rcases h with hmatch | ⟨hstage, -⟩
    · cases hmatch with
      | kindConflict | emptyPattern => exact Or.inl List.mem_cons_self
      | resolution hstage => exact Or.inl hstage
    · exact Or.inr hstage
  generalize f.stage = stage at hstage
  revert stage
  exact fun stage => by cases stage <;> decide

/-- Only a pattern with nothing in it is unsatisfiable. -/
theorem failure_of_unsatisfiable (h : q.MatchFailure f ∨ Plan.ResultFailure f)
    (hcode : f.error.code = .unsatisfiablePattern) :
    Component.IsEmptyPattern q ∧ f.stage = .partition ∧ f.error = .emptyPattern := by
  rcases h with hmatch | ⟨-, hres⟩
  · cases hmatch with
    | kindConflict hconflict =>
      obtain ⟨x, k, k', rfl⟩ := hconflict
      cases hcode
    | emptyPattern hq => exact ⟨hq, rfl, rfl⟩
    | resolution _ hres => exact absurd hcode hres.code_ne
  · exact absurd hcode hres.code_ne

/-- A state is invalid for a conflict of kinds or for an unresolved reference. -/
theorem failure_of_invalidState (h : q.MatchFailure f ∨ Plan.ResultFailure f)
    (hcode : f.error.code = .invalidState) :
    f.stage = .partition ∧ f.error.IsKindConflict ∨ f.error.isUnresolved = true := by
  rcases h with hmatch | ⟨-, hres⟩
  · cases hmatch with
    | kindConflict hconflict => exact Or.inl ⟨rfl, hconflict⟩
    | emptyPattern => cases hcode
    | resolution _ hres => exact Or.inr (hres.isUnresolved hcode)
  · exact Or.inr (hres.isUnresolved hcode)

/-- A failure of planning is one of four things: there is nothing in the pattern, a name is used for
a vertex and for an edge, a construct has no counterpart in the algebra, or a reference stands for
no column. It never arises while components are multiplied, columns are dropped or rows are cut
off. -/
theorem plan_failure_is_due_to_query (config : Config) {q : Query} {f : Failure}
    (h : q.plan config = .error f) :
    f.stage ∉ [Stage.crossProduct, .finalProjection, .slice] ∧
      (f.error.code = .unsatisfiablePattern ↔
        q.connections = [] ∧ ∀ v ∈ q.vertices, v.anonymous = true) ∧
      (f.error.code = .unsatisfiablePattern → f.stage = .partition ∧ f.error = .emptyPattern) ∧
      (f.error.code = .invalidState →
        (f.stage = .partition ∧ ∃ x k k', f.error = .kindConflict x k k') ∨
          (∃ x, f.error = .unknownName x) ∨ (∃ x a, f.error = .attributeMissing x a) ∨
            ∃ x, f.error = .labelMissing x) := by
  have hfailure := (q.meets_plan config).failure h
  refine ⟨stage_of_failure hfailure, ⟨fun hcode => ?_, fun hempty => ?_⟩, fun hcode => ?_,
    fun hcode => ?_⟩
  · exact (failure_of_unsatisfiable hfailure hcode).1
  · rw [plan_of_isEmptyPattern hempty] at h
    cases h
    rfl
  · exact (failure_of_unsatisfiable hfailure hcode).2
  · refine (failure_of_invalidState hfailure hcode).imp_right PlanError.exists_of_isUnresolved

/-- A filter on a name that the pattern does not have: the reference stands for no column. -/
theorem plan_failure_of_unknown_name :
    let q : Query := { Query.empty with
      vertices := [⟨"a", false⟩]
      constraints := [.ref "b"] }
    let f : Failure := ⟨.residualConstraints, .unknownName "b"⟩
    q.plan Config.default = .error f ∧ f.error.code = .invalidState ∧
      f.stage ∉ [Stage.crossProduct, .finalProjection, .slice] ∧
      (f.error.code = .unsatisfiablePattern ↔
        q.connections = [] ∧ ∀ v ∈ q.vertices, v.anonymous = true) ∧
      (f.error.code = .unsatisfiablePattern → f.stage = .partition ∧ f.error = .emptyPattern) ∧
      (f.error.code = .invalidState →
        (f.stage = .partition ∧ ∃ x k k', f.error = .kindConflict x k k') ∨
          (∃ x, f.error = .unknownName x) ∨ (∃ x a, f.error = .attributeMissing x a) ∨
            ∃ x, f.error = .labelMissing x) :=
  ⟨rfl, rfl, plan_failure_is_due_to_query Config.default rfl⟩

end Query

end GraphPlan
