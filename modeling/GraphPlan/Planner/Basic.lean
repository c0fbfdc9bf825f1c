import GraphPlan.Algebra.Explain
import GraphPlan.Planner.Result
import GraphPlan.Planner.State
import GraphPlan.Query.Builder
import GraphPlan.Query.Json

/-!
# Planning a query

`Query.plan` turns a query into a plan of the algebra, or says at which stage and for what cause
there is none. `planText` does the same for a query in JSON.
-/

namespace GraphPlan

namespace Query

/-- The plan that finds the matches of the pattern. -/
def matchPlan (config : Config) (q : Query) : Except Failure Plan := do
  let s ← atStage .partition (PlannerState.start q)
  let s ← atStage .groupPlan (PlannerState.planGroups config s)
  let s ← atStage .constraintJoin (PlannerState.resolveJoins config s)
  let s ← atStage .crossProduct s.crossProduct
  atStage .residualConstraints (PlannerState.finish config s)

/-- The plan of a query. -/
def plan (config : Config) (q : Query) : Except Failure Plan := do
  let p ← matchPlan config q
  Plan.finish config q p

end Query

/-- The plan of a query under construction. A mistake in the construction counts as one of the
pattern. -/
def Builder.plan (config : Config) (b : Builder) : Except Failure Plan := do
  let q ← atStage .partition b.build
  Query.plan config q

end GraphPlan
