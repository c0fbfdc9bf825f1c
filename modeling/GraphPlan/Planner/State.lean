import GraphPlan.Constraint
import GraphPlan.Planner.Traversal

/-!
# From a pattern to one plan

The components of a pattern get their plans one after the other. A plan starts from a basic filter,
or from all vertices, and grows by following one connection after the other; a filter is applied as
soon as its variables are bound. Then components are joined by the filters that touch two of them,
as long as there are any; what remains is multiplied, and the filters that are left are applied to
the one plan.

Every loop runs over a list that gets shorter by one in each round. The rounds are functions of
their own: `applyReady`, `growStep`, `joinStep` and `productStep`.
-/

namespace GraphPlan

/-- The state of planning a pattern. -/
structure PlannerState where
  /-- The variables of the pattern. -/
  registry : Registry
  /-- The components that are left. -/
  groups : List Component
  /-- The filters that have not been applied. -/
  constraints : List Constraint
deriving Inhabited

namespace PlannerState

/-- Splits the pattern of a query and links its filters to the components. -/
def start (q : Query) : Except PlanError PlannerState :=
  match Component.partition q .empty with
  | .error e _ => .error e
  | .ok groups registry => do
    let constraints ← q.constraints.mapM fun e => Constraint.ofExpr e registry
    return ⟨registry, groups, constraints.map (·.link groups)⟩

/-! ## Plans of components -/

/-- Whether a filter can start the plan of a component. -/
def canSeed (g : Component) (c : Constraint) : Bool :=
  c.isBasic && c.subject?.any g.contains

/-- Whether the only variable of a filter is an edge. -/
def onEdge (r : Registry) (c : Constraint) : Bool :=
  c.subject?.any fun name => (r.lookup name).any Variable.isEdge

/-- The first filter with a property, and the others. -/
def firstWith? (p : Constraint → Bool) (cs : List Constraint) :
    Option (Constraint × List Constraint) :=
  (pick? (fun c => if p c then some () else none) cs).map fun (c, _, rest) => (c, rest)

/-- The filter that starts the plan of a component, and the others: the first one on an edge, or
else the first one. -/
def seedFilter? (r : Registry) (g : Component) (cs : List Constraint) :
    Option (Constraint × List Constraint) :=
  (firstWith? (fun c => canSeed g c && onEdge r c) cs).or (firstWith? (canSeed g) cs)

/-- A plan of all vertices, bound to a variable. -/
def scanPlan (var : String) : Plan :=
  { Plan.seed .scanNodes with schema := Schema.empty.addVariable var }

/-- Starts the plan of a component; also gives the filters that remain. -/
def seed (config : Config) (r : Registry) (g : Component) (cs : List Constraint) :
    Except PlanError (Plan × List Constraint) :=
  match seedFilter? r g cs with
  | some (c, rest) =>
    match c.seed? config with
    | some plan => .ok (plan, rest)
    | none => .error (.cannotSeed c.expr)
  | none =>
    match g.firstNode? r with
    | some var => .ok (scanPlan var, cs)
    | none => .error (.noNode g.id)

/-- Records that variables were bound and applies every filter that is linked to this component
alone and has all its variables; gives the filters that remain. -/
def applyReady (config : Config) (g : GroupId) (added : List String) :
    List Constraint → PlanM (List Constraint)
  | [] => pure []
  | c :: cs => do
    let c := c.markAvailable added
    if c.pending = 0 ∧ c.linked = [g] then
      c.apply config
      applyReady config g added cs
    else
      let rest ← applyReady config g added cs
      return c :: rest

/-- Follows a connection and applies the filters that this makes ready. -/
def growStep (config : Config) (g : GroupId) (conn : Connection) (step : Traversal)
    (cs : List Constraint) : PlanM (List Constraint) := do
  let before := (← get).schema.vars
  Plan.traverse conn step
  let added := (← get).schema.vars.filter fun var => !before.contains var
  applyReady config g added cs

/-- Follows up to `n` connections, each time the first one that touches the plan. -/
def grow (config : Config) (g : GroupId) :
    Nat → List Connection → List Constraint → PlanM (List Constraint)
  | 0, _, cs => pure cs
  | n + 1, remaining, cs => do
    match pick? (Traversal.next? (← get).schema) remaining with
    | none => throw (.noStep g remaining)
    | some (conn, step, rest) =>
      let cs ← growStep config g conn step cs
      grow config g n rest cs

/-- The plan of a component, and the filters that remain. -/
def groupPlan (config : Config) (r : Registry) (g : Component) (cs : List Constraint) :
    Except PlanError (Plan × List Constraint) := do
  let (plan, cs) ← seed config r g cs
  let (cs, plan) ← PlanM.exec (applyReady config g.id plan.schema.vars cs) plan
  let (cs, plan) ← PlanM.exec (grow config g.id g.connections.length g.connections cs) plan
  return (plan, cs)

/-- The components with their plans, and the filters that remain. -/
def groupPlans (config : Config) (r : Registry) :
    List Component → List Constraint → Except PlanError (List Component × List Constraint)
  | [], cs => .ok ([], cs)
  | g :: gs, cs => do
    let (plan, cs) ← groupPlan config r g cs
    let (gs, cs) ← groupPlans config r gs cs
    return (g.setPlan plan :: gs, cs)

/-- Gives every component its plan. -/
def planGroups (config : Config) (s : PlannerState) : Except PlanError PlannerState := do
  let (groups, constraints) ← groupPlans config s.registry s.groups s.constraints
  return { s with groups := groups, constraints := constraints }

/-! ## Joins -/

/-- The components that a filter brings together. -/
inductive Links where
  /-- A single one. -/
  | one (g : GroupId)
  /-- Two of them. -/
  | two (left right : GroupId)
deriving DecidableEq

/-- The links of a filter, if they are one or two. -/
def links? (c : Constraint) : Option Links :=
  match c.linked with
  | [g] => some (.one g)
  | [left, right] => some (.two left right)
  | _ => none

/-- Changes the component with the given number. -/
def modifyGroup (id : GroupId) (f : Component → Except PlanError Component) :
    List Component → Except PlanError (List Component)
  | [] => .error (.groupGone id)
  | g :: gs =>
    if g.id = id then do
      let g ← f g
      return g :: gs
    else do
      let gs ← modifyGroup id f gs
      return g :: gs

/-- Changes the plan of a component. -/
def onPlan (act : PlanM Unit) (g : Component) : Except PlanError Component := do
  let (plan, g) ← g.takePlan
  let ((), plan) ← PlanM.exec act plan
  return g.setPlan plan

/-- Joins the component `right` into the component `left`, the filter being the predicate. -/
def joinGroups (config : Config) (c : Constraint) (left right : GroupId) (groups : List Component) :
    Except PlanError (List Component) :=
  match pick? (fun g : Component => if g.id = right then some () else none) groups with
  | none => .error (.groupGone right)
  | some (absorbed, _, rest) => do
    let (rightPlan, absorbed) ← absorbed.takePlan
    modifyGroup left
      (fun g => do
        let g ← onPlan (c.applyJoin config rightPlan) g
        return g.absorb absorbed)
      rest

/-- Applies the first filter that touches one or two components: to the plan of the one, or as the
predicate that joins the two. -/
def joinStep (config : Config) (s : PlannerState) : Except PlanError (Option PlannerState) :=
  match pick? links? s.constraints with
  | none => .ok none
  | some (c, .one g, rest) => do
    let groups ← modifyGroup g (onPlan (c.apply config)) s.groups
    return some { s with groups := groups, constraints := rest }
  | some (c, .two left right, rest) => do
    let groups ← joinGroups config c left right s.groups
    return some { s with
      groups := groups
      constraints := rest.map (·.replaceGroup right left) }

/-- Applies up to `n` filters as `joinStep` does. -/
def joinAtMost (config : Config) : Nat → PlannerState → Except PlanError PlannerState
  | 0, s => .ok s
  | n + 1, s => do
    match ← joinStep config s with
    | none => return s
    | some s => joinAtMost config n s

/-- Joins components as long as a filter touches one or two of them. Every round applies a filter.
-/
def resolveJoins (config : Config) (s : PlannerState) : Except PlanError PlannerState :=
  joinAtMost config s.constraints.length s

/-! ## Products -/

/-- Multiplies a plan with another one. -/
def multiply (other : Plan) : PlanM Unit := do
  PlanM.onSchema (Schema.append other.schema)
  modify (·.combine .product other.root)

/-- Multiplies the first component with another one, which it absorbs. -/
def productStep (first other : Component) (cs : List Constraint) :
    Except PlanError (Component × List Constraint) := do
  let (plan, first) ← first.takePlan
  let (otherPlan, other) ← other.takePlan
  let ((), plan) ← PlanM.exec (multiply otherPlan) plan
  return ((first.setPlan plan).absorb other, cs.map (·.replaceGroup other.id first.id))

/-- Multiplies the first component with all others. -/
def products (first : Component) :
    List Component → List Constraint → Except PlanError (Component × List Constraint)
  | [], cs => .ok (first, cs)
  | other :: rest, cs => do
    let (first, cs) ← productStep first other cs
    products first rest cs

/-- Multiplies all components into the first one. -/
def crossProduct (s : PlannerState) : Except PlanError PlannerState :=
  match s.groups with
  | [] => .ok s
  | first :: rest => do
    let (first, constraints) ← products first rest s.constraints
    return { s with groups := [first], constraints := constraints }

/-! ## Remaining filters -/

/-- Applies filters that are linked to nothing or to the last component. -/
def applyResidual (config : Config) (g : GroupId) : List Constraint → PlanM Unit
  | [] => pure ()
  | c :: cs => do
    if c.linked = [] ∨ c.linked = [g] then
      c.apply config
      applyResidual config g cs
    else
      throw (.stillLinked c.expr c.linked)

/-- Applies all filters that are left to the plan of the last component. -/
def finish (config : Config) (s : PlannerState) : Except PlanError Plan :=
  match s.groups with
  | [g] => do
    let (plan, g) ← g.takePlan
    let ((), plan) ← PlanM.exec (applyResidual config g.id s.constraints) plan
    return plan
  | groups => .error (.groupsLeft groups.length)

end PlannerState

end GraphPlan
