import GraphPlan.Pattern.Registry
import GraphPlan.Pick
import GraphPlan.Plan.Basic

/-!
# Connected components of a pattern

Connections that share a variable belong together. Each connection starts as a component of its own;
two components that share a variable are merged as long as there are any. A named vertex that no
connection mentions is a component by itself. Components are planned one by one and then combined.
-/

namespace GraphPlan

/-- A connected part of the pattern, with its plan once it has one. -/
structure Component where
  /-- The number of the component. -/
  id : GroupId
  /-- Its connections. -/
  connections : List Connection
  /-- Its variables, in the order in which they were first seen. -/
  vars : List String
  /-- Its plan. -/
  plan : Option Plan
deriving Inhabited

namespace Component

/-- Adds names that are not listed yet. -/
def addNames (known : List String) (names : List String) : List String :=
  names.foldl (fun known name => if known.contains name then known else known ++ [name]) known

/-- Adding names keeps all and only the names of both lists. -/
theorem mem_addNames {x : String} {known names : List String} :
    x ∈ addNames known names ↔ x ∈ known ∨ x ∈ names := by
  induction names generalizing known with
  | nil => simp [addNames]
  | cons name names ih =>
    rw [addNames, List.foldl_cons, ← addNames, ih]
    split
    · next h =>
      have : name ∈ known := by simpa using h
      grind
    · simp [or_assoc]

/-- Adding names repeats none. -/
theorem nodup_addNames {known names : List String} (h : known.Nodup) :
    (addNames known names).Nodup := by
  induction names generalizing known with
  | nil => exact h
  | cons name names ih =>
    rw [addNames, List.foldl_cons, ← addNames]
    apply ih
    split
    · exact h
    · next hn =>
      have : name ∉ known := by simpa using hn
      exact List.nodup_append.2 ⟨h, by simp, by grind⟩

/-- The component of a single connection. -/
def ofConnection (id : GroupId) (c : Connection) : Component :=
  ⟨id, [c], addNames [] c.names, none⟩

/-- The component of a single vertex. -/
def ofVertex (id : GroupId) (name : String) : Component :=
  ⟨id, [], [name], none⟩

/-- Whether a variable belongs to the component. -/
def contains (c : Component) (name : String) : Bool :=
  c.vars.contains name

/-- Whether two components share a variable. -/
def touches (c d : Component) : Bool :=
  d.vars.any c.contains

/-- Takes in the connections and variables of another component; its plan is dropped. -/
def absorb (c d : Component) : Component :=
  { c with
    connections := c.connections ++ d.connections
    vars := addNames c.vars d.vars }

/-- Sharing a variable is meant both ways. -/
theorem touches_iff {c d : Component} :
    c.touches d ↔ ∃ name, c.contains name ∧ d.contains name := by
  simp [touches, contains, and_comm]

/-- The first variable that is registered as a vertex. -/
def firstNode? (c : Component) (r : Registry) : Option String :=
  c.vars.find? fun name => (r.lookup name).any Variable.isNode

/-- The plan of the component, and the component without it. -/
def takePlan (c : Component) : Except PlanError (Plan × Component) :=
  match c.plan with
  | some plan => .ok (plan, { c with plan := none })
  | none => .error (.noPlan c.id)

/-- Gives the component a plan. -/
def setPlan (c : Component) (plan : Plan) : Component :=
  { c with plan := some plan }

/-! ## Merging -/

/-- Merges the first two components that share a variable: the earlier one absorbs the later. -/
def mergeOnce? : List Component → Option (List Component)
  | [] => none
  | c :: rest =>
    match pick? (fun d => if c.touches d then some () else none) rest with
    | some (d, _, rest) => some (c.absorb d :: rest)
    | none => (mergeOnce? rest).map (c :: ·)

/-- Merges at most `n` times. -/
def mergeAtMost : Nat → List Component → List Component
  | 0, components => components
  | n + 1, components =>
    match mergeOnce? components with
    | some merged => mergeAtMost n merged
    | none => components

/-- The components of single connections, numbered from `n` on. -/
def singletons (n : Nat) : List Connection → List Component
  | [] => []
  | c :: cs => ofConnection ⟨n⟩ c :: singletons (n + 1) cs

/-- The components of a list of connections. Every merge leaves one component less, so there are
fewer merges than connections. -/
def ofConnections (connections : List Connection) : List Component :=
  mergeAtMost connections.length (singletons 0 connections)

/-! ## Partition of a pattern -/

/-- Registers the listed vertices that are named and not registered yet, and makes a component of
each of them, numbered from `n` on. -/
def ofVertices (n : Nat) : List PatternVar → RegistryM (List Component)
  | [] => pure []
  | v :: vs => do
    if v.anonymous || (← get).contains v.name then
      ofVertices n vs
    else
      let _ ← Registry.register v.name false .node
      let rest ← ofVertices (n + 1) vs
      return ofVertex ⟨n⟩ v.name :: rest

/-- Registers all variables of a pattern and splits it into its components. -/
def partition (q : Query) : RegistryM (List Component) := do
  Registry.registerConnections q.connections
  let connected := ofConnections q.connections
  let isolated ← ofVertices q.connections.length q.vertices
  let components := connected ++ isolated
  if components.isEmpty then
    throw .emptyPattern
  return components

end Component

end GraphPlan
