import GraphPlan.Error
import GraphPlan.NameMap

/-!
# The registry of pattern variables

Every variable of a pattern is registered under its name. The first registration of a name decides
what the variable is; a later one must agree on its kind and changes nothing.
-/

namespace GraphPlan

/-- The variables of a pattern by name. -/
structure Registry where
  /-- The variables. -/
  vars : NameMap Variable
deriving Inhabited

/-- Actions that change a registry and may fail. -/
abbrev RegistryM := EStateM PlanError Registry

namespace Registry

/-- The registry without variables. -/
def empty : Registry :=
  ⟨.empty⟩

/-- The variable with a name. -/
def lookup (r : Registry) (name : String) : Option Variable :=
  r.vars.get? name

/-- Whether a name is registered. -/
def contains (r : Registry) (name : String) : Bool :=
  (r.lookup name).isSome

/-- The variables in the order of their names. -/
def all (r : Registry) : List Variable :=
  r.vars.entries.map Prod.snd

/-- Registers a variable. -/
def register (name : String) (anonymous : Bool) (kind : VariableKind) : RegistryM Variable :=
  fun r =>
    match r.lookup name with
    | some known =>
      if known.kind = kind then .ok known r
      else .error (.kindConflict name known.kind kind) r
    | none =>
      let v : Variable := ⟨name, kind, anonymous⟩
      .ok v ⟨r.vars.insert name v⟩

/-- Registers the three variables of a connection. -/
def registerConnection (c : Connection) : RegistryM Unit := do
  let _ ← register c.src.name c.src.anonymous .node
  let _ ← register c.dst.name c.dst.anonymous .node
  let _ ← register c.edge.name c.edge.anonymous .edge

/-- Registers the variables of several connections. -/
def registerConnections : List Connection → RegistryM Unit
  | [] => pure ()
  | c :: cs => do
    registerConnection c
    registerConnections cs

end Registry

end GraphPlan
