import GraphPlan.Constraint
import GraphPlan.Proofs.Pattern.Partition
import GraphPlan.Proofs.Resolve
import Mathlib.Data.List.Nodup

/-!
# Property graphs and the matches of a pattern

A property graph has vertices and directed edges; each of these objects has a label and attributes.
What the operators of expressions do to values is left open, and so is the value of a decimal: a
graph comes with an interpretation of both. `Query.IsMatch` says, without any plan, which
assignments of objects to the variables of a pattern are its matches.
-/

namespace GraphPlan

/-- A vertex or an edge. -/
inductive Object (Node Edge : Type) where
  /-- A vertex. -/
  | node (n : Node)
  /-- An edge. -/
  | edge (e : Edge)
deriving DecidableEq

/-- Which of the two an object is. -/
def Object.kind {Node Edge : Type} : Object Node Edge → VariableKind
  | node _ => .node
  | edge _ => .edge

/-- A value in a row or of an expression. -/
inductive Value (Node Edge Atom : Type) where
  /-- An object of the graph. -/
  | object (o : Object Node Edge)
  /-- A string. -/
  | str (s : String)
  /-- An integer. -/
  | int (i : Int64)
  /-- A truth value. -/
  | bool (b : Bool)
  /-- Any other value. -/
  | atom (a : Atom)
deriving DecidableEq

/-- A property graph with an interpretation of the operators on values. -/
structure PropertyGraph (Node Edge Atom : Type) where
  /-- The vertices. -/
  nodes : List Node
  /-- They are listed once. -/
  nodup_nodes : nodes.Nodup
  /-- All of them are listed. -/
  mem_nodes : ∀ n, n ∈ nodes
  /-- The edges. -/
  edges : List Edge
  /-- They are listed once. -/
  nodup_edges : edges.Nodup
  /-- All of them are listed. -/
  mem_edges : ∀ e, e ∈ edges
  /-- Where an edge starts. -/
  src : Edge → Node
  /-- Where an edge ends. -/
  dst : Edge → Node
  /-- The label of an object. -/
  label : Object Node Edge → String
  /-- The attribute of an object, by scope and name. -/
  attr : String → Object Node Edge → String → Value Node Edge Atom
  /-- What a binary operator does. -/
  binary : BinaryOp → Value Node Edge Atom → Value Node Edge Atom → Value Node Edge Atom
  /-- What a unary operator does. -/
  unary : UnaryOp → Value Node Edge Atom → Value Node Edge Atom
  /-- The value of a decimal. -/
  decimal : Binary64 → Value Node Edge Atom
  /-- The value of a decimal with two places. -/
  hundredths : Hundredths → Value Node Edge Atom

variable {Node Edge Atom : Type}

namespace PropertyGraph

/-- The objects of a kind, and none if no kind is given. -/
def objects (G : PropertyGraph Node Edge Atom) : Option VariableKind → List (Object Node Edge)
  | some .node => G.nodes.map .node
  | some .edge => G.edges.map .edge
  | none => []

theorem mem_objects (G : PropertyGraph Node Edge Atom) {k : Option VariableKind}
    {o : Object Node Edge} : o ∈ G.objects k ↔ some o.kind = k := by
  rcases k with _ | _ | _ <;> cases o <;>
    simp [objects, Object.kind, G.mem_nodes, G.mem_edges]

theorem nodup_objects (G : PropertyGraph Node Edge Atom) (k : Option VariableKind) :
    (G.objects k).Nodup := by
  rcases k with _ | _ | _
  · exact List.nodup_nil
  · exact G.nodup_nodes.map fun _ _ h => Object.node.inj h
  · exact G.nodup_edges.map fun _ _ h => Object.edge.inj h

end PropertyGraph

/-- The value of a literal in a scan. -/
def ScanValue.eval (G : PropertyGraph Node Edge Atom) : ScanValue → Value Node Edge Atom
  | str s => .str s
  | int i => .int i
  | decimal d => G.decimal d
  | bool b => .bool b

namespace Expr

/-- The value of an expression under an assignment of objects to variables. Expressions that are no
filters of a pattern have none. -/
def eval (G : PropertyGraph Node Edge Atom) (scope : String)
    (β : String → Option (Object Node Edge)) : Expr → Option (Value Node Edge Atom)
  | ref x => (β x).map .object
  | prop x a => (β x).map fun o => G.attr scope o a
  | int i => some (.int i)
  | decimal d => some (G.decimal d)
  | str s => some (.str s)
  | bool b => some (.bool b)
  | null => none
  | binary op lhs rhs => do
    let l ← lhs.eval G scope β
    let r ← rhs.eval G scope β
    return G.binary op l r
  | unary op operand => (operand.eval G scope β).map (G.unary op)
  | aggregateAll _ => none
  | aggregate _ _ => none
  | hasLabel x l => (β x).map fun o => .bool (G.label o == l)
  | labelOf x => (β x).map fun o => .str (G.label o)
  | call _ _ => none

mutual

/-- Whether a decimal stands somewhere in the expression. -/
def hasDecimal : Expr → Bool
  | decimal _ => true
  | binary _ lhs rhs => lhs.hasDecimal || rhs.hasDecimal
  | unary _ operand => operand.hasDecimal
  | aggregate _ arg => arg.hasDecimal
  | call _ args => anyHasDecimal args
  | _ => false

/-- Whether a decimal stands in one of several expressions. -/
def anyHasDecimal : List Expr → Bool
  | [] => false
  | e :: es => e.hasDecimal || anyHasDecimal es

end

variable {G : PropertyGraph Node Edge Atom} {scope : String}

/-- The value depends only on the variables that stand in the expression. -/
theorem eval_congr {β β' : String → Option (Object Node Edge)} (e : Expr)
    (h : ∀ x ∈ e.names, β x = β' x) : e.eval G scope β = e.eval G scope β' := by
  induction e using Expr.eval.induct with
  | case1 x | case2 x | case12 x | case13 x =>
    simp only [eval]
    rw [h x (List.mem_singleton.2 rfl)]
  | case3 | case4 | case5 | case6 | case7 | case10 | case11 | case14 => rfl
  | case8 op lhs rhs ihl ihr =>
    simp only [eval]
    rw [ihl fun x hx => h x (List.mem_append_left _ hx)]
    rw [ihr fun x hx => h x (List.mem_append_right _ hx)]
  | case9 op operand ih =>
    simp only [eval]
    rw [ih h]

/-- A literal has the value that a scan gives it. -/
theorem eval_of_scanValue? {e : Expr} {value : ScanValue} (h : e.scanValue? = some value)
    (β : String → Option (Object Node Edge)) : e.eval G scope β = some (value.eval G) := by
  cases e <;> cases h <;> rfl

end Expr

/-- A match of a pattern. -/
structure Query.IsMatch (G : PropertyGraph Node Edge Atom) (scope : String) (r : Registry)
    (q : Query) (β : String → Option (Object Node Edge)) : Prop where
  /-- The registered variables, and no others, stand for objects of their kind. -/
  kind : ∀ x, (β x).map Object.kind = r.kind? x
  /-- The edge of every connection runs from its source to its destination. -/
  runs : ∀ c ∈ q.connections, ∃ e, β c.edge.name = some (.edge e) ∧
    β c.src.name = some (.node (G.src e)) ∧ β c.dst.name = some (.node (G.dst e))
  /-- Every filter is true. -/
  holds : ∀ e ∈ q.constraints, e.eval G scope β = some (.bool true)

end GraphPlan
