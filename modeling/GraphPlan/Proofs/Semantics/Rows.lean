import GraphPlan.Proofs.Algebra.Width
import GraphPlan.Proofs.Semantics.Graph

/-!
# The rows of an operator tree

The operators that find matches have a meaning over a property graph. A leaf gives rows with one
column, an operator with one input extends or drops each of its rows, and an operator with two
inputs puts their rows beside each other. A scan by label or attribute does not say whether it looks
for vertices or for edges, so the kind of object is given from outside, for each column of the tree.

Whatever the tree is, all of its rows have its width and none occurs twice (`regular_rows`).
-/

namespace GraphPlan

/-- A row of values. -/
abbrev Row (Node Edge Atom : Type) : Type :=
  List (Value Node Edge Atom)

variable {Node Edge Atom : Type} [DecidableEq Node] [DecidableEq Edge] [DecidableEq Atom]

/-- The value of a scalar in a row. -/
def Scalar.eval (G : PropertyGraph Node Edge Atom) (row : Row Node Edge Atom) :
    Scalar → Option (Value Node Edge Atom)
  | column i => row[i]?
  | int i => some (.int i)
  | decimal d => some (G.hundredths d)
  | str s => some (.str s)
  | bool b => some (.bool b)
  | binary op lhs rhs => do
    let l ← lhs.eval G row
    let r ← rhs.eval G row
    return G.binary op l r
  | unary op operand => (operand.eval G row).map (G.unary op)
  | isLabel i l => row[i]?.map fun v => .bool (v == .str l)
  | verbatim _ => none

/-! ## Operators -/

namespace Direction

/-- The end of an edge at which it is met. -/
def near (G : PropertyGraph Node Edge Atom) (e : Edge) : Direction → Node
  | outgoing => G.src e
  | ingoing => G.dst e

/-- The other end. -/
def far (G : PropertyGraph Node Edge Atom) (e : Edge) : Direction → Node
  | outgoing => G.dst e
  | ingoing => G.src e

end Direction

namespace Operator

/-- The objects that a scan finds. A scan by label or attribute looks for objects of the given
kind. -/
def scanned (G : PropertyGraph Node Edge Atom) (k : Option VariableKind) :
    Operator → List (Object Node Edge)
  | scanNodes => G.objects (some .node)
  | scanLabel l => (G.objects k).filter fun o => G.label o == l
  | scanAttribute scope a c value =>
    (G.objects k).filter fun o =>
      G.binary (.compare c) (G.attr scope o a) (value.eval G) == .bool true
  | _ => []

/-- What an operator with one input makes of a row. Operators that make results from matches have no
meaning here. -/
def expand (G : PropertyGraph Node Edge Atom) (row : Row Node Edge Atom) :
    Operator → List (Row Node Edge Atom)
  | matchColumns pairs => if pairs.all fun pair => row[pair.1]? == row[pair.2]? then [row] else []
  | select t => if t.eval G row = some (.bool true) then [row] else []
  | adjacent i =>
    match row[i]? with
    | some (.object (.edge e)) =>
      [row ++ [.object (.node (G.src e)), .object (.node (G.dst e))]]
    | _ => []
  | explode i direction =>
    match row[i]? with
    | some (.object (.node n)) =>
      (G.edges.filter fun e => direction.near G e == n).map fun e =>
        row ++ [.object (.edge e), .object (.node (direction.far G e))]
    | _ => []
  | getAttributes i scope attrs =>
    match row[i]? with
    | some (.object o) => [row ++ attrs.map (G.attr scope o)]
    | _ => []
  | getType i =>
    match row[i]? with
    | some (.object o) => [row ++ [.str (G.label o)]]
    | _ => []
  | _ => []

/-- Whether an operator with two inputs keeps a row of both. -/
def accepts (G : PropertyGraph Node Edge Atom) (row : Row Node Edge Atom) : Operator → Bool
  | join t joinType => joinType == "Inner" && t.eval G row == some (.bool true)
  | product => true
  | _ => false

/-- The rows of an operator over those of its inputs. -/
def apply (G : PropertyGraph Node Edge Atom) (k : Option VariableKind) (op : Operator) :
    List (List (Row Node Edge Atom)) → List (Row Node Edge Atom)
  | [] => (op.scanned G k).map fun o => [.object o]
  | [rows] => rows.flatMap fun row => op.expand G row
  | [rows, rows'] =>
    rows.flatMap fun row => (rows'.map (row ++ ·)).filter fun row => op.accepts G row
  | _ => []

end Operator

namespace PlanNode

mutual

/-- The rows of a tree. The columns of a second input are counted after those of the first. -/
def rows (G : PropertyGraph Node Edge Atom) (kindAt : Nat → Option VariableKind) :
    PlanNode → List (Row Node Edge Atom)
  | node op inputs => op.apply G (kindAt 0) (rowsList G kindAt inputs)

/-- The rows of several trees beside each other. -/
def rowsList (G : PropertyGraph Node Edge Atom) (kindAt : Nat → Option VariableKind) :
    List PlanNode → List (List (Row Node Edge Atom))
  | [] => []
  | t :: ts => t.rows G kindAt :: rowsList G (fun i => kindAt (t.width + i)) ts

end

variable {G : PropertyGraph Node Edge Atom} {kindAt : Nat → Option VariableKind} {op : Operator}
  {t t' : PlanNode} {row : Row Node Edge Atom}

theorem mem_rows_leaf :
    row ∈ (leaf op).rows G kindAt ↔ ∃ o ∈ op.scanned G (kindAt 0), row = [.object o] := by
  simp [leaf, rows, rowsList, Operator.apply, eq_comm]

theorem mem_rows_unary :
    row ∈ (node op [t]).rows G kindAt ↔ ∃ input ∈ t.rows G kindAt, row ∈ op.expand G input := by
  simp [rows, rowsList, Operator.apply]

theorem mem_rows_binary :
    row ∈ (node op [t, t']).rows G kindAt ↔
      ∃ left ∈ t.rows G kindAt, ∃ right ∈ t'.rows G (fun i => kindAt (t.width + i)),
        op.accepts G (left ++ right) = true ∧ row = left ++ right := by
  simp only [rows, rowsList, Operator.apply, List.mem_flatMap, List.mem_filter, List.mem_map]
  constructor
  · rintro ⟨left, hleft, ⟨right, hright, rfl⟩, haccepts⟩
    exact ⟨left, hleft, right, hright, haccepts, rfl⟩
  · rintro ⟨left, hleft, right, hright, haccepts, rfl⟩
    exact ⟨left, hleft, ⟨right, hright, rfl⟩, haccepts⟩

end PlanNode

/-! ## Lengths and repetitions -/

/-- Rows of one length, none of them twice. -/
structure Regular (n : Nat) (rows : List (Row Node Edge Atom)) : Prop where
  /-- No row occurs twice. -/
  nodup : rows.Nodup
  /-- All rows have the length. -/
  length_eq : ∀ row ∈ rows, row.length = n

omit [DecidableEq Node] [DecidableEq Edge] [DecidableEq Atom] in
theorem regular_nil (n : Nat) : Regular n ([] : List (Row Node Edge Atom)) :=
  ⟨List.nodup_nil, nofun⟩

omit [DecidableEq Node] [DecidableEq Edge] [DecidableEq Atom] in
/-- Each row is replaced by some that extend it. -/
theorem Regular.flatMap {n m : Nat} {rows : List (Row Node Edge Atom)} (h : Regular n rows)
    {f : Row Node Edge Atom → List (Row Node Edge Atom)} (hnodup : ∀ row ∈ rows, (f row).Nodup)
    (hf : ∀ row ∈ rows, ∀ row' ∈ f row, ∃ rest, row' = row ++ rest ∧ n + rest.length = m) :
    Regular m (rows.flatMap f) where
  nodup := by
    rw [List.nodup_flatMap]
    refine ⟨hnodup, h.nodup.imp_of_mem fun {row₁ row₂} h₁ h₂ hne => ?_⟩
    -- a row tells from its first columns which row it extends
    intro row' hrow₁ hrow₂
    obtain ⟨rest₁, heq₁, -⟩ := hf row₁ h₁ row' hrow₁
    obtain ⟨rest₂, heq₂, -⟩ := hf row₂ h₂ row' hrow₂
    have hlen : row₁.length = row₂.length := (h.length_eq row₁ h₁).trans (h.length_eq row₂ h₂).symm
    exact hne (List.append_inj (heq₁.symm.trans heq₂) hlen).1
  length_eq row' hrow' := by
    obtain ⟨row, hrow, hrow'⟩ := List.mem_flatMap.1 hrow'
    obtain ⟨rest, rfl, hlen⟩ := hf row hrow row' hrow'
    rw [List.length_append, h.length_eq row hrow, hlen]

namespace Operator

variable {G : PropertyGraph Node Edge Atom} {n m : Nat} {rows rows' : List (Row Node Edge Atom)}
  {row row' : Row Node Edge Atom} {op : Operator}

theorem nodup_scanned (G : PropertyGraph Node Edge Atom) (k : Option VariableKind)
    (op : Operator) : (op.scanned G k).Nodup := by
  unfold scanned
  split
  · exact G.nodup_objects _
  · exact (G.nodup_objects k).filter _
  · exact (G.nodup_objects k).filter _
  · exact List.nodup_nil

theorem width_of_mem_scanned {k : Option VariableKind} {o : Object Node Edge}
    (h : o ∈ op.scanned G k) (n : Nat) : op.width n = 1 := by
  cases op with
  | scanNodes | scanLabel | scanAttribute => rfl
  | _ => cases h

/-- An operator with one input adds a fixed number of columns. -/
theorem exists_append_of_mem_expand (h : row' ∈ op.expand G row) :
    ∃ rest, row' = row ++ rest ∧ ∀ n, n + rest.length = op.width n := by
  cases op with
  | matchColumns pairs | select t =>
    rw [expand] at h
    split at h
    · rw [List.mem_singleton.1 h]
      exact ⟨[], (List.append_nil row).symm, fun _ => rfl⟩
    · cases h
  | adjacent i =>
    rw [expand] at h
    split at h
    · rw [List.mem_singleton.1 h]
      exact ⟨_, rfl, fun _ => rfl⟩
    · cases h
  | explode i direction =>
    rw [expand] at h
    split at h
    · obtain ⟨e, -, rfl⟩ := List.mem_map.1 h
      exact ⟨_, rfl, fun _ => rfl⟩
    · cases h
  | getAttributes i scope attrs =>
    rw [expand] at h
    split at h
    · rw [List.mem_singleton.1 h]
      exact ⟨_, rfl, fun n => by rw [List.length_map]; rfl⟩
    · cases h
  | getType i =>
    rw [expand] at h
    split at h
    · rw [List.mem_singleton.1 h]
      exact ⟨_, rfl, fun _ => rfl⟩
    · cases h
  | _ => cases h

theorem nodup_expand (op : Operator) (row : Row Node Edge Atom) : (op.expand G row).Nodup := by
  cases op with
  | explode i direction =>
    rw [expand]
    split
    · refine (G.nodup_edges.filter _).map fun e e' h => ?_
      have hboth : e = e' ∧ direction.far G e = direction.far G e' := by simpa using h
      exact hboth.1
    · exact List.nodup_nil
  | matchColumns | select | adjacent | getAttributes | getType =>
    rw [expand]
    split
    · exact List.nodup_singleton _
    · exact List.nodup_nil
  | _ => exact List.nodup_nil

/-- Whatever the operator and its inputs are, its rows have its width and occur once. -/
theorem regular_apply (k : Option VariableKind) (op : Operator) {ts : List PlanNode}
    {rowss : List (List (Row Node Edge Atom))}
    (h : List.Forall₂ (fun t rows => Regular t.width rows) ts rowss) :
    Regular (op.width (PlanNode.widthSum ts)) (op.apply G k rowss) := by
  rcases h with _ | ⟨h, _ | ⟨h', _ | _⟩⟩
  · refine ⟨(nodup_scanned G k op).map fun o o' ho => by simpa using ho, fun row hrow => ?_⟩
    obtain ⟨o, ho, rfl⟩ := List.mem_map.1 hrow
    exact (width_of_mem_scanned ho _).symm
  · refine h.flatMap (fun row _ => op.nodup_expand row) fun row _ row' hrow' => ?_
    obtain ⟨rest, heq, hlen⟩ := exists_append_of_mem_expand hrow'
    exact ⟨rest, heq, hlen _⟩
  · refine h.flatMap (fun row _ => ?_) fun row _ row' hrow' => ?_
    · exact (h'.nodup.map (List.append_right_injective row)).filter _
    · obtain ⟨hmem, haccepts⟩ := List.mem_filter.1 hrow'
      obtain ⟨rest, hrest, rfl⟩ := List.mem_map.1 hmem
      refine ⟨rest, rfl, ?_⟩
      rw [h'.length_eq rest hrest]
      cases op with
      | join | product => rfl
      | _ => cases haccepts
  · exact regular_nil _

end Operator

namespace PlanNode

mutual

/-- All rows of a tree have its width, and none occurs twice. -/
theorem regular_rows (G : PropertyGraph Node Edge Atom) : ∀ (kindAt : Nat → Option VariableKind)
    (t : PlanNode), Regular t.width (t.rows G kindAt)
  | kindAt, node op inputs => by
    rw [rows, width]
    exact op.regular_apply (kindAt 0) (regular_rowsList G kindAt inputs)

theorem regular_rowsList (G : PropertyGraph Node Edge Atom) :
    ∀ (kindAt : Nat → Option VariableKind) (ts : List PlanNode),
      List.Forall₂ (fun t rows => Regular t.width rows) ts (rowsList G kindAt ts)
  | _, [] => by
    rw [rowsList]
    exact .nil
  | kindAt, t :: ts => by
    rw [rowsList]
    exact .cons (regular_rows G kindAt t) (regular_rowsList G _ ts)

end

end PlanNode

end GraphPlan
