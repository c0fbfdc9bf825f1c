import GraphPlan.Proofs.Algebra.Width

/-!
# What the operators of a tree are for

Some operators find the matches of a pattern, some add values to them, and four of them make the
results of a query. The latter are the layers of a tree: they belong on top of everything that
finds matches, each at its place. `Layered` trees are built from the inside out, and so the layer
that was put on last bounds all layers below it.
-/

namespace GraphPlan

/-- The operators that make results from matches, the innermost first. -/
inductive Layer where
  /-- Rows are grouped. -/
  | group
  /-- Rows are put in order. -/
  | sort
  /-- Columns are chosen. -/
  | project
  /-- Rows are cut off. -/
  | slice
deriving DecidableEq

/-- How far outside a layer belongs. -/
def Layer.rank : Layer → Nat
  | group => 0
  | sort => 1
  | project => 2
  | slice => 3

namespace Operator

/-- Whether an operator follows a connection. -/
def isTraversal : Operator → Bool
  | explode .. => true
  | adjacent _ => true
  | _ => false

/-- Whether an operator carries a filter of the query as its predicate. -/
def isFilter : Operator → Bool
  | select _ => true
  | join .. => true
  | _ => false

/-- Whether an operator with inputs finds matches. -/
def isMatching : Operator → Bool
  | join .. => true
  | product => true
  | select _ => true
  | matchColumns _ => true
  | explode .. => true
  | adjacent _ => true
  | _ => false

/-- Whether an operator only adds values to the rows. -/
def isAddition : Operator → Bool
  | getAttributes .. => true
  | getType _ => true
  | extend .. => true
  | _ => false

/-- The layer that an operator is. -/
def layer? : Operator → Option Layer
  | group .. => some .group
  | sort _ => some .sort
  | project _ => some .project
  | slice .. => some .slice
  | _ => none

/-- An operator may lie above another one: above a layer there is nothing that finds matches, and
only layers that belong further outside. -/
def MayCover (above below : Operator) : Prop :=
  ∀ l, below.layer? = some l →
    above.isMatching = false ∧ ∀ l', above.layer? = some l' → l.rank < l'.rank

variable {op : Operator}

theorem isTraversal_of_isMatching (h : op.isMatching = false) : op.isTraversal = false := by
  cases op <;> simp_all [isMatching, isTraversal]

theorem isFilter_of_isMatching (h : op.isMatching = false) : op.isFilter = false := by
  cases op <;> simp_all [isMatching, isFilter]

theorem isMatching_of_layer? {l : Layer} (h : op.layer? = some l) : op.isMatching = false := by
  cases op <;> simp_all [layer?, isMatching]

theorem isMatching_of_isAddition (h : op.isAddition = true) : op.isMatching = false := by
  cases op <;> simp_all [isAddition, isMatching]

theorem layer?_of_isAddition (h : op.isAddition = true) : op.layer? = none := by
  cases op <;> simp_all [isAddition, layer?]

end Operator

namespace PlanNode

/-- The operators without inputs. -/
def leaves (t : PlanNode) : List Operator :=
  (t.subtrees.filter fun s => s.inputs.isEmpty).map op

variable {f : Operator → Bool} {op : Operator} {t t' : PlanNode}

@[simp]
theorem leaves_leaf (op : Operator) : (leaf op).leaves = [op] :=
  rfl

@[simp]
theorem leaves_unary (op : Operator) (t : PlanNode) : (node op [t]).leaves = t.leaves := by
  simp [leaves, subtrees, subtreesList, inputs]

@[simp]
theorem leaves_binary (op : Operator) (t t' : PlanNode) :
    (node op [t, t']).leaves = t.leaves ++ t'.leaves := by
  simp [leaves, subtrees, subtreesList, inputs]

@[simp]
theorem count_leaf (f : Operator → Bool) (op : Operator) : (leaf op).count f = (f op).toNat := by
  cases h : f op <;> simp [count, leaf, operators, operatorsList, h]

@[simp]
theorem count_unary (f : Operator → Bool) (op : Operator) (t : PlanNode) :
    (node op [t]).count f = (f op).toNat + t.count f := by
  cases h : f op <;> simp [count, operators, operatorsList, h]
  omega

@[simp]
theorem count_binary (f : Operator → Bool) (op : Operator) (t t' : PlanNode) :
    (node op [t, t']).count f = (f op).toNat + (t.count f + t'.count f) := by
  cases h : f op <;> simp [count, operators, operatorsList, h]
  omega

mutual

/-- The operators below a node are operators of the tree. -/
theorem mem_operators_of_mem_subtrees : ∀ (t : PlanNode) {s : PlanNode} {op : Operator},
    s ∈ t.subtrees → op ∈ operatorsList s.inputs → op ∈ t.operators
  | node o inputs, s, op, hs, hop => by
    rw [subtrees] at hs
    rw [operators]
    rcases List.mem_cons.1 hs with rfl | hs
    · exact List.mem_cons_of_mem _ hop
    · exact List.mem_cons_of_mem _ (mem_operatorsList_of_mem_subtreesList inputs hs hop)

theorem mem_operatorsList_of_mem_subtreesList : ∀ (ts : List PlanNode) {s : PlanNode}
    {op : Operator}, s ∈ subtreesList ts → op ∈ operatorsList s.inputs → op ∈ operatorsList ts
  | t :: ts, s, op, hs, hop => by
    rw [subtreesList] at hs
    rw [operatorsList]
    rcases List.mem_append.1 hs with hs | hs
    · exact List.mem_append_left _ (mem_operators_of_mem_subtrees t hs hop)
    · exact List.mem_append_right _ (mem_operatorsList_of_mem_subtreesList ts hs hop)

end

/-- The layers of a tree are at their place, and all of them are below the given rank. -/
structure Layered (n : Nat) (t : PlanNode) : Prop where
  /-- The outermost layer has a smaller rank. -/
  rank_lt : ∀ op ∈ t.operators, ∀ l, op.layer? = some l → l.rank < n
  /-- Every operator may lie above those below it. -/
  mayCover : ∀ s ∈ t.subtrees, ∀ op ∈ operatorsList s.inputs, s.op.MayCover op

/-- A tree that has no layer. -/
theorem layered_of_layer?_eq_none (h : ∀ op ∈ t.operators, op.layer? = none) : Layered 0 t where
  rank_lt op hop l hl := by simp [h op hop] at hl
  mayCover s hs op hop l hl := by simp [h op (mem_operators_of_mem_subtrees t hs hop)] at hl

theorem Layered.mono {n m : Nat} (h : Layered n t) (hnm : n ≤ m) : Layered m t where
  rank_lt op hop l hl := Nat.lt_of_lt_of_le (h.rank_lt op hop l hl) hnm
  mayCover := h.mayCover

/-- An operator on top of a layered tree. -/
theorem Layered.unary {n m : Nat} (h : Layered n t) (hnm : n ≤ m)
    (hmatching : op.isMatching = false)
    (hlayer : ∀ l, op.layer? = some l → n ≤ l.rank ∧ l.rank < m) : Layered m (node op [t]) where
  rank_lt o ho l hl := by
    simp only [operators, operatorsList, List.append_nil, List.mem_cons] at ho
    rcases ho with rfl | ho
    · exact (hlayer l hl).2
    · exact Nat.lt_of_lt_of_le (h.rank_lt o ho l hl) hnm
  mayCover s hs o ho := by
    simp only [subtrees, subtreesList, List.append_nil, List.mem_cons] at hs
    rcases hs with rfl | hs
    · intro l hl
      simp only [inputs, operatorsList, List.append_nil] at ho
      exact ⟨hmatching, fun l' hl' => Nat.lt_of_lt_of_le (h.rank_lt o ho l hl) (hlayer l' hl').1⟩
    · exact h.mayCover s hs o ho

/-- A value is added. -/
theorem Layered.addition {n : Nat} (h : Layered n t) (hop : op.isAddition = true) :
    Layered n (node op [t]) :=
  h.unary (Nat.le_refl n) (Operator.isMatching_of_isAddition hop)
    fun l hl => by simp [Operator.layer?_of_isAddition hop] at hl

/-- A further layer. -/
theorem Layered.layer {n : Nat} (h : Layered n t) {l : Layer} (hop : op.layer? = some l)
    (hn : n ≤ l.rank) : Layered (l.rank + 1) (node op [t]) := by
  refine h.unary (Nat.le_succ_of_le hn) (Operator.isMatching_of_layer? hop) fun l' hl' => ?_
  cases hop.symm.trans hl'
  exact ⟨hn, Nat.lt_succ_self _⟩

end PlanNode

end GraphPlan
