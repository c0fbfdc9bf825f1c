import GraphPlan.Proofs.Planner.Follow
import GraphPlan.Proofs.Semantics.Rows

/-!
# The row of an assignment

An assignment of objects to all names gives a value to every column that holds an object, an
attribute or a label, and so a row for every schema of a pattern. In this row a resolved filter has
the value of the filter under the assignment (`Expr.Reads.eval_eq`), and following a connection
yields the rows of exactly those assignments in which the connection runs along an edge.

Assignments are total here: the names that a schema does not bind have objects too, and these make
no difference (`Schema.OfPattern.row_congr`).
-/

namespace GraphPlan

variable {Node Edge Atom : Type}

/-- The value of a column. Computed columns do not occur in the plan of a pattern. -/
def Content.value (G : PropertyGraph Node Edge Atom) (scope : String)
    (σ : String → Object Node Edge) : Content → Value Node Edge Atom
  | var x => .object (σ x)
  | attr x a => G.attr scope (σ x) a
  | label x => .str (G.label (σ x))
  | scratch x => .object (σ x)
  | computed _ => .bool false
  | aggregate _ _ => .bool false

/-- The row of an assignment. -/
def Schema.row (G : PropertyGraph Node Edge Atom) (scope : String) (σ : String → Object Node Edge)
    (s : Schema) : Row Node Edge Atom :=
  s.contents.map (Content.value G scope σ)

variable {G : PropertyGraph Node Edge Atom} {scope : String} {σ τ : String → Object Node Edge}

theorem Content.value_congr {c : Content} (h : σ c.primary = τ c.primary) :
    c.value G scope σ = c.value G scope τ := by
  cases c with
  | var x | attr x a | label x | scratch x =>
    simp only [Content.primary] at h
    simp only [Content.value, h]
  | computed | aggregate => rfl

namespace Schema

variable {s : Schema}

theorem row_pushAll (s : Schema) (cs : List Content) :
    (s.pushAll cs).row G scope σ = s.row G scope σ ++ cs.map (Content.value G scope σ) := by
  rw [row, contents_pushAll, List.map_append, row]

theorem length_row : (s.row G scope σ).length = s.width := by
  rw [row, List.length_map, length_contents]

theorem getElem?_row {i : Nat} {c : Content} (h : s.contents[i]? = some c) :
    (s.row G scope σ)[i]? = some (c.value G scope σ) := by
  rw [row, List.getElem?_map, h, Option.map_some]

/-- The row depends only on the variables of the schema. -/
theorem OfPattern.row_congr (hs : s.OfPattern) (h : ∀ x, s.hasVariable x = true → σ x = τ x) :
    s.row G scope σ = s.row G scope τ := by
  refine List.map_congr_left fun c hc => Content.value_congr (h _ ?_)
  exact hs.valid.hasVariable_iff.2 (hs.bound c hc)

/-- Columns for produced variables hold their objects, be they new or not. -/
theorem map_value_produced (xs : List String) (s : Schema) :
    (produced xs s).map (Content.value G scope σ) = xs.map fun x => .object (σ x) := by
  induction xs generalizing s with
  | nil => rfl
  | cons x xs ih =>
    rw [produced]
    split <;> rw [List.map_cons, ih] <;> rfl

theorem Valid.hasVariable_push (hs : s.Valid) {c : Content} {x : String} :
    (s.push c).hasVariable x = true ↔ s.hasVariable x = true ∨ c = .var x := by
  show (s.pushAll [c]).hasVariable x = true ↔ _
  rw [hs.hasVariable_pushAll, List.mem_singleton, @eq_comm _ c]

theorem OfPattern.addScratch (hs : s.OfPattern) {x : String} (hx : s.hasVariable x = true) :
    (s.addScratch x).OfPattern := by
  show (s.pushAll [.scratch x]).OfPattern
  refine hs.pushAll ?_ fun c hc => ?_
  · simp [Content.isStructural]
  · rw [List.mem_singleton.1 hc]
    exact List.mem_append_left _ (hs.valid.hasVariable_iff.1 hx)

/-- Objects for produced variables that agree with the objects of the variables that were bound
before are those of an assignment. -/
theorem OfPattern.exists_assignment (hs : s.OfPattern) {xs : List String}
    {os : List (Object Node Edge)} (hlen : os.length = xs.length)
    (hpairs : ∀ pair ∈ (bindProduced xs s.width s).2,
      (s.row G scope σ ++ os.map .object)[pair.1]? = (s.row G scope σ ++ os.map .object)[pair.2]?) :
    ∃ τ, (∀ x, s.hasVariable x = true → τ x = σ x) ∧ xs.map τ = os := by
  induction xs generalizing s σ os with
  | nil =>
    rw [List.length_nil, List.length_eq_zero_iff] at hlen
    exact ⟨σ, fun _ _ => rfl, hlen.symm⟩
  | cons x xs ih =>
    obtain ⟨o, os, rfl⟩ := List.exists_cons_of_length_eq_add_one hlen
    -- once the first object is settled, its column belongs to the schema
    have hnext : ∀ (c : Content) (σ' : String → Object Node Edge), (s.push c).OfPattern →
        (s.push c).hasVariable x = true → c.value G scope σ' = .object o →
        (∀ y, s.hasVariable y = true → σ' y = σ y) → σ' x = o →
        (∀ pair ∈ (bindProduced xs (s.width + 1) (s.push c)).2,
          (s.row G scope σ ++ (o :: os).map .object)[pair.1]? =
            (s.row G scope σ ++ (o :: os).map .object)[pair.2]?) →
        ∃ τ, (∀ y, s.hasVariable y = true → τ y = σ y) ∧ (x :: xs).map τ = o :: os := by
      intro c σ' hc hx hvalue hσ' ho hrest
      have hrow : (s.push c).row G scope σ' ++ os.map .object =
          s.row G scope σ ++ (o :: os).map .object := by
        rw [show s.push c = s.pushAll [c] from rfl, row_pushAll, hs.row_congr hσ',
          List.append_assoc]
        simp [hvalue]
      rw [← hrow, ← width_push] at hrest
      obtain ⟨τ, hτ, hmap⟩ := ih hc (Nat.succ.inj hlen) hrest
      refine ⟨τ, fun y hy => ?_, by rw [List.map_cons, hτ x hx, ho, hmap]⟩
      exact (hτ y (hs.valid.hasVariable_push.2 (Or.inl hy))).trans (hσ' y hy)
    cases hx : s.varColumn? x with
    | some known =>
      -- the new column is a scratch column and equals the earlier one
      have hbound := hasVariable_of_varColumn? hx
      simp only [bindProduced, hx, List.forall_mem_cons] at hpairs
      obtain ⟨hfirst, hrest⟩ := hpairs
      have ho : σ x = o := by
        rw [List.getElem?_append_left (by rw [length_row]; exact hs.valid.get?_lt hx),
          getElem?_row (hs.valid.getElem?_of_varColumn? hx),
          List.getElem?_append_right (Nat.le_of_eq length_row), length_row, Nat.sub_self] at hfirst
        simpa [Content.value] using hfirst
      exact hnext (.scratch x) σ (hs.addScratch hbound)
        (hs.valid.hasVariable_push.2 (Or.inl hbound)) (congrArg _ ho) (fun _ _ => rfl) ho hrest
    | none =>
      -- the new column is the one of the variable, so its object is free
      simp only [bindProduced, hx] at hpairs
      let σ' : String → Object Node Edge := fun y => if y = x then o else σ y
      have ho : σ' x = o := if_pos rfl
      have hσ' : ∀ y, s.hasVariable y = true → σ' y = σ y := by
        intro y hy
        refine if_neg ?_
        rintro rfl
        rw [hasVariable, hx] at hy
        cases hy
      exact hnext (.var x) σ' (hs.addVariable x) (hs.valid.hasVariable_push.2 (Or.inr rfl))
        (congrArg _ ho) hσ' ho hpairs

end Schema

/-! ## Filters -/

variable [DecidableEq Node] [DecidableEq Edge] [DecidableEq Atom]

/-- A scalar that reads what an expression names has the value of the expression. -/
theorem Expr.Reads.eval_eq {cs : List Content} {e : Expr} {t : Scalar} (h : Expr.Reads cs e t)
    (hdec : e.hasDecimal = false) :
    t.eval G (cs.map (Content.value G scope σ)) = e.eval G scope fun x => some (σ x) := by
  induction h with
  | ref h | prop h | labelOf h =>
    rw [Scalar.eval, List.getElem?_map, h]
    rfl
  | hasLabel h =>
    rw [Scalar.eval, List.getElem?_map, h]
    simp [Content.value, Expr.eval]
  | int | str | bool => rfl
  | decimal => cases hdec
  | binary op _ _ ihl ihr =>
    rw [Expr.hasDecimal, Bool.or_eq_false_iff] at hdec
    rw [Scalar.eval, Expr.eval, ihl hdec.1, ihr hdec.2]
  | unary op _ ih =>
    rw [Expr.hasDecimal] at hdec
    rw [Scalar.eval, Expr.eval, ih hdec]

/-! ## Connections -/

omit [DecidableEq Node] [DecidableEq Edge] [DecidableEq Atom] in
/-- A connection runs along an edge. -/
def Connection.RunsIn (G : PropertyGraph Node Edge Atom) (σ : String → Object Node Edge)
    (c : Connection) : Prop :=
  ∃ e, σ c.edge.name = .edge e ∧ σ c.src.name = .node (G.src e) ∧ σ c.dst.name = .node (G.dst e)

namespace Traversal

/-- The object from which an edge is followed. -/
def startObject (G : PropertyGraph Node Edge Atom) (e : Edge) : Traversal → Object Node Edge
  | byEdge => .edge e
  | byNode direction => .node (direction.near G e)

/-- The objects to which an edge leads. -/
def producedObjects (G : PropertyGraph Node Edge Atom) (e : Edge) :
    Traversal → List (Object Node Edge)
  | byEdge => [.node (G.src e), .node (G.dst e)]
  | byNode direction => [.edge e, .node (direction.far G e)]

omit [DecidableEq Node] [DecidableEq Edge] [DecidableEq Atom] in
theorem length_producedObjects (c : Connection) (e : Edge) (step : Traversal) :
    (step.producedObjects G e).length = (step.produced c).length := by
  rcases step with _ | _ | _ <;> rfl

omit [DecidableEq Node] [DecidableEq Edge] [DecidableEq Atom] in
/-- From wherever a connection is followed, it runs along an edge that leads to the objects of the
other variables. -/
theorem runsIn_iff (c : Connection) (step : Traversal) :
    c.RunsIn G σ ↔ ∃ e, σ (step.start c) = step.startObject G e ∧
      (step.produced c).map σ = step.producedObjects G e := by
  refine exists_congr fun e => ?_
  rcases step with _ | _ | _ <;>
    simp only [start, produced, startObject, producedObjects, Direction.near, Direction.far,
      List.map_cons, List.map_nil, List.cons.injEq, and_true] <;> tauto

/-- Following yields a row for every edge at the object in the column. -/
theorem mem_expand (step : Traversal) {column : Nat} {row row' : Row Node Edge Atom} :
    row' ∈ (step.operator column).expand G row ↔
      ∃ e, row[column]? = some (.object (step.startObject G e)) ∧
        row' = row ++ (step.producedObjects G e).map .object := by
  cases step with
  | byEdge =>
    rw [operator, Operator.expand]
    split
    · next e he =>
      rw [List.mem_singleton]
      constructor
      · rintro rfl
        exact ⟨e, he, rfl⟩
      · rintro ⟨e', he', rfl⟩
        cases he.symm.trans he'
        rfl
    · next hne =>
      refine ⟨fun h => absurd h List.not_mem_nil, ?_⟩
      rintro ⟨e, he, -⟩
      exact absurd he (hne e)
  | byNode direction =>
    rw [operator, Operator.expand]
    split
    · next n hn =>
      simp only [List.mem_map, List.mem_filter, beq_iff_eq, G.mem_edges, true_and]
      constructor
      · rintro ⟨e, rfl, rfl⟩
        exact ⟨e, hn, rfl⟩
      · rintro ⟨e, he, rfl⟩
        cases hn.symm.trans he
        exact ⟨e, rfl, rfl⟩
    · next hne =>
      refine ⟨fun h => absurd h List.not_mem_nil, ?_⟩
      rintro ⟨e, he, -⟩
      exact absurd he (hne _)

end Traversal

end GraphPlan
