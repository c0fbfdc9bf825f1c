import GraphPlan.Planner.Traversal
import GraphPlan.Proofs.Outcome
import GraphPlan.Proofs.Schema.Index

/-!
# Following a connection, step by step

`Plan.follow` is the plan after a connection was followed from a given column, and `exec_traverse`
says that following succeeds exactly when the start is bound. The rest is about the two columns that
are added: each of them is a column of its variable or, if the variable has one already, a scratch
column that is paired with the earlier one.
-/

namespace GraphPlan

namespace Schema

variable {s : Schema}

/-- What the columns hold that are added for produced variables. -/
def produced : List String → Schema → List Content
  | [], _ => []
  | x :: xs, s =>
    if s.hasVariable x then .scratch x :: produced xs (s.addScratch x)
    else .var x :: produced xs (s.addVariable x)

theorem bindProduced_fst (xs : List String) (position : Nat) (s : Schema) :
    (bindProduced xs position s).1 = s.pushAll (produced xs s) := by
  induction xs generalizing position s with
  | nil => rfl
  | cons x xs ih =>
    cases hx : s.varColumn? x with
    | some known =>
      rw [produced, if_pos (hasVariable_of_varColumn? hx)]
      simp only [bindProduced, hx, ih]
      rfl
    | none =>
      rw [produced, if_neg (by simp [hasVariable, hx])]
      simp only [bindProduced, hx, ih]
      rfl

/-- There is one new column for each produced variable, and it is about that variable. -/
theorem map_primary_produced (xs : List String) (s : Schema) :
    (produced xs s).map Content.primary = xs := by
  induction xs generalizing s with
  | nil => rfl
  | cons x xs ih =>
    rw [produced]
    split <;> rw [List.map_cons, ih] <;> rfl

theorem length_produced (xs : List String) (s : Schema) : (produced xs s).length = xs.length := by
  rw [← List.length_map Content.primary, map_primary_produced]

theorem isStructural_of_mem_produced {xs : List String} {c : Content} (h : c ∈ produced xs s) :
    c.isStructural = true := by
  induction xs generalizing s with
  | nil => cases h
  | cons x xs ih =>
    rw [produced] at h
    split at h <;> rcases List.mem_cons.1 h with rfl | h
    · rfl
    · exact ih h
    · rfl
    · exact ih h

/-- Every produced variable has a column afterwards. -/
theorem var_mem_produced (hs : s.Valid) {xs : List String} {x : String} (hx : x ∈ xs) :
    Content.var x ∈ s.contents ++ produced xs s := by
  induction xs generalizing s with
  | nil => cases hx
  | cons y ys ih =>
    rw [produced]
    rcases List.mem_cons.1 hx with rfl | hx
    · split
      · next h => exact List.mem_append_left _ (hs.hasVariable_iff.1 h)
      · simp
    · split
      · have h := ih (hs.push (.scratch y)) hx
        simpa [addScratch] using h
      · have h := ih (hs.push (.var y)) hx
        simpa [addVariable] using h

/-- The new variables are among the produced ones. -/
theorem mem_of_var_mem_produced {xs : List String} {x : String}
    (h : Content.var x ∈ produced xs s) : x ∈ xs := by
  rw [← map_primary_produced xs s]
  exact List.mem_map.2 ⟨_, h, rfl⟩

/-- The schema stays the one of a pattern. -/
theorem OfPattern.pushAll_produced (hs : s.OfPattern) (xs : List String) :
    (s.pushAll (produced xs s)).OfPattern := by
  refine hs.pushAll (fun c hc => isStructural_of_mem_produced hc) ?_
  intro c hc
  refine var_mem_produced hs.valid ?_
  rw [← map_primary_produced xs s]
  exact List.mem_map.2 ⟨c, hc, rfl⟩

/-- Following binds the produced variables and no others. -/
theorem Valid.hasVariable_pushAll_produced (hs : s.Valid) {xs : List String} {x : String} :
    (s.pushAll (produced xs s)).hasVariable x = true ↔ s.hasVariable x = true ∨ x ∈ xs := by
  rw [hs.hasVariable_pushAll]
  constructor
  · rintro (h | h)
    · exact Or.inl h
    · exact Or.inr (mem_of_var_mem_produced h)
  · rintro (h | h)
    · exact Or.inl h
    · rw [← hs.hasVariable_pushAll, (hs.pushAll _).hasVariable_iff, contents_pushAll]
      exact var_mem_produced hs h

/-- A pair consists of the column of a variable and of a later scratch column for it. -/
theorem contents_of_mem_bindProduced (hs : s.Valid) {xs : List String} {known position : Nat}
    (h : (known, position) ∈ (bindProduced xs s.width s).2) :
    ∃ x, (s.contents ++ produced xs s)[known]? = some (.var x) ∧
      (s.contents ++ produced xs s)[position]? = some (.scratch x) := by
  induction xs generalizing s with
  | nil => cases h
  | cons x xs ih =>
    cases hx : s.varColumn? x with
    | some column =>
      have hprod : produced (x :: xs) s = .scratch x :: produced xs (s.push (.scratch x)) := by
        rw [produced, if_pos (hasVariable_of_varColumn? hx)]
        rfl
      rw [hprod]
      simp only [bindProduced, hx, List.mem_cons, Prod.mk.injEq] at h
      rcases h with ⟨rfl, rfl⟩ | h
      · have hc := hs.getElem?_of_varColumn? hx
        have hlt := (List.getElem?_eq_some_iff.1 hc).1
        refine ⟨x, by rw [List.getElem?_append_left hlt, hc], ?_⟩
        rw [List.getElem?_append_right (by simp), length_contents]
        simp
      · have hrest := ih (hs.push (.scratch x)) (by rw [width_push]; exact h)
        simpa using hrest
    | none =>
      have hprod : produced (x :: xs) s = .var x :: produced xs (s.push (.var x)) := by
        rw [produced, if_neg (by simp [hasVariable, hx])]
        rfl
      rw [hprod]
      simp only [bindProduced, hx] at h
      have hrest := ih (hs.push (.var x)) (by rw [width_push]; exact h)
      simpa using hrest

end Schema

namespace Plan

/-- The plan after a connection was followed from a column. -/
def follow (p : Plan) (c : Connection) (step : Traversal) (column : Nat) : Plan :=
  Plan.matchPairs
    { p.wrap (step.operator column) with
      schema := p.schema.pushAll (Schema.produced (step.produced c) p.schema) }
    (Schema.bindProduced (step.produced c) p.schema.width p.schema).2

/-- A connection can be followed exactly from a variable that is bound. -/
theorem exec_traverse (p : Plan) (c : Connection) (step : Traversal) :
    PlanM.exec (traverse c step) p =
      match p.schema.varColumn? (step.start c) with
      | none => .error (.notBound (step.start c))
      | some column => .ok ((), p.follow c step column) := by
  have hrun : PlanM.exec (traverse c step) p =
      PlanM.exec (match p.schema.varColumn? (step.start c) with
        | none => throw (.notBound (step.start c))
        | some column => set (Plan.matchPairs
            { p.wrap (step.operator column) with
              schema := (Schema.bindProduced (step.produced c) p.schema.width p.schema).1 }
            (Schema.bindProduced (step.produced c) p.schema.width p.schema).2)) p :=
    rfl
  rw [hrun]
  cases p.schema.varColumn? (step.start c) with
  | none => rfl
  | some column =>
    show PlanM.exec (set _) p = .ok ((), p.follow c step column)
    rw [follow, ← Schema.bindProduced_fst _ p.schema.width, PlanM.exec_set]

@[simp]
theorem schema_matchPairs (p : Plan) (pairs : List (Nat × Nat)) :
    (p.matchPairs pairs).schema = p.schema := by
  unfold matchPairs
  split <;> rfl

@[simp]
theorem schema_follow (p : Plan) (c : Connection) (step : Traversal) (column : Nat) :
    (p.follow c step column).schema =
      p.schema.pushAll (Schema.produced (step.produced c) p.schema) := by
  rw [follow, schema_matchPairs]

end Plan

namespace Traversal

/-- Start and produced variables together are the variables of the connection. -/
theorem mem_names_iff (c : Connection) (step : Traversal) {x : String} :
    x ∈ c.names ↔ x = step.start c ∨ x ∈ step.produced c := by
  rcases step with _ | _ | _ <;> simp [Connection.names, start, produced] <;> tauto

end Traversal

end GraphPlan
