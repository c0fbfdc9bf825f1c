import GraphPlan.Proofs.Planner.Similar

/-!
# The words of a dialect

A configuration holds the words in which dialects of the algebra differ: the scope of attributes, the
type of joins and the declared type of computed columns. `PlanNode.inWords` puts a tree into the
words of a configuration, and `PlanNode.wordless` leaves all of them out. Under two configurations a
query is planned in step; since its data are the same both times, the two trees are one tree in
different words.
-/

namespace GraphPlan

open Except (Related)

/-! ## Trees in the words of a configuration -/

/-- The operator in the words of a configuration. -/
def Operator.inWords (config : Config) : Operator → Operator
  | .scanAttribute _ attr op value => .scanAttribute config.attributeScope attr op value
  | .getAttributes object _ attrs => .getAttributes object config.attributeScope attrs
  | .join predicate _ => .join predicate config.joinType
  | .extend _ value => .extend config.extendResultType value
  | op => op

theorem Operator.inWords_inWords (config config' : Config) (op : Operator) :
    (op.inWords config).inWords config' = op.inWords config' := by
  cases op <;> rfl

namespace PlanNode

mutual

/-- The tree in the words of a configuration. -/
def inWords (config : Config) : PlanNode → PlanNode
  | node op inputs => node (op.inWords config) (inWordsList config inputs)

/-- Several trees in the words of a configuration. -/
def inWordsList (config : Config) : List PlanNode → List PlanNode
  | [] => []
  | input :: rest => input.inWords config :: inWordsList config rest

end

mutual

/-- Only the last words count. -/
theorem inWords_inWords (config config' : Config) (t : PlanNode) :
    (t.inWords config).inWords config' = t.inWords config' := by
  cases t with
  | node op inputs =>
    rw [inWords, inWords, inWords, op.inWords_inWords, inWordsList_inWordsList config config' inputs]

theorem inWordsList_inWordsList (config config' : Config) (ts : List PlanNode) :
    inWordsList config' (inWordsList config ts) = inWordsList config' ts := by
  cases ts with
  | nil => rfl
  | cons t ts =>
    rw [inWordsList, inWordsList, inWordsList, inWords_inWords config config' t,
      inWordsList_inWordsList config config' ts]

end

/-- The tree with all words of its dialect left out. -/
def wordless (t : PlanNode) : PlanNode :=
  t.inWords ⟨"", "", "", none⟩

theorem wordless_inWords (config : Config) (t : PlanNode) :
    (t.inWords config).wordless = t.wordless :=
  inWords_inWords config _ t

end PlanNode

/-! ## Similar trees with the same data -/

section Rigid

variable {left right : Config} {R : Datum → Datum → Prop}

/-- Where data are related only to themselves, similar scalars are equal. -/
theorem Scalar.Similar.eq (hR : Expr.Rigid R) {t t' : Scalar} (h : Scalar.Similar R t t') :
    t = t' := by
  induction h with
  | column | int | bool => rfl
  | decimal h | str h | isLabel _ h =>
    cases hR _ _ h
    rfl
  | binary op _ _ ihl ihr => rw [ihl, ihr]
  | unary op _ ih => rw [ih]

theorem ScanValue.Similar.eq (hR : Expr.Rigid R) {v v' : ScanValue}
    (h : ScanValue.Similar R v v') : v = v' := by
  cases h with
  | int | bool => rfl
  | str h | decimal h =>
    cases hR _ _ h
    rfl

/-- Where data are related only to themselves, similar operators differ in their words only. -/
theorem Operator.Similar.eq_inWords (hR : Expr.Rigid R) {op op' : Operator}
    (h : op.Similar left right R op') : op' = op.inWords right := by
  cases h with
  | scanLabel h =>
    cases hR _ _ h
    rfl
  | scanAttribute op _ h =>
    cases h.eq hR
    rfl
  | select h | join h | extend h =>
    cases h.eq hR
    rfl
  | _ => rfl

theorem PlanNode.Similar.eq_inWords (hR : Expr.Rigid R) {t t' : PlanNode}
    (h : t.Similar left right R t') : t' = t.inWords right := by
  induction h with
  | leaf hop _ =>
    rw [hop.eq_inWords hR]
    rfl
  | wrap hop _ _ ih =>
    rw [hop.eq_inWords hR, ih]
    rfl
  | combine hop _ _ _ iht ihu =>
    rw [hop.eq_inWords hR, iht, ihu]
    rfl

theorem Failure.Alike.eq (hR : Expr.Rigid R) {f f' : Failure} (h : Failure.Alike R f f') :
    f = f' := by
  obtain ⟨stage, error⟩ := f
  obtain ⟨stage', error'⟩ := f'
  obtain ⟨hstage, herror⟩ := h
  cases hstage
  cases herror hR
  rfl

end Rigid

/-- Under two configurations a query fails at the same stage for the same cause, or it has plans with
the same columns and with trees that are the same once their words are left out: the second tree is
the first one in the words of the second configuration. -/
theorem Query.plan_differs_in_words_only (left right : Config) (q : Query) :
    (∃ failure, q.plan left = .error failure ∧ q.plan right = .error failure) ∨
      ∃ p p', q.plan left = .ok p ∧ q.plan right = .ok p' ∧ p.schema = p'.schema ∧
        p.root.wordless = p'.root.wordless ∧ p'.root = p.root.inWords right := by
  have hsame : q.Similar Eq q := Query.Similar.refl q fun _ _ => rfl
  have hrigid : Expr.Rigid Eq := fun _ _ h => h
  have hrelated := q.related_plan left right hsame
  cases hp : q.plan left with
  | error failure =>
    cases hp' : q.plan right with
    | error failure' =>
      rw [hp, hp'] at hrelated
      exact .inl ⟨failure, rfl, by rw [Failure.Alike.eq hrigid hrelated]⟩
    | ok p' =>
      rw [hp, hp'] at hrelated
      exact hrelated.elim
  | ok p =>
    obtain ⟨p', hp', hsimilar⟩ := hrelated.exists_ok hp
    have hroot := hsimilar.root.eq_inWords hrigid
    refine .inr ⟨p, p', rfl, hp', hsimilar.schema, ?_, hroot⟩
    rw [hroot, PlanNode.wordless_inWords]

end GraphPlan
