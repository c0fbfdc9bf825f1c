import GraphPlan.Proofs.Plan.Aggregates

/-!
# The order in which aggregates are collected

Collecting the aggregates of expressions is one pass over the aggregates that stand in them, from
left to right (`extractList_eq`). At each of them, an aggregate with the same text was met before,
or it is new and gets an entry (`extract_eq_ok`). So the entries list the texts in the order in
which they are met first, and each of them is computed from the first aggregate with its text
(`lists_extractList`).
-/

namespace GraphPlan

namespace Expr

mutual

/-- The aggregates that stand in an expression, from left to right. What stands in the argument of
an aggregate is not looked at. -/
def aggregates : Expr → List Expr
  | aggregateAll kind => [aggregateAll kind]
  | aggregate kind arg => [aggregate kind arg]
  | binary _ lhs rhs => lhs.aggregates ++ rhs.aggregates
  | unary _ operand => operand.aggregates
  | call _ args => aggregatesList args
  | _ => []

/-- The aggregates that stand in several expressions. -/
def aggregatesList : List Expr → List Expr
  | [] => []
  | e :: es => e.aggregates ++ aggregatesList es

end

theorem aggregatesList_eq (es : List Expr) : aggregatesList es = es.flatMap aggregates := by
  induction es with
  | nil => rfl
  | cons e es ih => rw [aggregatesList, ih, List.flatMap_cons]

/-- Whether the top of an expression is an aggregate. -/
def isAggregate : Expr → Bool
  | aggregateAll _ => true
  | aggregate _ _ => true
  | _ => false

mutual

theorem isAggregate_of_mem (e : Expr) : ∀ t ∈ e.aggregates, t.isAggregate = true := by
  intro t ht
  cases e with
  | ref name | prop var name | hasLabel var label | labelOf var => cases ht
  | int value | decimal value | str value | bool value | null => cases ht
  | aggregateAll kind | aggregate kind arg =>
    rw [aggregates, List.mem_singleton] at ht
    rw [ht]
    rfl
  | unary op operand => exact isAggregate_of_mem operand t ht
  | binary op lhs rhs =>
    rw [aggregates, List.mem_append] at ht
    rcases ht with ht | ht
    · exact isAggregate_of_mem lhs t ht
    · exact isAggregate_of_mem rhs t ht
  | call func args => exact isAggregate_of_memList args t ht

theorem isAggregate_of_memList (es : List Expr) :
    ∀ t ∈ aggregatesList es, t.isAggregate = true := by
  intro t ht
  cases es with
  | nil => cases ht
  | cons e es =>
    rw [aggregatesList, List.mem_append] at ht
    rcases ht with ht | ht
    · exact isAggregate_of_mem e t ht
    · exact isAggregate_of_memList es t ht

end

variable {config : Config}

/-! ## One pass -/

theorem extractList_append (es fs : List Expr) :
    extractList config (es ++ fs) = extractList config es >>= fun _ => extractList config fs := by
  induction es with
  | nil => rw [List.nil_append, extractList, pure_bind]
  | cons e es ih => rw [List.cons_append, extractList, extractList, ih, bind_assoc]

theorem extractList_singleton (e : Expr) : extractList config [e] = e.extract config := by
  rw [extractList, extractList]
  exact bind_pure_unit

mutual

/-- Collecting from an expression is collecting from its aggregates. -/
theorem extract_eq (e : Expr) : e.extract config = extractList config e.aggregates := by
  cases e with
  | ref name | prop var name | hasLabel var label | labelOf var => rfl
  | int value | decimal value | str value | bool value | null => rfl
  | aggregateAll kind | aggregate kind arg => exact (extractList_singleton _).symm
  | unary op operand => exact extract_eq operand
  | binary op lhs rhs =>
    rw [extract, aggregates, extractList_append, extract_eq lhs, extract_eq rhs]
  | call func args => exact extractList_eq args

theorem extractList_eq (es : List Expr) :
    extractList config es = extractList config (aggregatesList es) := by
  cases es with
  | nil => rfl
  | cons e es =>
    rw [extractList, aggregatesList, extractList_append, extract_eq e, extractList_eq es]

end

/-! ## One aggregate -/

/-- The entry that an aggregate gets while the plan is `p`, and the plan afterwards. -/
inductive Computes (config : Config) (p : Plan) : Expr → AggregateInfo → Plan → Prop where
  /-- The rows are counted. -/
  | all : Computes config p (aggregateAll .count) ⟨.count, "*", none⟩ p
  /-- The argument gets a column. There is no aggregate in it. -/
  | argument {kind : AggregateKind} {arg : Expr} {column : Nat} {p' : Plan}
      (hflat : (arg.analyze .preGroup).usage.hasAggregates = false)
      (hcolumn : PlanM.exec (Plan.materialize config (arg.analyze .preGroup) none) p =
        .ok (column, p')) :
      Computes config p (aggregate kind arg) ⟨kind, arg.text, some column⟩ p'

theorem Computes.key_eq {p p' : Plan} {e : Expr} {a : AggregateInfo}
    (h : e.Computes config p a p') : a.key = e.text := by
  cases h with
  | all => rfl
  | argument =>
    rw [text]
    rfl

/-- At an aggregate, one with its text was met before, or it is new and gets an entry. -/
theorem extract_eq_ok {e : Expr} (he : e.isAggregate = true) {x y : Extraction}
    (h : outcome (e.extract config) x = .ok ((), y)) :
    x.contains e.text = true ∧ y = x ∨
      x.contains e.text = false ∧
        ∃ a p, e.Computes config x.plan a p ∧ y = Extraction.push { x with plan := p } a := by
  cases e with
  | aggregateAll kind =>
    rw [extract] at h
    unfold extractAll at h
    rw [outcome_bind, outcome_get, ok_bind] at h
    split at h
    · next hseen =>
      cases h
      exact Or.inl ⟨hseen, rfl⟩
    · next hnew =>
      cases kind with
      | count =>
        cases h
        exact Or.inr ⟨Bool.eq_false_iff.2 hnew, _, _, .all, rfl⟩
      | min | max | sum | avg => cases h
  | aggregate kind arg =>
    simp only [extract, extractOver, outcome_bind, outcome_get, ok_bind] at h
    split at h
    · next hseen =>
      cases h
      exact Or.inl ⟨hseen, rfl⟩
    · next hnew =>
      split at h
      · cases h
      · next hflat =>
        simp only [outcome_bind, Extraction.outcome_onPlan, outcome_modify, bind_assoc] at h
        obtain ⟨⟨column, p⟩, hcolumn, h⟩ := eq_ok_of_bind_eq_ok h
        cases h
        refine Or.inr ⟨Bool.eq_false_iff.2 hnew, _, p, ?_, rfl⟩
        exact .argument (Bool.eq_false_iff.2 hflat) hcolumn
  | _ => cases he

end Expr

/-! ## First occurrences -/

theorem eraseDups_concat {α : Type} [DecidableEq α] (l : List α) (a : α) :
    (l ++ [a]).eraseDups = if a ∈ l then l.eraseDups else l.eraseDups ++ [a] := by
  rw [List.eraseDups_append]
  split
  · next h => simp [List.removeAll, h]
  · next h => simp [List.removeAll, h, List.eraseDups_cons]

namespace Extraction

theorem contains_iff {x : Extraction} {text : String} :
    x.contains text = true ↔ text ∈ x.aggregates.map AggregateInfo.key := by
  simp [contains]

/-- What is there after the aggregates `es` were looked at one after the other, the plan being `p`
at first. -/
structure Lists (config : Config) (p : Plan) (es : List Expr) (y : Extraction) : Prop where
  /-- The entries are in the order in which their texts are met first. -/
  keys : y.aggregates.map AggregateInfo.key = (es.map Expr.text).eraseDups
  /-- Each of them is that of the first aggregate with its text, in the plan as it was then. -/
  first : ∀ a ∈ y.aggregates, ∃ before e after x p', es = before ++ e :: after ∧
    e.text ∉ before.map Expr.text ∧
    outcome (Expr.extractList config before) ⟨p, []⟩ = .ok ((), x) ∧ e.Computes config x.plan a p'

variable {config : Config} {p : Plan} {es : List Expr} {x y : Extraction}

/-- One aggregate more. -/
theorem Lists.concat (h : x.Lists config p es)
    (hx : outcome (Expr.extractList config es) ⟨p, []⟩ = .ok ((), x)) {e : Expr}
    (he : e.isAggregate = true) (hy : outcome (e.extract config) x = .ok ((), y)) :
    y.Lists config p (es ++ [e]) := by
  have hseen : x.contains e.text = true ↔ e.text ∈ es.map Expr.text := by
    rw [contains_iff, h.keys, List.mem_eraseDups]
  have hfirst : ∀ a ∈ x.aggregates, ∃ before e' after z p', es ++ [e] = before ++ e' :: after ∧
      e'.text ∉ before.map Expr.text ∧
      outcome (Expr.extractList config before) ⟨p, []⟩ = .ok ((), z) ∧
      e'.Computes config z.plan a p' := by
    intro a ha
    obtain ⟨before, e', after, z, p', rfl, hrest⟩ := h.first a ha
    exact ⟨before, e', after ++ [e], z, p', by simp, hrest⟩
  rcases Expr.extract_eq_ok he hy with ⟨hmet, rfl⟩ | ⟨hnew, a, p', ha, rfl⟩
  · refine ⟨?_, hfirst⟩
    rw [h.keys, List.map_append, List.map_singleton, eraseDups_concat, if_pos (hseen.1 hmet)]
  · have hnot : e.text ∉ es.map Expr.text := by
      intro hmem
      rw [hseen.2 hmem] at hnew
      cases hnew
    constructor
    · rw [List.map_append, List.map_singleton, eraseDups_concat, if_neg hnot, ← h.keys,
        ← ha.key_eq]
      exact List.map_append
    · intro b hb
      rcases List.mem_append.1 hb with hb | hb
      · exact hfirst b hb
      · rw [List.mem_singleton.1 hb]
        exact ⟨es, e, [], x, p', rfl, hnot, hx, ha⟩

/-- Collecting the aggregates of several expressions. -/
theorem lists_extractList (hes : ∀ e ∈ es, e.isAggregate = true)
    (h : outcome (Expr.extractList config es) ⟨p, []⟩ = .ok ((), y)) : y.Lists config p es := by
  induction es using List.reverseRecOn generalizing y with
  | nil =>
    cases h
    exact ⟨rfl, fun a ha => by cases ha⟩
  | append_singleton es e ih =>
    rw [Expr.extractList_append, Expr.extractList_singleton, outcome_bind] at h
    obtain ⟨⟨⟨⟩, x⟩, hx, hy⟩ := eq_ok_of_bind_eq_ok h
    have hlists := ih (fun e' he' => hes e' (List.mem_append_left _ he')) hx
    exact hlists.concat hx (hes e (by simp)) hy

end Extraction

end GraphPlan
