import GraphPlan.Plan.Aggregates
import GraphPlan.Proofs.Expr.Usage
import GraphPlan.Proofs.Plan.Materialize
import Mathlib.Data.List.Nodup

/-!
# Collecting aggregates

Collecting the aggregates of an expression widens the plan and adds aggregates to the list. Every
aggregate that the expression reads is in the list afterwards, the columns of their arguments exist,
and the list stays empty exactly when the expression contains no aggregate (`meets_extractList`).
No aggregate gets into the list twice (`distinct_extract`).
-/

namespace GraphPlan

namespace Expr

mutual

/-- Whether an aggregate stands somewhere in the expression. -/
def containsAggregate : Expr → Bool
  | aggregateAll _ => true
  | aggregate _ _ => true
  | binary _ lhs rhs => lhs.containsAggregate || rhs.containsAggregate
  | unary _ operand => operand.containsAggregate
  | call _ args => anyContainsAggregate args
  | _ => false

/-- Whether an aggregate stands in one of several expressions. -/
def anyContainsAggregate : List Expr → Bool
  | [] => false
  | e :: es => e.containsAggregate || anyContainsAggregate es

end

end Expr

namespace Extraction

variable {config : Config} {x y z : Extraction}

/-- The arguments of the aggregates have columns. -/
def InRange (x : Extraction) : Prop :=
  ∀ a ∈ x.aggregates, ∀ i, a.column = some i → i < x.plan.schema.width

/-- The plan was widened, and no aggregate was lost. -/
structure Collects (config : Config) (x y : Extraction) : Prop where
  /-- The plan was widened. -/
  widens : Plan.Widens config x.plan y.plan
  /-- The aggregates that there were are still there. -/
  keeps : ∀ key, x.contains key = true → y.contains key = true
  /-- Arguments keep their columns. -/
  inRange : x.InRange → y.InRange

theorem Collects.refl (x : Extraction) : x.Collects config x :=
  ⟨.refl, fun _ => id, id⟩

theorem Collects.trans (h : x.Collects config y) (h' : y.Collects config z) :
    x.Collects config z :=
  ⟨h.widens.trans h'.widens, fun key hkey => h'.keeps key (h.keeps key hkey),
    fun hx => h'.inRange (h.inRange hx)⟩

theorem contains_push (x : Extraction) (a : AggregateInfo) (key : String) :
    (x.push a).contains key = true ↔ x.contains key = true ∨ a.key = key := by
  simp [contains, push]

theorem aggregates_ne_nil {key : String} (h : x.contains key = true) : x.aggregates ≠ [] := by
  intro hnil
  simp [contains, hnil] at h

/-- An aggregate is added after its argument was given a column. -/
theorem Collects.push {p : Plan} {a : AggregateInfo} (hp : Plan.Widens config x.plan p)
    (ha : ∀ i, a.column = some i → i < p.schema.width) :
    x.Collects config (push { x with plan := p } a) where
  widens := hp
  keeps := fun key hkey => (contains_push _ a key).2 (Or.inl hkey)
  inRange := by
    intro hx b hb i hi
    rcases List.mem_append.1 hb with hb | hb
    · exact Nat.lt_of_lt_of_le (hx b hb i hi) hp.keeps.width_le
    · rw [List.mem_singleton.1 hb] at hi
      exact ha i hi

theorem outcome_onPlan {α : Type} (act : PlanM α) (x : Extraction) :
    outcome (onPlan act) x =
      PlanM.exec act x.plan >>= fun y => .ok (y.1, { x with plan := y.2 }) := by
  simp only [outcome, onPlan, PlanM.exec]
  cases act x.plan <;> rfl

end Extraction

/-- What collecting the aggregates `texts` does, where `found` tells whether there are any. -/
structure Extraction.Gathers (config : Config) (texts : List String) (found : Bool)
    (x y : Extraction) : Prop extends Extraction.Collects config x y where
  /-- The aggregates are in the list. -/
  covers : ∀ text ∈ texts, y.contains text = true
  /-- The list stays empty exactly when there are none. -/
  nil_iff : y.aggregates = [] ↔ x.aggregates = [] ∧ found = false

namespace Extraction

variable {config : Config} {x y z : Extraction} {texts texts' : List String} {found found' : Bool}

theorem Gathers.none (x : Extraction) : x.Gathers config [] false x :=
  ⟨.refl x, nofun, by simp⟩

theorem Gathers.append (h : x.Gathers config texts found y)
    (h' : y.Gathers config texts' found' z) :
    x.Gathers config (texts ++ texts') (found || found') z where
  toCollects := h.toCollects.trans h'.toCollects
  covers := by
    intro text htext
    rcases List.mem_append.1 htext with htext | htext
    · exact h'.keeps text (h.covers text htext)
    · exact h'.covers text htext
  nil_iff := by
    rw [h'.nil_iff, h.nil_iff, Bool.or_eq_false_iff, and_assoc]

/-- An aggregate that is in the list. -/
theorem Gathers.single {text : String} (h : x.Collects config y) (hy : y.contains text = true) :
    x.Gathers config [text] true y where
  toCollects := h
  covers := by simpa using hy
  nil_iff := by simp [aggregates_ne_nil hy]

end Extraction

namespace Expr

variable {config : Config}

theorem meets_extractAll (kind : AggregateKind) (x : Extraction) :
    (outcome (extractAll kind) x).Meets
      (fun y => x.Gathers config [(aggregateAll kind).text] true y.2) PlanError.IsResolution := by
  unfold extractAll
  rw [outcome_bind, outcome_get, ok_bind]
  split
  · next hmem => exact .single (.refl x) hmem
  · cases kind with
    | count =>
      have hkey : aggregateText .count "*" = (aggregateAll .count).text := rfl
      have hpush : x.Collects config (x.push ⟨.count, "*", none⟩) := .push .refl nofun
      exact .single hpush ((Extraction.contains_push _ _ _).2 (Or.inr hkey))
    | min | max | sum | avg => exact PlanError.isResolution_unsupported _ _

theorem meets_extractOver {x : Extraction} (hx : x.plan.schema.Valid) (kind : AggregateKind)
    (arg : Expr) :
    (outcome (extractOver config kind arg) x).Meets
      (fun y => x.Gathers config [(aggregate kind arg).text] true y.2) PlanError.IsResolution := by
  simp only [extractOver, outcome_bind, outcome_get, ok_bind]
  split
  · next hmem => exact .single (.refl x) hmem
  · split
    · exact PlanError.isResolution_unsupported _ _
    · next hagg =>
      have hready : arg.Ready x.plan.schema := by
        rw [Expr.Ready, arg.aggregatesRead_eq_nil (Bool.eq_false_iff.2 hagg)]
        exact nofun
      simp only [outcome_bind, Extraction.outcome_onPlan, outcome_modify]
      have hcolumn :
          (PlanM.exec (Plan.materialize config (arg.analyze .preGroup) none) x.plan).Meets
          _ _ := Plan.meets_materialize none hx hready
      cases hm : PlanM.exec (Plan.materialize config (arg.analyze .preGroup) none) x.plan with
      | error e => exact hcolumn.failure hm
      | ok m =>
        obtain ⟨hwidens, hlt⟩ := hcolumn.result hm
        refine Extraction.Gathers.single (.push hwidens fun i hi => ?_)
          ((Extraction.contains_push _ _ _).2 (Or.inr ?_))
        · cases hi
          exact hlt
        · rw [text]
          rfl

mutual

/-- Collecting the aggregates of an expression. -/
theorem meets_extract (e : Expr) {x : Extraction} (hx : x.plan.schema.Valid) :
    (outcome (e.extract config) x).Meets
      (fun y => x.Gathers config e.aggregatesRead e.containsAggregate y.2)
      PlanError.IsResolution := by
  cases e with
  | ref name | prop var name | hasLabel var label | labelOf var => exact .none x
  | int value | decimal value | str value | bool value | null => exact .none x
  | aggregateAll kind => exact meets_extractAll kind x
  | aggregate kind arg => exact meets_extractOver hx kind arg
  | unary op operand => exact meets_extract operand hx
  | binary op lhs rhs =>
    rw [extract, outcome_bind]
    refine (meets_extract lhs hx).bind fun y hy => ?_
    exact (meets_extract rhs (hy.widens.keeps.valid hx)).mono (fun z hz => hy.append hz) fun _ => id
  | call func args =>
    rw [extract]
    refine (meets_extractList args hx).mono (fun y hy => ?_) fun _ => id
    exact ⟨hy.toCollects, nofun, hy.nil_iff⟩

/-- Collecting the aggregates of several expressions. -/
theorem meets_extractList (es : List Expr) {x : Extraction} (hx : x.plan.schema.Valid) :
    (outcome (extractList config es) x).Meets
      (fun y => x.Gathers config (es.flatMap aggregatesRead) (anyContainsAggregate es) y.2)
      PlanError.IsResolution := by
  cases es with
  | nil => exact .none x
  | cons e es =>
    rw [extractList, outcome_bind]
    refine (meets_extract e hx).bind fun y hy => ?_
    exact (meets_extractList es (hy.widens.keeps.valid hx)).mono (fun z hz => hy.append hz)
      fun _ => id

end

end Expr

/-! ## Different texts -/

namespace Extraction

/-- No two of the aggregates have the same text. -/
def Distinct (x : Extraction) : Prop :=
  (x.aggregates.map AggregateInfo.key).Nodup

theorem Distinct.push {x : Extraction} {a : AggregateInfo} (h : x.Distinct)
    (ha : x.contains a.key = false) : (x.push a).Distinct := by
  have hnew : a.key ∉ x.aggregates.map AggregateInfo.key := by
    intro hmem
    obtain ⟨b, hb, hkey⟩ := List.mem_map.1 hmem
    rw [contains, List.any_eq_false] at ha
    exact ha b hb (by simpa using hkey)
  unfold Distinct Extraction.push
  rw [List.map_append, List.nodup_append]
  refine ⟨h, List.nodup_singleton _, fun k hk l hl heq => ?_⟩
  rw [List.mem_singleton.1 hl] at heq
  exact hnew (heq ▸ hk)

end Extraction

namespace Expr

variable {config : Config}

theorem distinct_extractAll (kind : AggregateKind) {x : Extraction} (hx : x.Distinct) :
    (outcome (extractAll kind) x).Meets (fun y => y.2.Distinct) fun _ => True := by
  unfold extractAll
  rw [outcome_bind, outcome_get, ok_bind]
  split
  · exact hx
  · next hnew =>
    cases kind with
    | count => exact hx.push (Bool.eq_false_iff.2 hnew)
    | min | max | sum | avg => trivial

theorem distinct_extractOver (kind : AggregateKind) (arg : Expr) {x : Extraction}
    (hx : x.Distinct) :
    (outcome (extractOver config kind arg) x).Meets (fun y => y.2.Distinct) fun _ => True := by
  simp only [extractOver, outcome_bind, outcome_get, ok_bind]
  split
  · exact hx
  · next hnew =>
    split
    · trivial
    · simp only [outcome_bind, Extraction.outcome_onPlan, outcome_modify]
      cases PlanM.exec (Plan.materialize config (arg.analyze .preGroup) none) x.plan with
      | error e => trivial
      | ok m =>
        have hplan : ({ x with plan := m.2 } : Extraction).Distinct := hx
        refine hplan.push ?_
        rw [text] at hnew
        exact Bool.eq_false_iff.2 hnew

mutual

/-- Collecting aggregates adds none that is there already. -/
theorem distinct_extract (e : Expr) {x : Extraction} (hx : x.Distinct) :
    (outcome (e.extract config) x).Meets (fun y => y.2.Distinct) fun _ => True := by
  cases e with
  | ref name | prop var name | hasLabel var label | labelOf var => exact hx
  | int value | decimal value | str value | bool value | null => exact hx
  | aggregateAll kind => exact distinct_extractAll kind hx
  | aggregate kind arg => exact distinct_extractOver kind arg hx
  | unary op operand => exact distinct_extract operand hx
  | binary op lhs rhs =>
    rw [extract, outcome_bind]
    exact (distinct_extract lhs hx).bind fun y hy => distinct_extract rhs hy
  | call func args =>
    rw [extract]
    exact distinct_extractList args hx

theorem distinct_extractList (es : List Expr) {x : Extraction} (hx : x.Distinct) :
    (outcome (extractList config es) x).Meets (fun y => y.2.Distinct) fun _ => True := by
  cases es with
  | nil => exact hx
  | cons e es =>
    rw [extractList, outcome_bind]
    exact (distinct_extract e hx).bind fun y hy => distinct_extractList es hy

end

end Expr

end GraphPlan
