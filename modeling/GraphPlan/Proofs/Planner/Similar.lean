import GraphPlan.Planner.Basic
import GraphPlan.Proofs.Constraint
import GraphPlan.Proofs.Plan.Similar
import GraphPlan.Proofs.Planner.Result
import Mathlib.Data.List.Forall2

/-!
# Planning queries that differ in their data

Two queries with the same pattern and with filters that are built alike are planned in step, under
any two configurations: the same filters start plans, wait, join and are left over, and the plans
stay similar all the way. `Query.related_plan` says so of the whole of planning. What may differ is
said by the relation between data, so that one proof serves several purposes: with equality it
compares configurations, with any two strings it compares queries, and with one query on both sides
it says what the data of a plan are.
-/

namespace GraphPlan

open Except (Related)
open List (Forall₂)

variable {left right : Config} {R : Datum → Datum → Prop}

/-- Related options are both empty or both filled. -/
theorem rel_cases {α β : Type} {S : α → β → Prop} {x : Option α} {y : Option β}
    (h : Option.Rel S x y) :
    (x = none ∧ y = none) ∨ ∃ a b, x = some a ∧ y = some b ∧ S a b := by
  cases h with
  | none => exact .inl ⟨rfl, rfl⟩
  | some h => exact .inr ⟨_, _, rfl, rfl, h⟩

/-- Related lists give related picks. -/
theorem rel_pick? {α β : Type} {S : α → α → Prop} {f g : α → Option β}
    (hfg : ∀ a b, S a b → f a = g b) {l l' : List α} (h : Forall₂ S l l') :
    Option.Rel (fun x y => S x.1 y.1 ∧ x.2.1 = y.2.1 ∧ Forall₂ S x.2.2 y.2.2) (pick? f l)
      (pick? g l') := by
  induction h with
  | nil => exact .none
  | @cons a b l l' hab hl ih =>
    rw [pick?, pick?, hfg a b hab]
    cases g b with
    | some y => exact .some ⟨hab, rfl, hl⟩
    | none =>
      obtain ⟨hx, hy⟩ | ⟨x, y, hx, hy, hxy⟩ := rel_cases ih
      · rw [hx, hy]
        exact .none
      · rw [hx, hy]
        exact .some ⟨hxy.1, hxy.2.1, .cons hab hxy.2.2⟩

/-! ## Filters -/

namespace Expr

theorem Similar.rel_scanValue? {e e' : Expr} (h : Similar R e e') :
    Option.Rel (ScanValue.Similar R) e.scanValue? e'.scanValue? := by
  cases h with
  | str h => exact .some (.str h)
  | int value => exact .some (.int value)
  | decimal h => exact .some (.decimal h)
  | bool value => exact .some (.bool value)
  | _ => exact .none

theorem Similar.rel_comparisonScan? (op : BinaryOp) {lhs rhs lhs' rhs' : Expr}
    (hl : Similar R lhs lhs') (hr : Similar R rhs rhs') :
    Option.Rel (fun a b => a.Similar left right R b ∧ a.arity = 0)
      (Constraint.comparisonScan? left.attributeScope op lhs rhs)
      (Constraint.comparisonScan? right.attributeScope op lhs' rhs') := by
  cases hl with
  | prop var hattr =>
    unfold Constraint.comparisonScan?
    cases op.comparison? with
    | none => exact .none
    | some c =>
      obtain ⟨hx, hy⟩ | ⟨value, value', hx, hy, hvalue⟩ := rel_cases hr.rel_scanValue?
      · rw [hx, hy]
        exact .none
      · rw [hx, hy]
        exact .some ⟨.scanAttribute c hattr hvalue, rfl⟩
  | _ => exact .none

end Expr

namespace Constraint

/-- Filters with similar expressions and the same links. A test for a label tests for one label. -/
structure Similar (R : Datum → Datum → Prop) (c c' : Constraint) : Prop where
  expr : Expr.Similar R c.expr c'.expr
  usage : Usage.Alike R c.usage c'.usage
  linked : c.linked = c'.linked
  aggregates : c.expr.aggregatesRead = []
  single : ∀ var label, c.expr = .hasLabel var label → c.usage.labels.size ≤ 1
  single' : ∀ var label, c'.expr = .hasLabel var label → c'.usage.labels.size ≤ 1

variable {c c' : Constraint}

theorem labels_promote (u : Usage) (r : Registry) : (u.promote r).labels = u.labels := by
  unfold Usage.promote
  generalize u.refs.names.filter r.contains = names
  induction names generalizing u with
  | nil => rfl
  | cons name names ih => exact ih (u.touch name id)

theorem related_ofExpr {e e' : Expr} (h : Expr.Similar R e e') (r : Registry) :
    Related (Similar R) (PlanError.Alike R) (ofExpr e r) (ofExpr e' r) := by
  have hu := h.analyze .preGroup
  have hsingle : ∀ (e : Expr) var label, e = .hasLabel var label →
      ((e.analyze .preGroup).usage.promote r).labels.size ≤ 1 := by
    intro e var label he
    rw [labels_promote, he]
    exact Nat.le_refl 1
  simp only [ofExpr, hu.hasAggregates]
  split
  · exact h.related_unsupported _
  · next hnone =>
    rw [← hu.hasAggregates] at hnone
    exact ⟨h, hu.promote r, rfl, e.aggregatesRead_eq_nil (by simpa [Expr.analyze] using hnone),
      hsingle e, hsingle e'⟩

namespace Similar

theorem subject? (h : c.Similar R c') : c.subject? = c'.subject? := by
  unfold Constraint.subject?
  rw [h.usage.vars]

/-- Similar filters amount to similar scans, if they are basic. -/
theorem rel_scan? (h : c.Similar R c') (left right : Config) :
    Option.Rel (fun a b => a.Similar left right R b ∧ a.arity = 0) (c.scan? left.attributeScope)
      (c'.scan? right.attributeScope) := by
  -- usages may record different labels; all that counts here is whether there are any, and for a
  -- label test that there is no second one
  obtain ⟨hexpr, husage, -, -, hsingle, hsingle'⟩ := h
  have hlabels := husage.labels
  unfold Constraint.scan?
  rw [husage.vars]
  split
  · generalize c.expr = e at hexpr hsingle
    generalize c'.expr = e' at hexpr hsingle'
    generalize c.usage.labels.size = n at hlabels hsingle
    generalize c'.usage.labels.size = n' at hlabels hsingle'
    cases hexpr with
    | hasLabel var h =>
      rw [if_neg (Nat.not_lt.2 (hsingle _ _ rfl)), if_neg (Nat.not_lt.2 (hsingle' _ _ rfl))]
      exact .some ⟨.scanLabel h, rfl⟩
    | binary op hl hr =>
      by_cases hzero : n = 0
      · simp only [hzero, hlabels.1 hzero]
        split
        · exact .none
        · split
          · exact hl.rel_comparisonScan? op hr
          · exact .none
      · have hzero' : n' ≠ 0 := fun h => hzero (hlabels.2 h)
        simp only [hzero, hzero', false_and, if_false, ite_self]
        exact .none
    | _ =>
      rw [ite_self, ite_self]
      exact .none
  · exact .none

theorem isBasic (h : c.Similar R c') : c.isBasic = c'.isBasic := by
  rw [← c.isSome_scan? (default : Config).attributeScope,
    ← c'.isSome_scan? (default : Config).attributeScope]
  obtain ⟨hx, hy⟩ | ⟨op, op', hx, hy, -⟩ := rel_cases (h.rel_scan? default default)
  · rw [hx, hy]
  · rw [hx, hy, Option.isSome_some, Option.isSome_some]

theorem link (h : c.Similar R c') (groups : List Component) :
    (c.link groups).Similar R (c'.link groups) where
  expr := h.expr
  usage := h.usage
  linked := by
    unfold Constraint.link Constraint.touches
    rw [h.usage.vars]
  aggregates := h.aggregates
  single := h.single
  single' := h.single'

theorem replaceGroup (h : c.Similar R c') (absorbed survivor : GroupId) :
    (c.replaceGroup absorbed survivor).Similar R (c'.replaceGroup absorbed survivor) :=
  ⟨h.expr, h.usage, congrArg (replaceLink absorbed survivor) h.linked, h.aggregates, h.single,
    h.single'⟩

theorem markAvailable (h : c.Similar R c') (vars : List String) :
    (c.markAvailable vars).Similar R (c'.markAvailable vars) :=
  ⟨h.expr, h.usage.markAvailable vars, h.linked, h.aggregates, h.single, h.single'⟩

/-- Errors that name similar filters. -/
theorem alike_error (h : c.Similar R c') (f : Expr → PlanError) :
    PlanError.Alike R (f c.expr) (f c'.expr) := by
  intro hR
  rw [h.expr.eq hR]

/-- Similar basic filters start similar plans. -/
theorem rel_seed? (h : c.Similar R c') :
    Option.Rel (Plan.Similar left right R) (c.seed? left) (c'.seed? right) := by
  unfold Constraint.seed?
  rw [h.subject?]
  obtain ⟨hx, hy⟩ | ⟨op, op', hx, hy, hop⟩ := rel_cases (h.rel_scan? left right)
  · rw [hx, hy]
    exact .none
  · rw [hx, hy]
    cases c'.subject? with
    | none => exact .none
    | some var => exact .some ⟨rfl, .leaf hop.1 hop.2⟩

theorem agree_apply (h : c.Similar R c') :
    Agree R (Plan.Similar left right R) (fun _ _ => True) (c.apply left) (c'.apply right) := by
  refine (agree_modify fun p p' hp => hp.fetch h.usage).bind fun _ _ _ => ?_
  refine agree_get.bind fun p p' hp => ?_
  rw [hp.schema]
  refine (PlanM.agree_ofExcept (h.expr.resolve _ (Or.inl h.aggregates))).bind fun t t' ht => ?_
  exact agree_modify fun q q' hq => hq.wrap (.select ht) rfl

theorem agree_applyJoin (h : c.Similar R c') {p p' : Plan} (hp : p.Similar left right R p') :
    Agree R (Plan.Similar left right R) (fun _ _ => True) (c.applyJoin left p)
      (c'.applyJoin right p') := by
  have hfetched := hp.fetch h.usage
  -- both sides fetch before the filter is resolved, so it is resolved against the same two schemas
  refine (agree_modify fun p p' hp => hp.fetch h.usage).bind fun _ _ _ => ?_
  refine agree_get.bind fun q q' hq => ?_
  rw [hq.schema, hfetched.schema]
  refine (PlanM.agree_ofExcept (h.expr.resolve _ (Or.inl h.aggregates))).bind fun t t' ht => ?_
  refine (PlanM.agree_onSchema _).bind fun _ _ _ => ?_
  exact agree_modify fun q q' hq => hq.combine (.join ht) rfl hfetched.root

end Similar

end Constraint

/-! ## Components -/

/-- The same component with similar plans. -/
structure Component.Similar (left right : Config) (R : Datum → Datum → Prop) (g g' : Component) :
    Prop where
  id : g.id = g'.id
  connections : g.connections = g'.connections
  vars : g.vars = g'.vars
  plan : Option.Rel (Plan.Similar left right R) g.plan g'.plan

namespace Component.Similar

variable {g g' h h' : Component}

theorem setPlan (g : Component) {p p' : Plan} (hp : p.Similar left right R p') :
    (g.setPlan p).Similar left right R (g.setPlan p') :=
  ⟨rfl, rfl, rfl, .some hp⟩

theorem related_takePlan (hg : g.Similar left right R g') :
    Related (fun x y => x.1.Similar left right R y.1 ∧ x.2 = y.2) (PlanError.Alike R) g.takePlan
      g'.takePlan := by
  obtain ⟨id, connections, vars, plan⟩ := g
  obtain ⟨id', connections', vars', plan'⟩ := g'
  obtain ⟨rfl, rfl, rfl, hplan⟩ := hg
  dsimp only at hplan
  cases hplan with
  | none => exact PlanError.Alike.refl _
  | some hp => exact ⟨hp, rfl⟩

theorem absorb (hg : g.Similar left right R g') (other : Component) :
    (g.absorb other).Similar left right R (g'.absorb other) where
  id := hg.id
  connections := congrArg (· ++ other.connections) hg.connections
  vars := congrArg (addNames · other.vars) hg.vars
  plan := hg.plan

end Component.Similar

/-! ## Plans of components -/

namespace Plan

theorem agree_traverse (c : Connection) (step : Traversal) :
    Agree R (Plan.Similar left right R) (fun _ _ => True) (traverse c step) (traverse c step) := by
  refine agree_get.bind fun p p' hp => ?_
  rw [hp.schema]
  dsimp only
  split
  · exact agree_throw (PlanError.Alike.refl _)
  · next column _ =>
    have hop : (step.operator column).Similar left right R (step.operator column) ∧
        (step.operator column).arity = 1 := by
      cases step with
      | byEdge => exact ⟨.adjacent column, rfl⟩
      | byNode direction => exact ⟨.explode column direction, rfl⟩
    have hnext := ((hp.wrap hop.1 hop.2).withSchema
      (Schema.bindProduced (step.produced c) p'.schema.width p'.schema).1)
    refine agree_set ?_
    unfold matchPairs
    split
    · exact hnext
    · exact hnext.wrap (.matchColumns _) rfl

end Plan

namespace PlannerState

variable {cs cs' : List Constraint}

theorem rel_firstWith? {f g : Constraint → Bool} (hfg : ∀ c c', c.Similar R c' → f c = g c')
    (h : Forall₂ (Constraint.Similar R) cs cs') :
    Option.Rel (fun x y => x.1.Similar R y.1 ∧ Forall₂ (Constraint.Similar R) x.2 y.2)
      (firstWith? f cs) (firstWith? g cs') := by
  have hpick := rel_pick? (f := fun c => if f c then some () else none)
    (g := fun c => if g c then some () else none) (fun c c' hc => by rw [hfg c c' hc]) h
  unfold firstWith?
  obtain ⟨hx, hy⟩ | ⟨x, y, hx, hy, hxy⟩ := rel_cases hpick
  · rw [hx, hy]
    exact .none
  · rw [hx, hy]
    exact .some ⟨hxy.1, hxy.2.2⟩

theorem rel_seedFilter? (r : Registry) (g : Component) (h : Forall₂ (Constraint.Similar R) cs cs') :
    Option.Rel (fun x y => x.1.Similar R y.1 ∧ Forall₂ (Constraint.Similar R) x.2 y.2)
      (seedFilter? r g cs) (seedFilter? r g cs') := by
  have hseed : ∀ c c' : Constraint, c.Similar R c' → canSeed g c = canSeed g c' := by
    intro c c' hc
    rw [canSeed, canSeed, hc.isBasic, hc.subject?]
  have hedge : ∀ c c' : Constraint, c.Similar R c' →
      (canSeed g c && onEdge r c) = (canSeed g c' && onEdge r c') := by
    intro c c' hc
    rw [hseed c c' hc, onEdge, onEdge, hc.subject?]
  unfold seedFilter?
  obtain ⟨hx, hy⟩ | ⟨x, y, hx, hy, hxy⟩ := rel_cases (rel_firstWith? hedge h)
  · rw [hx, hy]
    exact rel_firstWith? hseed h
  · rw [hx, hy]
    exact .some hxy

/-- A plan and the filters that remain. -/
theorem related_seed (r : Registry) (g : Component) (h : Forall₂ (Constraint.Similar R) cs cs') :
    Related (fun x y => x.1.Similar left right R y.1 ∧ Forall₂ (Constraint.Similar R) x.2 y.2)
      (PlanError.Alike R) (seed left r g cs) (seed right r g cs') := by
  unfold seed
  obtain ⟨hx, hy⟩ | ⟨⟨c, rest⟩, ⟨c', rest'⟩, hx, hy, hc, hrest⟩ := rel_cases (rel_seedFilter? r g h)
  · rw [hx, hy]
    cases g.firstNode? r with
    | none => exact PlanError.Alike.refl _
    | some var => exact ⟨⟨rfl, .leaf .scanNodes rfl⟩, h⟩
  · rw [hx, hy]
    dsimp only
    have hplan : Option.Rel (Plan.Similar left right R) (c.seed? left) (c'.seed? right) :=
      Constraint.Similar.rel_seed? hc
    obtain ⟨hp, hp'⟩ | ⟨p, p', hp, hp', hpp'⟩ := rel_cases hplan
    · rw [hp, hp']
      exact hc.alike_error .cannotSeed
    · rw [hp, hp']
      exact ⟨hpp', hrest⟩

theorem agree_applyReady (g : GroupId) (added : List String)
    (h : Forall₂ (Constraint.Similar R) cs cs') :
    Agree R (Plan.Similar left right R) (Forall₂ (Constraint.Similar R))
      (applyReady left g added cs) (applyReady right g added cs') := by
  induction h with
  | nil => exact agree_pure .nil
  | @cons c c' cs cs' hc hcs ih =>
    have hmarked := hc.markAvailable added
    have hready : ((c.markAvailable added).pending = 0 ∧ (c.markAvailable added).linked = [g]) ↔
        ((c'.markAvailable added).pending = 0 ∧ (c'.markAvailable added).linked = [g]) := by
      rw [Constraint.pending, Constraint.pending, hmarked.usage.pending, hmarked.linked]
    rw [applyReady, applyReady]
    by_cases hp : (c'.markAvailable added).pending = 0 ∧ (c'.markAvailable added).linked = [g]
    · rw [if_pos (hready.2 hp), if_pos hp]
      exact hmarked.agree_apply.bind fun _ _ _ => ih
    · rw [if_neg fun h => hp (hready.1 h), if_neg hp]
      exact ih.bind fun rest rest' hrest => agree_pure (.cons hmarked hrest)

theorem agree_growStep (g : GroupId) (conn : Connection) (step : Traversal)
    (h : Forall₂ (Constraint.Similar R) cs cs') :
    Agree R (Plan.Similar left right R) (Forall₂ (Constraint.Similar R))
      (growStep left g conn step cs) (growStep right g conn step cs') := by
  refine agree_get.bind fun p p' hp => ?_
  refine (Plan.agree_traverse conn step).bind fun _ _ _ => ?_
  refine agree_get.bind fun q q' hq => ?_
  rw [hp.schema, hq.schema]
  exact agree_applyReady g _ h

theorem agree_grow (g : GroupId) (n : Nat) (remaining : List Connection)
    (h : Forall₂ (Constraint.Similar R) cs cs') :
    Agree R (Plan.Similar left right R) (Forall₂ (Constraint.Similar R)) (grow left g n remaining cs)
      (grow right g n remaining cs') := by
  induction n generalizing remaining cs cs' with
  | zero => exact agree_pure h
  | succ n ih =>
    refine agree_get.bind fun p p' hp => ?_
    rw [hp.schema]
    split
    · exact agree_throw (PlanError.Alike.refl _)
    · next conn step rest _ =>
      exact (agree_growStep g conn step h).bind fun cs cs' hcs => ih rest hcs

theorem related_groupPlan (r : Registry) (g : Component)
    (h : Forall₂ (Constraint.Similar R) cs cs') :
    Related (fun x y => x.1.Similar left right R y.1 ∧ Forall₂ (Constraint.Similar R) x.2 y.2)
      (PlanError.Alike R) (groupPlan left r g cs) (groupPlan right r g cs') := by
  unfold groupPlan
  refine (related_seed r g h).bind fun x y hxy => ?_
  dsimp only
  rw [hxy.1.schema]
  refine (PlanM.related_exec (agree_applyReady g.id _ hxy.2) hxy.1).bind fun x y hxy => ?_
  refine (PlanM.related_exec (agree_grow g.id _ g.connections hxy.1) hxy.2).bind
    fun x y hxy => ?_
  exact ⟨hxy.2, hxy.1⟩

theorem related_groupPlans (r : Registry) (gs : List Component)
    (h : Forall₂ (Constraint.Similar R) cs cs') :
    Related (fun x y => Forall₂ (Component.Similar left right R) x.1 y.1 ∧
        Forall₂ (Constraint.Similar R) x.2 y.2)
      (PlanError.Alike R) (groupPlans left r gs cs) (groupPlans right r gs cs') := by
  induction gs generalizing cs cs' with
  | nil => exact ⟨.nil, h⟩
  | cons g gs ih =>
    rw [groupPlans, groupPlans]
    refine (related_groupPlan r g h).bind fun x y hxy => ?_
    refine (ih hxy.2).bind fun x' y' hxy' => ?_
    exact ⟨.cons (.setPlan g hxy.1) hxy'.1, hxy'.2⟩

/-! ## Joins and products -/

/-- The same components with similar plans, and similar filters. -/
structure Similar (left right : Config) (R : Datum → Datum → Prop) (s s' : PlannerState) :
    Prop where
  groups : Forall₂ (Component.Similar left right R) s.groups s'.groups
  constraints : Forall₂ (Constraint.Similar R) s.constraints s'.constraints

variable {gs gs' : List Component}

theorem related_modifyGroup (id : GroupId) {f f' : Component → Except PlanError Component}
    (hf : ∀ g g', g.Similar left right R g' →
      Related (Component.Similar left right R) (PlanError.Alike R) (f g) (f' g'))
    (h : Forall₂ (Component.Similar left right R) gs gs') :
    Related (Forall₂ (Component.Similar left right R)) (PlanError.Alike R) (modifyGroup id f gs)
      (modifyGroup id f' gs') := by
  induction h with
  | nil => exact PlanError.Alike.refl _
  | @cons g g' gs gs' hg hgs ih =>
    rw [modifyGroup, modifyGroup, hg.id]
    split
    · exact (hf g g' hg).bind fun g g' hg => .cons hg hgs
    · exact ih.bind fun gs gs' hgs => .cons hg hgs

theorem related_onPlan {act act' : PlanM Unit}
    (h : Agree R (Plan.Similar left right R) (fun _ _ => True) act act') {g g' : Component}
    (hg : g.Similar left right R g') :
    Related (Component.Similar left right R) (PlanError.Alike R) (onPlan act g)
      (onPlan act' g') := by
  unfold onPlan
  refine hg.related_takePlan.bind fun x y hxy => ?_
  refine (PlanM.related_exec h hxy.1).bind fun x' y' hxy' => ?_
  rw [hxy.2]
  exact Component.Similar.setPlan y.2 hxy'.2

theorem related_joinGroups {c c' : Constraint} (hc : c.Similar R c') (survivor absorbed : GroupId)
    (h : Forall₂ (Component.Similar left right R) gs gs') :
    Related (Forall₂ (Component.Similar left right R)) (PlanError.Alike R)
      (joinGroups left c survivor absorbed gs) (joinGroups right c' survivor absorbed gs') := by
  have hpick := rel_pick? (f := fun g : Component => if g.id = absorbed then some () else none)
    (g := fun g : Component => if g.id = absorbed then some () else none)
    (fun g g' hg => by rw [hg.id]) h
  unfold joinGroups
  obtain ⟨hx, hy⟩ | ⟨x, y, hx, hy, hxy⟩ := rel_cases hpick
  · rw [hx, hy]
    exact PlanError.Alike.refl _
  · rw [hx, hy]
    refine hxy.1.related_takePlan.bind fun p p' hp => ?_
    refine related_modifyGroup survivor (fun g g' hg => ?_) hxy.2.2
    rw [hp.2]
    exact (related_onPlan (hc.agree_applyJoin hp.1) hg).bind fun g g' hg => hg.absorb p'.2

theorem related_joinStep {s s' : PlannerState} (h : s.Similar left right R s') :
    Related (Option.Rel (PlannerState.Similar left right R)) (PlanError.Alike R) (joinStep left s)
      (joinStep right s') := by
  have hpick := rel_pick? (f := links?) (g := links?)
    (fun c c' hc => by rw [links?, links?, hc.linked]) h.constraints
  unfold joinStep
  obtain ⟨hx, hy⟩ | ⟨⟨c, links, rest⟩, ⟨c', links', rest'⟩, hx, hy, hc, hlinks, hrest⟩ :=
    rel_cases hpick
  · rw [hx, hy]
    exact Option.Rel.none
  · rw [hx, hy]
    dsimp only at hc hlinks hrest
    subst hlinks
    cases links with
    | one g =>
      refine (related_modifyGroup g (fun g g' hg => related_onPlan hc.agree_apply hg) h.groups).bind
        fun gs gs' hgs => ?_
      exact Option.Rel.some ⟨hgs, hrest⟩
    | two survivor absorbed =>
      refine (related_joinGroups hc survivor absorbed h.groups).bind fun gs gs' hgs => ?_
      have hlinked := List.rel_map (fun _ _ hc => hc.replaceGroup absorbed survivor) hrest
      exact Option.Rel.some ⟨hgs, hlinked⟩

theorem related_joinAtMost (n : Nat) {s s' : PlannerState} (h : s.Similar left right R s') :
    Related (PlannerState.Similar left right R) (PlanError.Alike R) (joinAtMost left n s)
      (joinAtMost right n s') := by
  induction n generalizing s s' with
  | zero => exact h
  | succ n ih =>
    refine (related_joinStep h).bind fun x y hxy => ?_
    cases hxy with
    | none => exact h
    | some hnext => exact ih hnext

theorem agree_multiply {p p' : Plan} (hp : p.Similar left right R p') :
    Agree R (Plan.Similar left right R) (fun _ _ => True) (multiply p) (multiply p') := by
  unfold multiply
  rw [hp.schema]
  refine (PlanM.agree_onSchema _).bind fun _ _ _ => ?_
  exact agree_modify fun q q' hq => hq.combine .product rfl hp.root

theorem related_productStep {first first' other other' : Component}
    (hfirst : first.Similar left right R first') (hother : other.Similar left right R other')
    (h : Forall₂ (Constraint.Similar R) cs cs') :
    Related (fun x y => x.1.Similar left right R y.1 ∧ Forall₂ (Constraint.Similar R) x.2 y.2)
      (PlanError.Alike R) (productStep first other cs) (productStep first' other' cs') := by
  unfold productStep
  refine hfirst.related_takePlan.bind fun x x' hx => ?_
  refine hother.related_takePlan.bind fun y y' hy => ?_
  refine (PlanM.related_exec (agree_multiply hy.1) hx.1).bind fun z z' hz => ?_
  dsimp only
  rw [hx.2, hy.2]
  exact ⟨(Component.Similar.setPlan x'.2 hz.2).absorb y'.2,
    List.rel_map (fun _ _ hc => hc.replaceGroup _ _) h⟩

theorem related_products {first first' : Component} (hfirst : first.Similar left right R first')
    (hgs : Forall₂ (Component.Similar left right R) gs gs')
    (h : Forall₂ (Constraint.Similar R) cs cs') :
    Related (fun x y => x.1.Similar left right R y.1 ∧ Forall₂ (Constraint.Similar R) x.2 y.2)
      (PlanError.Alike R) (products first gs cs) (products first' gs' cs') := by
  induction hgs generalizing first first' cs cs' with
  | nil => exact ⟨hfirst, h⟩
  | cons hg hgs ih =>
    rw [products, products]
    exact (related_productStep hfirst hg h).bind fun x y hxy => ih hxy.1 hxy.2

theorem related_crossProduct {s s' : PlannerState} (h : s.Similar left right R s') :
    Related (PlannerState.Similar left right R) (PlanError.Alike R) s.crossProduct
      s'.crossProduct := by
  obtain ⟨r, gs, cs⟩ := s
  obtain ⟨r', gs', cs'⟩ := s'
  obtain ⟨hgs, hcs⟩ := h
  dsimp only at hgs hcs
  cases hgs with
  | nil => exact ⟨.nil, hcs⟩
  | cons hg hgs =>
    exact (related_products hg hgs hcs).bind fun x y hxy => ⟨.cons hxy.1 .nil, hxy.2⟩

theorem agree_applyResidual (g : GroupId) (h : Forall₂ (Constraint.Similar R) cs cs') :
    Agree R (Plan.Similar left right R) (fun _ _ => True) (applyResidual left g cs)
      (applyResidual right g cs') := by
  induction h with
  | nil => exact agree_pure trivial
  | @cons c c' cs cs' hc hcs ih =>
    rw [applyResidual, applyResidual, hc.linked]
    split
    · exact hc.agree_apply.bind fun _ _ _ => ih
    · exact agree_throw (hc.alike_error fun e => .stillLinked e c'.linked)

theorem related_finish {s s' : PlannerState} (h : s.Similar left right R s') :
    Related (Plan.Similar left right R) (PlanError.Alike R) (finish left s) (finish right s') := by
  obtain ⟨r, gs, cs⟩ := s
  obtain ⟨r', gs', cs'⟩ := s'
  obtain ⟨hgs, hcs⟩ := h
  dsimp only at hgs hcs
  cases hgs with
  | nil => exact PlanError.Alike.refl _
  | @cons g g' gs gs' hg hgs =>
    cases hgs with
    | nil =>
      refine hg.related_takePlan.bind fun x y hxy => ?_
      dsimp only
      rw [hxy.2]
      exact (PlanM.related_exec (agree_applyResidual _ hcs) hxy.1).bind fun x y hxy => hxy.2
    | cons _ hgs =>
      intro _
      simp only [List.length_cons, hgs.length_eq]

end PlannerState

/-! ## Queries -/

/-- The same pattern, similar filters, and the same results with data that are related to
themselves. -/
structure Query.Similar (R : Datum → Datum → Prop) (q q' : Query) : Prop where
  vertices : q.vertices = q'.vertices
  connections : q.connections = q'.connections
  constraints : Forall₂ (Expr.Similar R) q.constraints q'.constraints
  groupBy : q.groupBy = q'.groupBy
  projection : q.projection = q'.projection
  orderBy : q.orderBy = q'.orderBy
  limit : q.limit = q'.limit
  offset : q.offset = q'.offset
  keys : ∀ key ∈ q.groupBy, Expr.Similar R key.expr key.expr
  results : ∀ elem ∈ q.projection, Expr.Similar R elem.expr elem.expr
  order : ∀ elem ∈ q.orderBy, Expr.Similar R elem.expr elem.expr

/-- The expressions of a query. -/
def Query.exprs (q : Query) : List Expr :=
  q.constraints ++ (q.groupBy.map GroupKey.expr ++
    (q.projection.map ProjectionElem.expr ++ q.orderBy.map OrderElem.expr))

/-- The data of a query. -/
def Query.data (q : Query) : List Datum :=
  q.exprs.flatMap Expr.data

/-- A query is similar to itself if its data are related to themselves. -/
theorem Query.Similar.refl (q : Query) (h : ∀ d ∈ q.data, R d d) : q.Similar R q := by
  have hexprs : ∀ e ∈ q.exprs, Expr.Similar R e e := by
    intro e he
    exact Expr.Similar.refl e fun d hd => h d (List.mem_flatMap.2 ⟨e, he, hd⟩)
  simp only [Query.exprs, List.forall_mem_append, List.forall_mem_map] at hexprs
  obtain ⟨hconstraints, hkeys, hresults, horder⟩ := hexprs
  exact ⟨rfl, rfl, List.forall₂_same.2 hconstraints, rfl, rfl, rfl, rfl, rfl, hkeys, hresults, horder⟩

/-- Failures at the same stage, for the same cause if the data are the same. -/
def Failure.Alike (R : Datum → Datum → Prop) (f f' : Failure) : Prop :=
  f.stage = f'.stage ∧ f.error.Alike R f'.error

theorem related_atStage {α β : Type} {good : α → β → Prop} {x : Except PlanError α}
    {y : Except PlanError β} (stage : Stage) (h : Related good (PlanError.Alike R) x y) :
    Related good (Failure.Alike R) (atStage stage x) (atStage stage y) := by
  cases x <;> cases y
  · exact ⟨rfl, h⟩
  · exact h.elim
  · exact h.elim
  · exact h

theorem related_mapM {α β : Type} {S : α → α → Prop} {good : β → β → Prop}
    {f g : α → Except PlanError β}
    (hfg : ∀ a b, S a b → Related good (PlanError.Alike R) (f a) (g b)) {l l' : List α}
    (h : Forall₂ S l l') :
    Related (Forall₂ good) (PlanError.Alike R) (l.mapM f) (l'.mapM g) := by
  induction h with
  | nil => exact Forall₂.nil
  | @cons a b l l' hab hl ih =>
    rw [List.mapM_cons, List.mapM_cons]
    refine (hfg a b hab).bind fun x y hxy => ?_
    exact ih.bind fun xs ys hxys => Forall₂.cons hxy hxys

namespace PlannerState

/-- Similar queries are split alike. -/
theorem related_start {q q' : Query} (h : q.Similar R q') :
    Related (fun s s' => s.registry = s'.registry ∧ s.groups = s'.groups ∧
        Forall₂ (Constraint.Similar R) s.constraints s'.constraints)
      (PlanError.Alike R) (start q) (start q') := by
  have hpartition : Component.partition q = Component.partition q' := by
    unfold Component.partition
    rw [h.connections, h.vertices]
  unfold start
  rw [hpartition]
  cases Component.partition q' .empty with
  | error e r => exact PlanError.Alike.refl e
  | ok groups r =>
    have hfilters := related_mapM
      (fun e e' (he : Expr.Similar R e e') => Constraint.related_ofExpr he r) h.constraints
    refine hfilters.bind fun cs cs' hcs => ?_
    exact ⟨rfl, rfl, List.rel_map (fun _ _ hc => hc.link groups) hcs⟩

end PlannerState

/-- Similar queries have similar plans for their patterns. -/
theorem Query.related_matchPlan {q q' : Query} (h : q.Similar R q') :
    Related (Plan.Similar left right R) (Failure.Alike R) (q.matchPlan left)
      (q'.matchPlan right) := by
  refine (related_atStage _ (PlannerState.related_start h)).bind fun s s' hs => ?_
  obtain ⟨hregistry, hgroups, hcs⟩ := hs
  have hplanned : Related (PlannerState.Similar left right R) (PlanError.Alike R)
      (PlannerState.planGroups left s) (PlannerState.planGroups right s') := by
    unfold PlannerState.planGroups
    rw [hregistry, hgroups]
    exact (PlannerState.related_groupPlans _ _ hcs).bind fun x y hxy => ⟨hxy.1, hxy.2⟩
  refine (related_atStage _ hplanned).bind fun s s' hs => ?_
  have hjoined : Related (PlannerState.Similar left right R) (PlanError.Alike R)
      (PlannerState.resolveJoins left s) (PlannerState.resolveJoins right s') := by
    unfold PlannerState.resolveJoins
    rw [hs.constraints.length_eq]
    exact PlannerState.related_joinAtMost _ hs
  refine (related_atStage _ hjoined).bind fun s s' hs => ?_
  refine (related_atStage _ (PlannerState.related_crossProduct hs)).bind fun s s' hs => ?_
  exact related_atStage _ (PlannerState.related_finish hs)

/-! ## Results -/

namespace Plan

/-- One column after the other. -/
theorem agree_columns {ε : Type} {column column' : ε → PlanM Nat}
    {columns columns' : List ε → PlanM (List Nat)}
    (hcons : ∀ x xs, columns (x :: xs) =
      column x >>= fun i => columns xs >>= fun is => pure (i :: is))
    (hcons' : ∀ x xs, columns' (x :: xs) =
      column' x >>= fun i => columns' xs >>= fun is => pure (i :: is))
    (hnil : columns [] = pure []) (hnil' : columns' [] = pure []) (elems : List ε)
    (h : ∀ x ∈ elems, Agree R (Plan.Similar left right R) (fun a b => a = b) (column x)
      (column' x)) :
    Agree R (Plan.Similar left right R) (fun a b => a = b) (columns elems) (columns' elems) := by
  induction elems with
  | nil =>
    rw [hnil, hnil']
    exact agree_pure rfl
  | cons x xs ih =>
    rw [hcons, hcons']
    refine (h x List.mem_cons_self).bind fun i i' hi => ?_
    refine (ih fun y hy => h y (List.mem_cons_of_mem _ hy)).bind fun is is' his => ?_
    rw [hi, his]
    exact agree_pure rfl

theorem agree_groupColumn {key : GroupKey} (h : Expr.Similar R key.expr key.expr) :
    Agree R (Plan.Similar left right R) (fun a b => a = b) (groupColumn left key)
      (groupColumn right key) := by
  unfold groupColumn
  split
  · exact agree_throw (PlanError.Alike.refl _)
  · refine (agree_materialize h (h.analyze .preGroup) _).bind fun i i' hi => ?_
    subst hi
    exact (PlanM.agree_onSchema _).bind fun _ _ _ => agree_pure rfl

theorem agree_groupColumns {keys : List GroupKey}
    (h : ∀ key ∈ keys, Expr.Similar R key.expr key.expr) :
    Agree R (Plan.Similar left right R) (fun a b => a = b) (groupColumns left keys)
      (groupColumns right keys) :=
  agree_columns groupColumns_cons groupColumns_cons rfl rfl keys
    fun key hkey => agree_groupColumn (h key hkey)

theorem agree_projectionColumn {elem : ProjectionElem} (h : Expr.Similar R elem.expr elem.expr) :
    Agree R (Plan.Similar left right R) (fun a b => a = b) (projectionColumn left elem)
      (projectionColumn right elem) := by
  unfold projectionColumn setAlias?
  refine (agree_materialize h (h.analyze .postGroup) _).bind fun i i' hi => ?_
  subst hi
  refine (PlanM.agree_onSchema _).bind fun _ _ _ => ?_
  cases elem.name with
  | none => exact agree_pure rfl
  | some name => exact (PlanM.agree_onSchema _).bind fun _ _ _ => agree_pure rfl

theorem agree_projectionColumns {elems : List ProjectionElem}
    (h : ∀ elem ∈ elems, Expr.Similar R elem.expr elem.expr) :
    Agree R (Plan.Similar left right R) (fun a b => a = b) (projectionColumns left elems)
      (projectionColumns right elems) :=
  agree_columns projectionColumns_cons projectionColumns_cons rfl rfl elems
    fun elem helem => agree_projectionColumn (h elem helem)

theorem agree_orderColumn {elem : OrderElem} (h : Expr.Similar R elem.expr elem.expr) :
    Agree R (Plan.Similar left right R) (fun a b => a = b) (orderColumn left elem)
      (orderColumn right elem) := by
  unfold orderColumn
  split
  · exact agree_throw (PlanError.Alike.refl _)
  · exact agree_materialize h (h.analyze .postGroup) _

theorem agree_orderColumns {elems : List OrderElem}
    (h : ∀ elem ∈ elems, Expr.Similar R elem.expr elem.expr) :
    Agree R (Plan.Similar left right R) (fun a b => a = b) (orderColumns left elems)
      (orderColumns right elems) :=
  agree_columns orderColumns_cons orderColumns_cons rfl rfl elems
    fun elem helem => agree_orderColumn (h elem helem)

theorem agree_group (columns : List Nat) (aggregates : List AggregateInfo) :
    Agree R (Plan.Similar left right R) (fun _ _ => True) (group columns aggregates)
      (group columns aggregates) := by
  have hexplicit : ∀ a ∈ aggregates.map AggregateInfo.aggregation, a.explicit = true := by
    intro a ha
    obtain ⟨info, -, rfl⟩ := List.mem_map.1 ha
    unfold AggregateInfo.aggregation
    split <;> rfl
  unfold group
  split
  · exact agree_pure trivial
  · refine (agree_modify fun p p' hp => hp.wrap (.group columns hexplicit) rfl).bind fun _ _ _ => ?_
    refine (PlanM.agree_onSchema _).bind fun _ _ _ => ?_
    refine agree_modify fun p p' hp => ?_
    rw [hp.schema]
    exact hp.withSchema _

theorem agree_order {elems : List OrderElem}
    (h : ∀ elem ∈ elems, Expr.Similar R elem.expr elem.expr) :
    Agree R (Plan.Similar left right R) (fun _ _ => True) (order left elems)
      (order right elems) := by
  refine (agree_orderColumns h).bind fun columns columns' hcolumns => ?_
  subst hcolumns
  split
  · exact agree_modify fun p p' hp => hp.wrap (.sort columns) rfl
  · exact agree_pure trivial

theorem agree_project (columns : List Nat) :
    Agree R (Plan.Similar left right R) (fun _ _ => True) (project columns) (project columns) := by
  unfold project
  split
  · exact agree_pure trivial
  · refine (agree_modify fun p p' hp => hp.wrap (.project columns) rfl).bind fun _ _ _ => ?_
    exact (PlanM.agree_onSchema _).bind fun _ _ _ => agree_pure trivial

theorem Similar.slice {p p' : Plan} (h : p.Similar left right R p') (offset limit : Option UInt64) :
    (p.slice offset limit).Similar left right R (p'.slice offset limit) := by
  unfold Plan.slice
  split
  · exact h.wrap (.slice offset limit) rfl
  · exact h

end Plan

theorem related_extractAt (stage : Stage) {exprs : List Expr} (h : ∀ e ∈ exprs, Expr.Similar R e e)
    {x x' : Extraction} (hx : x.Similar left right R x') :
    Related (Extraction.Similar left right R) (Failure.Alike R) (extractAt stage left exprs x)
      (extractAt stage right exprs x') := by
  rw [Plan.extractAt_eq, Plan.extractAt_eq]
  exact (related_atStage stage (Expr.agree_extractList exprs (.of_forall h) hx)).bind
    fun y y' hy => hy.2

/-- Similar plans are finished alike. -/
theorem Plan.related_finish {q q' : Query} (h : q.Similar R q') {p p' : Plan}
    (hp : p.Similar left right R p') :
    Related (Plan.Similar left right R) (Failure.Alike R) (Plan.finish left q p)
      (Plan.finish right q' p') := by
  have hresults : ∀ e ∈ q.projection.map ProjectionElem.expr, Expr.Similar R e e :=
    List.forall_mem_map.2 h.results
  have horder : ∀ e ∈ q.orderBy.map OrderElem.expr, Expr.Similar R e e :=
    List.forall_mem_map.2 h.order
  unfold Plan.finish
  rw [← h.groupBy, ← h.projection, ← h.orderBy, ← h.offset, ← h.limit]
  refine (related_atStage _ (PlanM.related_exec (agree_groupColumns h.keys) hp)).bind
    fun x x' hx => ?_
  have hstart : Extraction.Similar left right R ⟨x.2, []⟩ ⟨x'.2, []⟩ := ⟨hx.2, rfl⟩
  refine (related_extractAt _ hresults hstart).bind fun y y' hy => ?_
  refine (related_extractAt _ horder hy).bind fun z z' hz => ?_
  dsimp only
  rw [hx.1, hz.aggregates]
  refine (related_atStage _ (PlanM.related_exec (agree_group _ _) hz.plan)).bind fun u u' hu => ?_
  refine (related_atStage _ (PlanM.related_exec (agree_projectionColumns h.results) hu.2)).bind
    fun v v' hv => ?_
  refine (related_atStage _ (PlanM.related_exec (agree_order h.order) hv.2)).bind fun w w' hw => ?_
  rw [hv.1]
  refine (related_atStage _ (PlanM.related_exec (agree_project _) hw.2)).bind fun t t' ht => ?_
  exact ht.2.slice q.offset q.limit

/-- Similar queries are planned in step. -/
theorem Query.related_plan (left right : Config) {q q' : Query} (h : q.Similar R q') :
    Related (Plan.Similar left right R) (Failure.Alike R) (q.plan left) (q'.plan right) :=
  (q.related_matchPlan h).bind fun _ _ hp => Plan.related_finish h hp

end GraphPlan
