import GraphPlan.Planner.State
import GraphPlan.Proofs.Constraint
import GraphPlan.Proofs.Outcome
import GraphPlan.Proofs.Plan.Fetch
import Mathlib.Data.List.Nodup
import Mathlib.Data.List.Perm.Basic

/-!
# What a filter waits for

A filter counts the variables that it waits for. The count starts with all of its variables and goes
down as variables are bound, so that a filter is ready when the count is zero. `Constraint.Tracked`
says what the count means; binding new variables keeps it (`Tracked.markAvailable`).
-/

namespace GraphPlan

namespace NameMap

variable {α : Type} {m : NameMap α}

theorem contains_iff {x : String} : m.contains x = true ↔ x ∈ m.names := by
  unfold contains get? names
  induction m.entries with
  | nil => simp
  | cons entry entries ih =>
    obtain ⟨k, v⟩ := entry
    by_cases hx : x = k
    · simp [hx]
    · have hb : (x == k) = false := by simpa using hx
      rw [List.lookup_cons, hb, List.map_cons, List.mem_cons, ← ih]
      simp [hx]

/-- A change adds a name or keeps the names. -/
theorem length_names_alter {name : String} {f : Option α → α} :
    (m.alter name f).names.length =
      if m.contains name then m.names.length else m.names.length + 1 := by
  split
  · next h =>
    refine List.Perm.length_eq ((List.perm_ext_iff_of_nodup (nodup_names _) (nodup_names _)).2 ?_)
    intro x
    rw [mem_names_alter]
    constructor
    · rintro (rfl | hx)
      · exact contains_iff.1 h
      · exact hx
    · exact Or.inr
  · next h =>
    have hnew : name ∉ m.names := fun hmem => h (contains_iff.2 hmem)
    have hperm : (m.alter name f).names.Perm (name :: m.names) := by
      refine (List.perm_ext_iff_of_nodup (nodup_names _) ?_).2 fun x => ?_
      · exact List.nodup_cons.2 ⟨hnew, nodup_names m⟩
      · rw [mem_names_alter, List.mem_cons]
    rw [hperm.length_eq, List.length_cons]

end NameMap

/-! ## The count at the start -/

namespace Usage

variable {u : Usage}

/-- All variables are counted as pending. -/
def Fresh (u : Usage) : Prop :=
  u.pending = u.vars.names.length

theorem fresh_empty : empty.Fresh :=
  rfl

theorem Fresh.touch (h : u.Fresh) (var : String) (f : VariableUse → VariableUse) :
    (u.touch var f).Fresh := by
  unfold Fresh at h ⊢
  simp only [Usage.touch, NameMap.length_names_alter, h]

theorem Fresh.promote (h : u.Fresh) (r : Registry) : (u.promote r).Fresh := by
  unfold Usage.promote
  induction u.refs.names.filter r.contains generalizing u with
  | nil => exact h
  | cons name names ih => exact ih (h.touch name id)

end Usage

namespace Expr

mutual

theorem fresh_visit (mode : Mode) (e : Expr) {u : Usage} (h : u.Fresh) : (e.visit mode u).Fresh := by
  cases e with
  | ref name | int value | decimal value | str value | bool value | null => exact h
  | prop var name => exact h.touch var _
  | hasLabel var label => exact h.touch var fun use => { use with labelChecked := true }
  | labelOf var => exact h.touch var _
  | binary op lhs rhs =>
    have hboth := fresh_visit mode rhs (fresh_visit mode lhs h)
    rw [visit]
    split
    · exact hboth
    · exact hboth
  | unary op operand => exact fresh_visit mode operand h
  | aggregateAll kind => cases mode <;> exact h
  | aggregate kind arg =>
    cases mode with
    | preGroup =>
      have hseen : Usage.Fresh { u with hasAggregates := true } := h
      exact fresh_visit .preGroup arg hseen
    | postGroup => exact h
  | call func args =>
    cases func
    case vertexLabels => exact h
    all_goals exact fresh_visitList mode args h

theorem fresh_visitList (mode : Mode) (es : List Expr) {u : Usage} (h : u.Fresh) :
    (visitList mode es u).Fresh := by
  cases es with
  | nil => exact h
  | cons e es => exact fresh_visitList mode es (fresh_visit mode e h)

end

end Expr

/-- The variables of a filter with what it needs from them: those of which it looks at an attribute
or the label, and the pattern variables that stand in it as bare names. -/
def Expr.needs (e : Expr) (r : Registry) : NameMap VariableUse :=
  ((e.analyze .preGroup).usage.promote r).vars

/-! ## Counting down -/

namespace Constraint

variable {r : Registry} {c : Constraint}

/-- The filter knows the variables of its expression. -/
def Analyzed (r : Registry) (c : Constraint) : Prop :=
  c.usage.vars = c.expr.needs r

theorem Analyzed.of_info_eq {c' : Constraint} (h : c'.Analyzed r) (hinfo : c.info = c'.info) :
    c.Analyzed r := by
  unfold Analyzed usage expr at h ⊢
  rw [hinfo, h]

/-- The variables of the filter that are not bound, as a number. -/
def missing (c : Constraint) (bound : String → Bool) : Nat :=
  c.usage.vars.names.countP fun x => !bound x

/-- The filter knows the variables of its expression, and how many of them are not bound. -/
structure Tracked (r : Registry) (bound : String → Bool) (c : Constraint) : Prop where
  /-- The variables are those of the expression. -/
  analyzed : c.Analyzed r
  /-- The count is right. -/
  pending_eq : c.pending = c.missing bound

theorem Tracked.congr {bound bound' : String → Bool} (h : c.Tracked r bound)
    (hbound : ∀ x, bound x = bound' x) : c.Tracked r bound' := by
  rwa [← funext hbound]

/-- At the start nothing is bound. -/
theorem tracked_ofExpr {e : Expr} (h : ofExpr e r = .ok c) : c.Tracked r fun _ => false := by
  simp only [ofExpr] at h
  split at h
  · cases h
  · cases h
    have hfresh : Usage.Fresh ((e.analyze .preGroup).usage.promote r) :=
      Usage.Fresh.promote (Expr.fresh_visit .preGroup e Usage.fresh_empty) r
    refine ⟨rfl, hfresh.trans ?_⟩
    simp [missing, Constraint.usage]

theorem Tracked.link {bound : String → Bool} (h : c.Tracked r bound) (groups : List Component) :
    (c.link groups).Tracked r bound :=
  ⟨h.analyzed, h.pending_eq⟩

/-- Marking variables counts those that the filter has. -/
theorem pending_markAvailable (c : Constraint) (added : List String) :
    (c.markAvailable added).pending = c.pending - added.countP c.usage.vars.contains := by
  have hfold : ∀ n, added.foldl (fun n var => if c.usage.vars.contains var then n - 1 else n) n =
      n - added.countP c.usage.vars.contains := by
    induction added with
    | nil => simp
    | cons x added ih =>
      intro n
      rw [List.foldl_cons, ih, List.countP_cons]
      split
      · omega
      · rfl
  exact hfold c.pending

/-- The variables that both the filter and a list have, counted from either side. -/
theorem countP_names_eq {added : List String} (hadded : added.Nodup) :
    c.usage.vars.names.countP added.contains = added.countP c.usage.vars.contains := by
  rw [List.countP_eq_length_filter, List.countP_eq_length_filter]
  refine List.Perm.length_eq ((List.perm_ext_iff_of_nodup ?_ ?_).2 fun x => ?_)
  · exact (NameMap.nodup_names _).filter _
  · exact hadded.filter _
  · simp only [List.mem_filter, List.contains_iff_mem, NameMap.contains_iff]
    exact and_comm

/-- Variables that get bound are taken off the count, each of them once. -/
theorem Tracked.markAvailable {bound : String → Bool} {added : List String}
    (h : c.Tracked r fun x => bound x && !added.contains x) (hadded : added.Nodup)
    (hbound : ∀ x ∈ added, bound x = true) : (c.markAvailable added).Tracked r bound := by
  refine ⟨h.analyzed, ?_⟩
  -- of the variables that were missing, the new ones are those that are not missing any more
  have hsplit : ∀ xs : List String, xs.countP (fun x => !(bound x && !added.contains x)) =
      xs.countP (fun x => !bound x) + xs.countP added.contains := by
    intro xs
    induction xs with
    | nil => rfl
    | cons x xs ih =>
      rw [List.countP_cons, List.countP_cons, List.countP_cons, ih]
      by_cases hx : x ∈ added
      · have hx' : added.contains x = true := by simpa using hx
        simp only [hx', hbound x hx, Bool.not_true, Bool.and_false, Bool.not_false, if_true,
          Bool.false_eq_true, if_false]
        omega
      · have hx' : added.contains x = false := by simpa using hx
        simp only [hx', Bool.not_false, Bool.and_true, Bool.false_eq_true, if_false]
        omega
  have hpending : c.pending = c.missing bound + added.countP c.usage.vars.contains := by
    rw [h.pending_eq, missing, hsplit, countP_names_eq hadded, missing]
  rw [pending_markAvailable, hpending, Nat.add_sub_cancel]
  rfl

/-- A filter that waits for nothing has all its variables. -/
theorem Tracked.bound_of_pending_eq_zero {bound : String → Bool} (h : c.Tracked r bound)
    (hzero : c.pending = 0) {x : String} (hx : x ∈ c.usage.vars.names) : bound x = true := by
  have hcount := h.pending_eq.symm.trans hzero
  have hnone := List.countP_eq_zero.1 hcount x hx
  simpa using hnone

end Constraint

/-! ## All filters -/

/-- What holds of each value holds of all values of a list. -/
theorem meets_mapM {ε α β : Type} {f : α → Except ε β} {good : β → Prop} {bad : ε → Prop}
    {as : List α} (h : ∀ a ∈ as, (f a).Meets good bad) :
    (as.mapM f).Meets (fun bs => ∀ b ∈ bs, good b) bad := by
  induction as with
  | nil => exact nofun
  | cons a as ih =>
    rw [List.mapM_cons]
    refine (h a List.mem_cons_self).bind fun b hb => ?_
    refine (ih fun a' ha' => h a' (.tail a ha')).bind fun bs hbs => ?_
    exact List.forall_mem_cons.2 ⟨hb, hbs⟩

/-- Before any plan is made, all filters wait for all their variables. -/
theorem PlannerState.tracked_start {q : Query} {s : PlannerState} (h : start q = .ok s) :
    ∀ c ∈ s.constraints, c.Tracked s.registry fun _ => false := by
  unfold start at h
  split at h
  · cases h
  · next groups r hpart =>
    obtain ⟨cs, hcs, h⟩ := eq_ok_of_bind_eq_ok h
    cases h
    have htracked : (q.constraints.mapM fun e => Constraint.ofExpr e r).Meets
        (fun cs => ∀ c ∈ cs, c.Tracked r fun _ => false) (fun _ => True) := by
      refine meets_mapM fun e _ => ?_
      cases he : Constraint.ofExpr e r with
      | error e => trivial
      | ok c => exact Constraint.tracked_ofExpr he
    intro c hc
    obtain ⟨c', hc', rfl⟩ := List.mem_map.1 hc
    exact (htracked.result hcs c' hc').link groups

end GraphPlan
