import GraphPlan.Constraint
import GraphPlan.Proofs.Expr.Usage
import GraphPlan.Proofs.Planner.Derivation

/-!
# Filters and their links

A filter in the planner carries more than its expression: what the expression needs, and the
components that hold its variables. `Constraint.Sound` says that these agree with the expression and
with the components at hand. Marking variables as available, giving components their plans and
merging two components keep it.
-/

namespace GraphPlan

namespace Constraint

variable {r : Registry} {c : Constraint} {groups groups' : List Component}

/-! ## Expressions -/

/-- The needs that were collected are those of the expression. -/
structure Faithful (c : Constraint) : Prop where
  /-- No aggregate is read. -/
  aggregates : c.expr.aggregatesRead = []
  /-- The variables that are looked at are known. -/
  looksAt : ∀ x ∈ c.expr.looksAt, x ∈ c.usage.vars.names

/-- Every expression without aggregates can be a filter. -/
theorem meets_ofExpr (e : Expr) (r : Registry) :
    (ofExpr e r).Meets (fun c => c.expr = e ∧ c.Faithful) PlanError.IsResolution := by
  simp only [ofExpr]
  split
  · exact PlanError.isResolution_unsupported _ _
  · next h =>
    refine ⟨rfl, e.aggregatesRead_eq_nil (by simpa [Expr.analyze] using h), fun x hx => ?_⟩
    refine Usage.mem_vars_promote.2 (Or.inl ?_)
    exact (Expr.mem_vars_visit x e .empty).2 (Or.inr hx)

theorem Faithful.markAvailable (h : c.Faithful) (vars : List String) :
    (c.markAvailable vars).Faithful :=
  ⟨h.aggregates, h.looksAt⟩

/-- A variable of a filter with one variable is that one. -/
theorem eq_of_subject? {x y : String} (hx : c.subject? = some x) (hy : y ∈ c.usage.vars.names) :
    y = x := by
  unfold subject? at hx
  split at hx
  · next name use hentries =>
    cases hx
    rw [NameMap.names, hentries] at hy
    exact List.mem_singleton.1 hy
  · cases hx

/-- The scan for a comparison of an attribute with a literal. -/
theorem comparisonScan?_eq_some {scope : String} {bop : BinaryOp} {lhs rhs : Expr} {op : Operator}
    (h : comparisonScan? scope bop lhs rhs = some op) :
    ∃ x a c value, lhs = .prop x a ∧ bop = .compare c ∧ rhs.scanValue? = some value ∧
      op = .scanAttribute scope a c value := by
  unfold comparisonScan? at h
  split at h
  · next x a =>
    simp only [Option.bind_eq_bind, Option.bind_eq_some_iff, Option.pure_def,
      Option.some.injEq] at h
    obtain ⟨c, hc, value, hvalue, rfl⟩ := h
    cases bop <;> cases hc
    exact ⟨x, a, c, value, rfl, rfl, hvalue, rfl⟩
  · cases h

/-- A basic filter amounts to a scan. -/
theorem Faithful.scansAs (h : c.Faithful) {scope x : String} {op : Operator}
    (hx : c.subject? = some x) (hop : c.scan? scope = some op) : c.expr.ScansAs scope x op := by
  have hsubject : ∀ y ∈ c.expr.looksAt, y = x := fun y hy => eq_of_subject? hx (h.looksAt y hy)
  unfold scan? at hop
  split at hop
  · split at hop
    · cases hop
    · split at hop
      · next y label hexpr =>
        cases hop
        rw [hexpr] at hsubject ⊢
        rw [hsubject y List.mem_cons_self]
        exact .label x label
      · next bop lhs rhs hexpr =>
        split at hop
        · obtain ⟨y, a, cmp, value, rfl, rfl, hvalue, rfl⟩ := comparisonScan?_eq_some hop
          rw [hexpr] at hsubject ⊢
          rw [hsubject y List.mem_cons_self]
          exact .comparison x a cmp hvalue
        · cases hop
      · cases hop
  · cases hop

/-- Whether a filter is basic does not depend on the scope of attributes. -/
theorem isSome_scan? (c : Constraint) (scope : String) :
    (c.scan? scope).isSome = c.isBasic := by
  have hcomparison : ∀ (bop : BinaryOp) (lhs rhs : Expr),
      (comparisonScan? scope bop lhs rhs).isSome =
        (comparisonScan? "GLOBAL" bop lhs rhs).isSome := by
    intro bop lhs rhs
    unfold comparisonScan?
    split
    · cases bop.comparison? <;> cases rhs.scanValue? <;> rfl
    · rfl
  unfold isBasic scan?
  split
  · split
    · rfl
    · split
      · rfl
      · split
        · exact hcomparison _ _ _
        · rfl
      · rfl
  · rfl

/-! ## Links -/

/-- A filter together with the components that hold its variables. -/
structure Sound (groups : List Component) (c : Constraint) : Prop extends Faithful c where
  /-- No component is listed twice. -/
  nodup : c.linked.Nodup
  /-- The listed components are those that hold a variable of the filter. -/
  mem_linked : ∀ id, id ∈ c.linked ↔ ∃ g ∈ groups, g.id = id ∧ c.touches g = true

/-- Linking a filter finds its components. -/
theorem Faithful.link (h : c.Faithful) (hids : (groups.map Component.id).Nodup) :
    (c.link groups).Sound groups where
  aggregates := h.aggregates
  looksAt := h.looksAt
  nodup := hids.sublist (List.filter_sublist.map _)
  mem_linked := by
    intro id
    simp only [Constraint.link, List.mem_map, List.mem_filter, and_assoc]
    constructor
    · rintro ⟨g, hg, htouch, hid⟩
      exact ⟨g, hg, hid, htouch⟩
    · rintro ⟨g, hg, hid, htouch⟩
      exact ⟨g, hg, htouch, hid⟩

theorem Sound.markAvailable (h : c.Sound groups) (vars : List String) :
    (c.markAvailable vars).Sound groups :=
  ⟨h.toFaithful.markAvailable vars, h.nodup, h.mem_linked⟩

theorem touches_iff {g : Component} :
    c.touches g = true ↔ ∃ x ∈ c.usage.vars.names, x ∈ g.vars := by
  simp [touches, Component.contains]

/-- Only the numbers and the variables of the components matter. -/
theorem Sound.congr (h : c.Sound groups)
    (hgroups : ∀ id vars, (∃ g ∈ groups, g.id = id ∧ g.vars = vars) ↔
      ∃ g ∈ groups', g.id = id ∧ g.vars = vars) : c.Sound groups' where
  aggregates := h.aggregates
  looksAt := h.looksAt
  nodup := h.nodup
  mem_linked := by
    intro id
    rw [h.mem_linked]
    constructor
    · rintro ⟨g, hg, hid, htouch⟩
      obtain ⟨g', hg', hid', hvars⟩ := (hgroups id g.vars).1 ⟨g, hg, hid, rfl⟩
      rw [touches_iff, ← hvars, ← touches_iff] at htouch
      exact ⟨g', hg', hid', htouch⟩
    · rintro ⟨g, hg, hid, htouch⟩
      obtain ⟨g', hg', hid', hvars⟩ := (hgroups id g.vars).2 ⟨g, hg, hid, rfl⟩
      rw [touches_iff, ← hvars, ← touches_iff] at htouch
      exact ⟨g', hg', hid', htouch⟩

/-! ## Absorption -/

theorem mem_replace {a b x : GroupId} {l : List GroupId} (h : l.Nodup) :
    x ∈ l.replace a b ↔ x ≠ a ∧ x ∈ l ∨ x = b ∧ a ∈ l := by
  induction l with
  | nil => simp
  | cons y l ih =>
    obtain ⟨hy, hl⟩ := List.nodup_cons.1 h
    have hrest := ih hl
    by_cases hay : a = y
    · subst hay
      rw [List.replace_cons_self, List.mem_cons, List.mem_cons]
      grind
    · rw [List.replace_cons, beq_false_of_ne hay, List.mem_cons, hrest, List.mem_cons,
        List.mem_cons]
      grind

theorem nodup_replace {a b : GroupId} {l : List GroupId} (h : l.Nodup) (hb : b ∉ l) :
    (l.replace a b).Nodup := by
  induction l with
  | nil => exact List.nodup_nil
  | cons y l ih =>
    obtain ⟨hy, hl⟩ := List.nodup_cons.1 h
    rw [List.mem_cons, not_or] at hb
    by_cases hay : a = y
    · subst hay
      rw [List.replace_cons_self]
      exact List.nodup_cons.2 ⟨hb.2, hl⟩
    · rw [List.replace_cons, beq_false_of_ne hay]
      refine List.nodup_cons.2 ⟨?_, ih hl hb.2⟩
      rw [mem_replace hl]
      rintro (⟨-, hmem⟩ | ⟨rfl, -⟩)
      · exact hy hmem
      · exact hb.1 rfl

/-- A replaced link leads to the survivor, the others stay. -/
theorem mem_replaceLink {absorbed survivor id : GroupId} {linked : List GroupId}
    (h : linked.Nodup) (hne : survivor ≠ absorbed) :
    id ∈ replaceLink absorbed survivor linked ↔
      id ≠ absorbed ∧ id ∈ linked ∨ id = survivor ∧ absorbed ∈ linked := by
  unfold replaceLink
  split
  · next hmem =>
    have hmem : survivor ∈ linked := by simpa using hmem
    rw [h.mem_erase_iff]
    constructor
    · exact Or.inl
    · rintro (hid | ⟨rfl, -⟩)
      · exact hid
      · exact ⟨hne, hmem⟩
  · exact mem_replace h

theorem nodup_replaceLink {absorbed survivor : GroupId} {linked : List GroupId}
    (h : linked.Nodup) : (replaceLink absorbed survivor linked).Nodup := by
  unfold replaceLink
  split
  · exact h.erase _
  · next hmem => exact nodup_replace h (by simpa using hmem)

/-- The links follow the absorption of a component: `left` takes in `right`, and `rest` are the
other components. -/
theorem Sound.replaceGroup {left right merged : Component} {rest : List Component}
    (h : c.Sound groups) (hgroups : groups.Perm (left :: right :: rest))
    (hids : (groups.map Component.id).Nodup) (hid : merged.id = left.id)
    (hvars : ∀ x, x ∈ merged.vars ↔ x ∈ left.vars ∨ x ∈ right.vars)
    (hgroups' : groups'.Perm (merged :: rest)) :
    (c.replaceGroup right.id left.id).Sound groups' := by
  have hnodup : ((left :: right :: rest).map Component.id).Nodup :=
    (hgroups.map Component.id).nodup_iff.1 hids
  simp only [List.map_cons, List.nodup_cons, List.mem_cons, List.mem_map, not_or, not_exists,
    not_and] at hnodup
  obtain ⟨⟨hne, hleft⟩, hright, -⟩ := hnodup
  have hmerged : c.touches merged = true ↔ c.touches left = true ∨ c.touches right = true := by
    simp only [touches_iff, hvars, and_or_left, exists_or]
  refine ⟨⟨h.aggregates, h.looksAt⟩, nodup_replaceLink h.nodup, fun id => ?_⟩
  show id ∈ replaceLink right.id left.id c.linked ↔
    ∃ g ∈ groups', g.id = id ∧ c.touches g = true
  rw [mem_replaceLink h.nodup hne, h.mem_linked, h.mem_linked]
  simp only [hgroups.mem_iff, hgroups'.mem_iff, List.mem_cons, exists_eq_or_imp, hid, hmerged]
  constructor
  · rintro (⟨hidr, ⟨hl, ht⟩ | ⟨hr, ht⟩ | hrest⟩ | ⟨rfl, ⟨hl, ht⟩ | ⟨-, ht⟩ | ⟨g, hg, hgr, ht⟩⟩)
    · exact Or.inl ⟨hl, Or.inl ht⟩
    · exact absurd hr.symm hidr
    · exact Or.inr hrest
    · exact absurd hl hne
    · exact Or.inl ⟨rfl, Or.inr ht⟩
    · exact absurd hgr (hright g hg)
  · rintro (⟨rfl, ht | ht⟩ | ⟨g, hg, hgid, ht⟩)
    · exact Or.inl ⟨hne, Or.inl ⟨rfl, ht⟩⟩
    · exact Or.inr ⟨rfl, Or.inr (Or.inl ⟨trivial, ht⟩)⟩
    · refine Or.inl ⟨?_, Or.inr (Or.inr ⟨g, hg, hgid, ht⟩)⟩
      rintro rfl
      exact hright g hg hgid

/-- When one component is left, a filter is linked to nothing or to it. -/
theorem Sound.linked_of_singleton {g : Component} (h : c.Sound [g]) :
    c.linked = [] ∨ c.linked = [g.id] := by
  have hmem : ∀ id ∈ c.linked, id = g.id := by
    intro id hid
    obtain ⟨g', hg', rfl, -⟩ := (h.mem_linked id).1 hid
    rw [List.mem_singleton.1 hg']
  have hnodup := h.nodup
  match hlinked : c.linked with
  | [] => exact Or.inl rfl
  | [id] =>
    rw [hmem id (by simp [hlinked])]
    exact Or.inr rfl
  | id :: id' :: rest =>
    rw [hlinked] at hmem hnodup
    rw [hmem id (by simp), hmem id' (by simp)] at hnodup
    simp at hnodup

end Constraint

end GraphPlan
