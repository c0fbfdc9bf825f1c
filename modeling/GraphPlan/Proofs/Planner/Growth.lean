import GraphPlan.Proofs.Constraint
import Mathlib.Data.List.Forall2

/-!
# Plans of components

The plan of a component starts from a scan and grows until all connections are followed. `Building`
is the invariant of this process: the plan has a derivation, the filters that went into it and those
that remain are the ones that there were, and the bound variables are known. Each step keeps it, and
the only errors are those of resolving a filter. That a connection can always be followed is due to
the connectedness of the component.
-/

namespace GraphPlan

/-- A plan under construction: the connections `conns` were followed, and of the filters `exprs`
those of `cs` remain. -/
structure Building (config : Config) (r : Registry) (groups : List Component)
    (conns : List Connection) (exprs : List Expr) (n : Nat) (bound : String → Prop) (p : Plan)
    (cs : List Constraint) : Prop where
  /-- The plan was built from the connections and the filters that do not remain. -/
  derivation : ∃ used, PatternPlan config r conns used n p ∧
    (used ++ cs.map Constraint.expr).Perm exprs
  /-- The bound variables. -/
  bound_iff : ∀ x, p.schema.hasVariable x = true ↔ bound x
  /-- The filters that remain are in order. -/
  sound : ∀ c ∈ cs, c.Sound groups

/-- A component that has a plan of all its connections, built with the filters `used`. -/
def Component.Planned (config : Config) (r : Registry) (g : Component) (used : List Expr)
    (n : Nat) :
    Prop :=
  ∃ plan, g.plan = some plan ∧ PatternPlan config r g.connections used n plan ∧
    ∀ x, plan.schema.hasVariable x = true ↔ x ∈ g.vars

/-- Components that have their plans, with the filters of all of them. -/
inductive PlannedAll (config : Config) (r : Registry) :
    List Component → List Expr → Nat → Prop where
  | nil : PlannedAll config r [] [] 0
  | cons {g : Component} {gs : List Component} {used used' : List Expr} {n n' : Nat}
      (hg : g.Planned config r used n) (hgs : PlannedAll config r gs used' n') :
      PlannedAll config r (g :: gs) (used ++ used') (n + n')

namespace Building

variable {config : Config} {r : Registry} {groups : List Component} {conns : List Connection}
  {exprs : List Expr} {n : Nat} {bound : String → Prop} {p : Plan} {cs : List Constraint}

/-- The filters that remain may be listed in any order, with other counts of missing variables. -/
theorem congr (h : Building config r groups conns exprs n bound p cs) {cs' : List Constraint}
    (hexprs : (cs'.map Constraint.expr).Perm (cs.map Constraint.expr))
    (hsound : ∀ c ∈ cs', c.Sound groups) : Building config r groups conns exprs n bound p cs' := by
  obtain ⟨used, hp, hused⟩ := h.derivation
  exact ⟨⟨used, hp, (hexprs.append_left used).trans hused⟩, h.bound_iff, hsound⟩

end Building

/-! ## Applying filters -/

namespace Constraint

theorem exec_apply (c : Constraint) (config : Config) (p : Plan) :
    PlanM.exec (c.apply config) p =
      (c.expr.resolve ⟨(p.fetch config.attributeScope c.usage).schema, none⟩ >>= fun t =>
        .ok ((), (p.fetch config.attributeScope c.usage).wrap (.select t))) := by
  simp only [apply, PlanM.exec_bind, PlanM.exec_modify, PlanM.exec_get, PlanM.exec_ofExcept,
    ok_bind]
  cases c.expr.resolve ⟨(p.fetch config.attributeScope c.usage).schema, none⟩ <;> rfl

/-- Applying a filter puts it on top of the plan. -/
theorem meets_apply {config : Config} {r : Registry} {groups : List Component}
    {conns : List Connection} {exprs : List Expr} {n : Nat} {bound : String → Prop} {p : Plan}
    {c : Constraint} {cs : List Constraint}
    (h : Building config r groups conns exprs n bound p (c :: cs)) :
    (PlanM.exec (c.apply config) p).Meets
      (fun x => Building config r groups conns exprs n bound x.2 cs) PlanError.IsResolution := by
  obtain ⟨used, hp, hused⟩ := h.derivation
  have hc := h.sound c List.mem_cons_self
  obtain ⟨hp', hvars⟩ := hp.fetches (Plan.fetches_fetch config.attributeScope c.usage p)
  rw [exec_apply]
  have hresolve := Expr.meets_resolve (Scope.valid_single hp'.ofPattern.valid) c.expr
    (by rw [hc.aggregates]; exact nofun)
  cases ht : c.expr.resolve ⟨(p.fetch config.attributeScope c.usage).schema, none⟩ with
  | error e => exact hresolve.failure ht
  | ok t =>
    refine ⟨⟨c.expr :: used, hp'.select ht, ?_⟩, ?_, fun d hd => h.sound d (.tail c hd)⟩
    · exact List.perm_middle.symm.trans hused
    · exact fun x => (hvars x).trans (h.bound_iff x)

end Constraint

namespace PlannerState

variable {config : Config} {r : Registry} {groups : List Component} {conns : List Connection}
  {exprs : List Expr} {n : Nat} {bound : String → Prop} {p : Plan} {cs : List Constraint}
  {g : Component}

/-- Filters that are ready are applied, the others kept. -/
theorem meets_applyReady (id : GroupId) (added : List String) (kept : List Constraint)
    (h : Building config r groups conns exprs n bound p (kept ++ cs)) :
    (PlanM.exec (applyReady config id added cs) p).Meets
      (fun x => Building config r groups conns exprs n bound x.2 (kept ++ x.1))
      PlanError.IsResolution := by
  induction cs generalizing kept p with
  | nil => exact h
  | cons c cs ih =>
    -- marking variables as available changes nothing but a count
    have hmarked : Building config r groups conns exprs n bound p
        (c.markAvailable added :: (kept ++ cs)) := by
      refine h.congr ?_ fun d hd => ?_
      · rw [List.map_cons, List.map_append, List.map_append]
        exact List.perm_middle.symm
      · rcases List.mem_cons.1 hd with rfl | hd
        · exact (h.sound c (by simp)).markAvailable added
        · exact h.sound d (by simp only [List.mem_append, List.mem_cons] at hd ⊢; tauto)
    simp only [applyReady]
    split
    · rw [PlanM.exec_bind]
      exact (Constraint.meets_apply hmarked).bind fun x hx => ih kept hx
    · rw [PlanM.exec_bind]
      have hkept : Building config r groups conns exprs n bound p
          ((kept ++ [c.markAvailable added]) ++ cs) := by
        refine hmarked.congr ((List.Perm.map _ ?_)) fun d hd => hmarked.sound d ?_
        · rw [List.append_assoc]
          exact List.perm_middle
        · simp only [List.mem_append, List.mem_cons, List.not_mem_nil, or_false] at hd ⊢
          tauto
      refine (ih _ hkept).bind fun x hx => ?_
      rw [PlanM.exec_pure, Except.meets_ok]
      rwa [List.append_assoc] at hx

/-! ## The start -/

theorem firstWith?_eq_some {test : Constraint → Bool} {c : Constraint} {rest : List Constraint}
    (h : firstWith? test cs = some (c, rest)) : test c = true ∧ cs.Perm (c :: rest) := by
  rw [firstWith?, Option.map_eq_some_iff] at h
  obtain ⟨⟨d, u, rest'⟩, hpick, heq⟩ := h
  cases heq
  obtain ⟨before, after, rfl, rfl, hc, -⟩ := pick?_test_eq_some hpick
  exact ⟨hc, List.perm_middle⟩

/-- The filter that starts a plan is one of those that can. -/
theorem seedFilter?_eq_some {c : Constraint} {rest : List Constraint}
    (h : seedFilter? r g cs = some (c, rest)) : canSeed g c = true ∧ cs.Perm (c :: rest) := by
  rw [seedFilter?, Option.or_eq_some_iff] at h
  rcases h with h | ⟨-, h⟩
  · obtain ⟨hc, hcs⟩ := firstWith?_eq_some h
    exact ⟨(Bool.and_eq_true_iff.1 hc).1, hcs⟩
  · exact firstWith?_eq_some h

theorem hasVariable_addVariable_empty (x y : String) :
    (Schema.empty.addVariable y).hasVariable x = true ↔ x = y := by
  rw [(Schema.ofPattern_empty.addVariable y).valid.hasVariable_iff]
  simp [Schema.addVariable]

/-- A component with a vertex has a first one. -/
theorem firstNode?_eq_some (h : ∃ x ∈ g.vars, r.kind? x = some .node) :
    ∃ x ∈ g.vars, g.firstNode? r = some x ∧ r.kind? x = some .node := by
  have hnode : ∀ x, (r.lookup x).any Variable.isNode = true ↔ r.kind? x = some .node := by
    intro x
    rw [Registry.kind?]
    cases r.lookup x <;> simp [Variable.isNode]
  obtain ⟨x, hx, hk⟩ := h
  cases hfirst : g.firstNode? r with
  | none =>
    rw [Component.firstNode?, List.find?_eq_none] at hfirst
    exact absurd ((hnode x).2 hk) (hfirst x hx)
  | some y =>
    have hy := List.find?_some hfirst
    exact ⟨y, List.mem_of_find?_eq_some hfirst, rfl, (hnode y).1 hy⟩

/-- Every component has a plan to start from, which binds one of its variables. -/
theorem meets_seed (hg : g.Linked r) (htyped : ∀ c ∈ g.connections, c.Typed r)
    (hreg : ∀ x ∈ g.vars, r.contains x = true) (hcs : ∀ c ∈ cs, c.Sound groups) :
    (seed config r g cs).Meets
      (fun x => ∃ y ∈ g.vars,
        Building config r groups [] (cs.map Constraint.expr) 1 (· = y) x.1 x.2)
      (fun _ => False) := by
  unfold seed
  split
  · next c rest hseed =>
    obtain ⟨hc, hperm⟩ := seedFilter?_eq_some hseed
    obtain ⟨hbasic, hsubject⟩ := Bool.and_eq_true_iff.1 hc
    obtain ⟨x, hx, hxg⟩ := (Option.any_eq_true _ _).1 hsubject
    have hxg : x ∈ g.vars := by simpa [Component.contains] using hxg
    have hsound := hcs c (hperm.mem_iff.2 List.mem_cons_self)
    rw [← c.isSome_scan? config.attributeScope, Option.isSome_iff_exists] at hbasic
    obtain ⟨op, hop⟩ := hbasic
    have hplan : c.seed? config =
        some { Plan.seed op with schema := Schema.empty.addVariable x } := by
      rw [Constraint.seed?, hop, hx]
      rfl
    rw [hplan]
    refine ⟨x, hxg, ⟨[c.expr], .seed (hreg x hxg) (hsound.scansAs hx hop), ?_⟩, ?_, ?_⟩
    · exact (hperm.map Constraint.expr).symm
    · exact fun y => hasVariable_addVariable_empty y x
    · exact fun d hd => hcs d (hperm.mem_iff.2 (.tail c hd))
  · obtain ⟨x, hx, hfirst, hk⟩ := firstNode?_eq_some (hg.exists_node htyped)
    rw [hfirst]
    exact ⟨x, hx, ⟨[], .scan hk, List.Perm.refl _⟩,
      fun y => hasVariable_addVariable_empty y x, hcs⟩

/-! ## Following connections -/

theorem next?_eq_some {s : Schema} {c : Connection} {step : Traversal}
    (h : Traversal.next? s c = some step) :
    ∃ column, s.varColumn? (step.start c) = some column := by
  rw [← Option.isSome_iff_exists]
  unfold Traversal.next? at h
  split at h
  · next hedge =>
    cases h
    exact hedge
  · split at h
    · next hsrc =>
      cases h
      exact hsrc
    · split at h
      · next hdst =>
        cases h
        exact hdst
      · cases h

theorem next?_eq_none {s : Schema} {c : Connection} (h : Traversal.next? s c = none) {x : String}
    (hx : x ∈ c.names) : s.hasVariable x ≠ true := by
  unfold Traversal.next? at h
  split at h
  · cases h
  · next hedge =>
    split at h
    · cases h
    · next hsrc =>
      split at h
      · cases h
      · next hdst =>
        simp only [Connection.names, List.mem_cons, List.not_mem_nil, or_false] at hx
        rcases hx with rfl | rfl | rfl
        · exact hsrc
        · exact hdst
        · exact hedge

/-- Following a connection binds its variables, and filters may become ready. -/
theorem meets_growStep {conn : Connection} {step : Traversal} (id : GroupId) (hconn : conn.Typed r)
    (hstep : Traversal.next? p.schema conn = some step)
    (h : Building config r groups conns exprs n bound p cs) :
    (PlanM.exec (growStep config id conn step cs) p).Meets
      (fun x => Building config r groups (conn :: conns) exprs n
        (fun y => bound y ∨ y ∈ conn.names) x.2 x.1) PlanError.IsResolution := by
  obtain ⟨column, hcolumn⟩ := next?_eq_some hstep
  obtain ⟨used, hp, hused⟩ := h.derivation
  have hfollow : Building config r groups (conn :: conns) exprs n
      (fun y => bound y ∨ y ∈ conn.names) (p.follow conn step column) cs := by
    refine ⟨⟨used, hp.follow hconn hcolumn, hused⟩, fun x => ?_, h.sound⟩
    rw [hp.hasVariable_follow hcolumn, h.bound_iff]
  simp only [growStep, PlanM.exec_bind, PlanM.exec_get, ok_bind, Plan.exec_traverse, hcolumn]
  exact meets_applyReady id _ [] hfollow

/-- If some connection is left, one of those that are left touches the plan. -/
theorem pick?_next?_ne_none {remaining : List Connection} (hg : g.Linked r)
    (h : Building config r groups conns exprs n bound p cs)
    (hperm : (conns ++ remaining).Perm g.connections) (hne : remaining ≠ [])
    (hmeets : ∃ x ∈ g.vars, bound x) : pick? (Traversal.next? p.schema) remaining ≠ none := by
  intro hnone
  rw [pick?_eq_none_iff] at hnone
  obtain ⟨used, hp, -⟩ := h.derivation
  -- otherwise the bound variables are closed under all connections, so all variables are bound
  have hall : ∀ x ∈ g.vars, bound x := by
    refine hg.spread hmeets fun c hc ⟨x, hx, hbound⟩ y hy => ?_
    rcases List.mem_append.1 (hperm.mem_iff.2 hc) with hc | hc
    · exact (h.bound_iff y).1 (hp.hasVariable_of_mem_names hc hy)
    · exact absurd ((h.bound_iff x).2 hbound) (next?_eq_none (hnone c hc) hx)
  obtain ⟨c, hc⟩ := List.exists_mem_of_ne_nil _ hne
  have hcg := hperm.mem_iff.1 (List.mem_append_right conns hc)
  have hsrc : c.src.name ∈ c.names := by simp [Connection.names]
  exact next?_eq_none (hnone c hc) hsrc ((h.bound_iff _).2 (hall _ (hg.mem_vars hcg hsrc)))

/-- A plan that has followed all connections binds all variables. -/
theorem Building.complete (hg : g.Linked r)
    (h : Building config r groups conns exprs n bound p cs) (hperm : conns.Perm g.connections)
    (hmeets : ∃ x ∈ g.vars, bound x) (hsub : ∀ x, bound x → x ∈ g.vars) :
    Building config r groups g.connections exprs n (· ∈ g.vars) p cs := by
  obtain ⟨used, hp, hused⟩ := h.derivation
  refine ⟨⟨used, hp.perm hperm (List.Perm.refl _), hused⟩, fun x => ?_, h.sound⟩
  rw [h.bound_iff]
  refine ⟨hsub x, fun hx => ?_⟩
  refine hg.spread hmeets (fun c hc _ y hy => ?_) x hx
  exact (h.bound_iff y).1 (hp.hasVariable_of_mem_names (hperm.mem_iff.2 hc) hy)

/-- All connections of a component get followed. -/
theorem meets_grow {remaining : List Connection} (hg : g.Linked r)
    (htyped : ∀ c ∈ g.connections, c.Typed r) (k : Nat) (hk : remaining.length = k)
    (h : Building config r groups conns exprs n bound p cs)
    (hperm : (conns ++ remaining).Perm g.connections) (hmeets : ∃ x ∈ g.vars, bound x)
    (hsub : ∀ x, bound x → x ∈ g.vars) :
    (PlanM.exec (grow config g.id k remaining cs) p).Meets
      (fun x => Building config r groups g.connections exprs n (· ∈ g.vars) x.2 x.1)
      PlanError.IsResolution := by
  induction k generalizing remaining conns bound p cs with
  | zero =>
    rw [List.length_eq_zero_iff.1 hk, List.append_nil] at hperm
    exact Building.complete hg h hperm hmeets hsub
  | succ k ih =>
    have hne : remaining ≠ [] := by
      rintro rfl
      cases hk
    rw [grow, PlanM.exec_bind, PlanM.exec_get, ok_bind]
    cases hpick : pick? (Traversal.next? p.schema) remaining with
    | none => exact absurd hpick (pick?_next?_ne_none hg h hperm hne hmeets)
    | some found =>
      obtain ⟨conn, step, rest⟩ := found
      obtain ⟨hrest, hstep⟩ := perm_of_pick?_eq_some hpick
      have hperm' : (conn :: conns ++ rest).Perm g.connections :=
        List.perm_middle.symm.trans ((hrest.symm.append_left conns).trans hperm)
      have hconn : conn ∈ g.connections := hperm'.mem_iff.1 (by simp)
      simp only [PlanM.exec_bind]
      refine (meets_growStep g.id (htyped conn hconn) hstep h).bind fun x hx => ?_
      refine ih ?_ hx hperm' ?_ ?_
      · exact Nat.succ.inj (hrest.length_eq.symm.trans hk)
      · obtain ⟨y, hy, hbound⟩ := hmeets
        exact ⟨y, hy, Or.inl hbound⟩
      · rintro y (hy | hy)
        · exact hsub y hy
        · exact hg.mem_vars hconn hy

/-! ## Whole components -/

/-- Planning a component gives a plan of its connections that binds its variables. -/
theorem meets_groupPlan (hg : g.Linked r) (htyped : ∀ c ∈ g.connections, c.Typed r)
    (hreg : ∀ x ∈ g.vars, r.contains x = true) (hcs : ∀ c ∈ cs, c.Sound groups) :
    (groupPlan config r g cs).Meets
      (fun x => Building config r groups g.connections (cs.map Constraint.expr) 1 (· ∈ g.vars)
        x.1 x.2) PlanError.IsResolution := by
  rw [groupPlan]
  refine ((meets_seed hg htyped hreg hcs).widen fun _ => False.elim).bind fun x ⟨y, hy, hx⟩ => ?_
  refine (meets_applyReady g.id x.1.schema.vars [] hx).bind fun z hz => ?_
  refine (meets_grow hg htyped _ rfl hz (List.Perm.refl _) ⟨y, hy, rfl⟩ ?_).bind fun w hw => hw
  rintro x rfl
  exact hy

/-- Components get their plans; the rest of them stays as it is. -/
theorem meets_groupPlans (gs : List Component) (hgs : ∀ g ∈ gs, g.Linked r)
    (htyped : ∀ g ∈ gs, ∀ c ∈ g.connections, c.Typed r)
    (hreg : ∀ g ∈ gs, ∀ x ∈ g.vars, r.contains x = true) (hcs : ∀ c ∈ cs, c.Sound groups) :
    (groupPlans config r gs cs).Meets
      (fun x => (∃ used, PlannedAll config r x.1 used gs.length ∧
          (used ++ x.2.map Constraint.expr).Perm (cs.map Constraint.expr)) ∧
        (∀ c ∈ x.2, c.Sound groups) ∧
        List.Forall₂ (fun g g' => ∃ plan, g' = g.setPlan plan) gs x.1)
      PlanError.IsResolution := by
  induction gs generalizing cs with
  | nil => exact ⟨⟨[], .nil, List.Perm.refl _⟩, hcs, .nil⟩
  | cons g gs ih =>
    rw [groupPlans]
    refine (meets_groupPlan (hgs g (.head _)) (htyped g (.head _)) (hreg g (.head _)) hcs).bind
      fun x hx => ?_
    refine (ih (fun g hg => hgs g (.tail _ hg)) (fun g hg => htyped g (.tail _ hg))
      (fun g hg => hreg g (.tail _ hg)) hx.sound).bind
        fun y ⟨⟨used', hy, hused'⟩, hsound, hsame⟩ => ?_
    obtain ⟨used, hplan, hused⟩ := hx.derivation
    refine ⟨⟨used ++ used', ?_, ?_⟩, hsound, .cons ⟨x.1, rfl⟩ hsame⟩
    · rw [List.length_cons, Nat.add_comm]
      exact .cons ⟨x.1, rfl, hplan, hx.bound_iff⟩ hy
    · rw [List.append_assoc]
      exact (hused'.append_left used).trans hused

end PlannerState

end GraphPlan
