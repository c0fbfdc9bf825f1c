import GraphPlan.Proofs.Planner.Bindings
import GraphPlan.Proofs.Planner.Counts

/-!
# What one step does to the trees

The trees at a point of a run are the roots of the plans there. A step starts a new tree, puts
operators with one input on trees, or combines two trees by a join or a product: `TreeStep` says so
once for all kinds of points. That no part of a tree is ever lost (`TreeStep.exists_subtree`) and
how joins and products are counted follow from it.
-/

namespace GraphPlan

namespace Operator

/-- Whether an operator joins two inputs by a predicate. -/
def isJoin : Operator → Bool
  | join .. => true
  | _ => false

/-- Whether an operator multiplies two inputs. -/
def isProduct : Operator → Bool
  | product => true
  | _ => false

/-- Whether an operator is one of those with two inputs. -/
def combines (op : Operator) : Bool :=
  op.isJoin || op.isProduct

variable {op : Operator}

theorem isJoin_of_isMatching (h : op.isMatching = false) : op.isJoin = false := by
  cases op <;> simp_all [isMatching, isJoin]

theorem isProduct_of_isMatching (h : op.isMatching = false) : op.isProduct = false := by
  cases op <;> simp_all [isMatching, isProduct]

theorem combines_of_isMatching (h : op.isMatching = false) : op.combines = false := by
  rw [combines, isJoin_of_isMatching h, isProduct_of_isMatching h]
  rfl

end Operator

namespace PlanNode

variable {t t' u : PlanNode} {f : Operator → Bool}

/-! ## Growth of one tree -/

theorem self_mem_subtrees (t : PlanNode) : t ∈ t.subtrees := by
  cases t
  rw [subtrees]
  exact List.mem_cons_self

theorem mem_subtrees_of_mem_inputs {op : Operator} {inputs : List PlanNode} (h : t ∈ inputs)
    (hu : u ∈ t.subtrees) : u ∈ (node op inputs).subtrees := by
  rw [subtrees]
  refine List.mem_cons_of_mem _ ?_
  induction inputs with
  | nil => cases h
  | cons t' inputs ih =>
    rw [subtreesList, List.mem_append]
    rcases List.mem_cons.1 h with rfl | h
    · exact Or.inl hu
    · exact Or.inr (ih h)

/-- `u` is the tree `t` with operators of one input on top. -/
inductive Over (t : PlanNode) : PlanNode → Prop where
  | refl : Over t t
  | unary {u : PlanNode} (h : Over t u) {op : Operator} (hop : op.combines = false) :
      Over t (.node op [u])

theorem Over.mem_subtrees (h : t.Over u) {t' : PlanNode} (ht : t' ∈ t.subtrees) :
    t' ∈ u.subtrees := by
  induction h with
  | refl => exact ht
  | unary _ _ ih => exact mem_subtrees_of_mem_inputs List.mem_cons_self ih

theorem Over.count_eq (h : t.Over u) (hf : ∀ op : Operator, op.combines = false → f op = false) :
    u.count f = t.count f := by
  induction h with
  | refl => rfl
  | unary _ hop ih =>
    rw [count_unary, hf _ hop, ih]
    exact Nat.zero_add _

/-! ## Steps of several trees -/

/-- Trees that grew, each for itself; they may be listed in another order. -/
def Grown (ts ts' : List PlanNode) : Prop :=
  ∃ us, List.Forall₂ Over ts us ∧ us.Perm ts'

/-- Two of the trees were combined after both of them grew. -/
def Combined (op : Operator) (ts ts' : List PlanNode) : Prop :=
  ∃ t t' u u' rest, ts.Perm (t :: t' :: rest) ∧ t.Over u ∧ t'.Over u' ∧
    ts'.Perm (.node op [u, u'] :: rest)

/-- What a step can do to the trees. -/
inductive TreeStep (ts ts' : List PlanNode) : Prop where
  | grow (h : Grown ts ts')
  | start {op : Operator} (hop : op.combines = false) (h : ts'.Perm (.leaf op :: ts))
  | combine {op : Operator} (h : Combined op ts ts')

variable {ts ts' rest : List PlanNode}

theorem Grown.refl (ts : List PlanNode) : Grown ts ts :=
  ⟨ts, List.forall₂_same.2 fun _ _ => .refl, .refl ts⟩

/-- One of the trees grew. -/
theorem Grown.one (h : ts.Perm (t :: rest)) (hu : t.Over u) (h' : ts'.Perm (u :: rest)) :
    Grown ts ts' := by
  have hall : List.Forall₂ Over (t :: rest) (u :: rest) :=
    .cons hu (List.forall₂_same.2 fun _ _ => .refl)
  obtain ⟨us, hus, hperm⟩ := List.perm_comp_forall₂ h hall
  exact ⟨us, hus, hperm.trans h'.symm⟩

/-- No part of a tree is lost. -/
theorem TreeStep.exists_subtree (h : TreeStep ts ts') (ht : t ∈ ts) :
    ∃ u ∈ ts', ∀ s ∈ t.subtrees, s ∈ u.subtrees := by
  cases h with
  | grow h =>
    obtain ⟨us, hus, hperm⟩ := h
    have hgrown : ∃ u ∈ us, t.Over u := by
      clear hperm
      induction hus with
      | nil => cases ht
      | cons hover _ ih =>
        rcases List.mem_cons.1 ht with rfl | ht
        · exact ⟨_, List.mem_cons_self, hover⟩
        · obtain ⟨u, hu, hover⟩ := ih ht
          exact ⟨u, List.mem_cons_of_mem _ hu, hover⟩
    obtain ⟨u, hu, hover⟩ := hgrown
    exact ⟨u, hperm.mem_iff.1 hu, fun s hs => hover.mem_subtrees hs⟩
  | start _ h => exact ⟨t, h.mem_iff.2 (List.mem_cons_of_mem _ ht), fun s hs => hs⟩
  | @combine op h =>
    obtain ⟨t₁, t₂, u₁, u₂, rest, hts, h₁, h₂, hts'⟩ := h
    have hroot : PlanNode.node op [u₁, u₂] ∈ ts' := hts'.mem_iff.2 List.mem_cons_self
    rcases List.mem_cons.1 (hts.mem_iff.1 ht) with rfl | ht
    · refine ⟨_, hroot, fun s hs => ?_⟩
      exact mem_subtrees_of_mem_inputs List.mem_cons_self (h₁.mem_subtrees hs)
    · rcases List.mem_cons.1 ht with rfl | ht
      · refine ⟨_, hroot, fun s hs => ?_⟩
        exact mem_subtrees_of_mem_inputs (.tail _ List.mem_cons_self) (h₂.mem_subtrees hs)
      · exact ⟨t, hts'.mem_iff.2 (List.mem_cons_of_mem _ ht), fun s hs => hs⟩

/-! ## Products -/

/-- The number of products in several trees. -/
def products (ts : List PlanNode) : Nat :=
  (ts.flatMap operators).countP Operator.isProduct

theorem products_cons (t : PlanNode) (ts : List PlanNode) :
    products (t :: ts) = t.count Operator.isProduct + products ts := by
  unfold products count
  rw [List.flatMap_cons, List.countP_append]

theorem products_perm (h : ts.Perm ts') : products ts = products ts' :=
  (h.flatMap_right _).countP_eq _

theorem Over.isProduct_eq (h : t.Over u) :
    u.count Operator.isProduct = t.count Operator.isProduct := by
  refine h.count_eq ?_
  intro op hop
  exact (Bool.or_eq_false_iff.1 hop).2

theorem Grown.products_eq (h : Grown ts ts') : products ts' = products ts := by
  obtain ⟨us, hus, hperm⟩ := h
  rw [← products_perm hperm]
  clear hperm
  induction hus with
  | nil => rfl
  | cons hover _ ih =>
    rw [products_cons, products_cons, ih, hover.isProduct_eq]

theorem Grown.length_eq (h : Grown ts ts') : ts'.length = ts.length := by
  obtain ⟨us, hus, hperm⟩ := h
  rw [← hperm.length_eq, hus.length_eq]

theorem Combined.products_eq {op : Operator} (h : Combined op ts ts') :
    products ts' = op.isProduct.toNat + products ts := by
  obtain ⟨t, t', u, u', rest, hts, hu, hu', hts'⟩ := h
  rw [products_perm hts, products_perm hts']
  rw [products_cons, products_cons, products_cons, count_binary, hu.isProduct_eq, hu'.isProduct_eq]
  omega

theorem Combined.length_eq {op : Operator} (h : Combined op ts ts') :
    ts.length = ts'.length + 1 := by
  obtain ⟨t, t', u, u', rest, hts, -, -, hts'⟩ := h
  rw [hts.length_eq, hts'.length_eq]
  simp only [List.length_cons]

end PlanNode

open PlanNode (Over Grown Combined TreeStep)

variable {config : Config} {q : Query} {r : Registry}

/-! ## Growth of plans -/

namespace Plan

variable {p p' : Plan}

theorem Widens.over (h : Widens config p p') : p.root.Over p'.root := by
  refine h.root_induction (motive := fun t => p.root.Over t) ?_ .refl
  intro op t hop ht
  exact ht.unary (Operator.combines_of_isMatching (Operator.isMatching_of_isAddition hop))

theorem over_fetch (config : Config) (usage : Usage) (p : Plan) :
    p.root.Over (p.fetch config.attributeScope usage).root :=
  (fetches_fetch config.attributeScope usage p).widens.over

theorem over_follow (p : Plan) (c : Connection) (step : Traversal) (column : Nat) :
    p.root.Over (p.follow c step column).root := by
  have hstep : p.root.Over (.node (step.operator column) [p.root]) := by
    refine Over.refl.unary ?_
    rcases step with _ | _
    · rfl
    · rfl
  unfold follow matchPairs
  split
  · exact hstep
  · exact hstep.unary rfl

end Plan

theorem PlanNode.Puts.over {l : Layer} {b : Bool} {t t' : PlanNode} (h : Puts l b t t') :
    t.Over t' := by
  cases h with
  | layer t hop =>
    exact Over.refl.unary (Operator.combines_of_isMatching (Operator.isMatching_of_layer? hop))
  | nothing => exact .refl

theorem Constraint.over_apply {c : Constraint} {p : Plan} {x : Unit × Plan}
    (h : PlanM.exec (c.apply config) p = .ok x) : p.root.Over x.2.root := by
  rw [exec_apply] at h
  obtain ⟨t, -, h⟩ := eq_ok_of_bind_eq_ok h
  cases h
  exact (Plan.over_fetch config c.usage p).unary rfl

theorem Constraint.over_applyJoin {c : Constraint} {p p' : Plan} {x : Unit × Plan}
    (hp' : (p'.fetch config.attributeScope c.usage).schema.OfPattern)
    (h : PlanM.exec (c.applyJoin config p') p = .ok x) :
    ∃ t u u', x.2.root = .node (.join t config.joinType) [u, u'] ∧ p.root.Over u ∧
      p'.root.Over u' := by
  rw [exec_applyJoin hp'] at h
  obtain ⟨t, -, h⟩ := eq_ok_of_bind_eq_ok h
  cases h
  exact ⟨t, _, _, rfl, Plan.over_fetch config c.usage p, Plan.over_fetch config c.usage p'⟩

theorem Expr.ScansAs.combines_eq {scope x : String} {e : Expr} {op : Operator}
    (h : e.ScansAs scope x op) : op.combines = false := by
  cases h with
  | label => rfl
  | comparison => rfl

/-- A tree with `n` leaves is combined from them by `n - 1` joins and products. -/
theorem PatternPlan.count_combinations {cs : List Connection} {es : List Expr} {n : Nat} {p : Plan}
    (h : PatternPlan config r cs es n p) :
    p.root.count Operator.isJoin + p.root.count Operator.isProduct + 1 = n := by
  have hover : ∀ {t u : PlanNode}, t.Over u → u.count Operator.isJoin +
      u.count Operator.isProduct = t.count Operator.isJoin + t.count Operator.isProduct := by
    intro t u hover
    have hjoin : u.count Operator.isJoin = t.count Operator.isJoin :=
      hover.count_eq fun op hop => (Bool.or_eq_false_iff.1 hop).1
    rw [hjoin, hover.isProduct_eq]
  induction h with
  | scan => rfl
  | seed _ hscan =>
    cases hscan with
    | label => rfl
    | comparison => rfl
  | fetch h hf ih =>
    have hgrown := hover (Plan.Fetches.widens (.single hf)).over
    omega
  | @follow _ _ _ p c step column h _ _ ih =>
    have hgrown := hover (Plan.over_follow p c step column)
    omega
  | @select _ _ _ p e t h ht ih =>
    have hselect : p.root.Over (.node (.select t) [p.root]) := PlanNode.Over.refl.unary rfl
    exact hover hselect ▸ ih
  | @join _ _ _ _ n n' p p' e t h h' _ _ ih ih' =>
    have hroot : (p.beside p' (.join t config.joinType)).root =
        .node (.join t config.joinType) [p.root, p'.root] := rfl
    rw [hroot, PlanNode.count_binary, PlanNode.count_binary]
    simp only [Operator.isJoin, Operator.isProduct, Bool.toNat_true, Bool.toNat_false]
    omega
  | @product _ _ _ _ n n' p p' h h' _ ih ih' =>
    have hroot : (p.beside p' .product).root = .node .product [p.root, p'.root] := rfl
    rw [hroot, PlanNode.count_binary, PlanNode.count_binary]
    simp only [Operator.isJoin, Operator.isProduct, Bool.toNat_true, Bool.toNat_false]
    omega
  | perm _ _ _ ih => exact ih

/-! ## What joins and products do to components -/

namespace PlannerState

variable {s s' : PlannerState} {n : Nat}

/-- A plan starts as a scan. -/
theorem exists_leaf_of_seed {g : Component} {groups : List Component} {cs : List Constraint}
    {x : Plan × List Constraint} (hcs : ∀ c ∈ cs, c.Sound groups)
    (h : seed config r g cs = .ok x) :
    ∃ op : Operator, op.combines = false ∧ x.1.root = .leaf op := by
  unfold seed at h
  split at h
  · next c rest hseed =>
    have hc := hcs c ((seedFilter?_eq_some hseed).2.mem_iff.2 List.mem_cons_self)
    split at h
    · next plan hplan =>
      cases h
      simp only [Constraint.seed?, Option.bind_eq_bind, Option.bind_eq_some_iff, Option.pure_def,
        Option.some.injEq] at hplan
      obtain ⟨op, hop, y, hy, rfl⟩ := hplan
      exact ⟨op, (hc.scansAs hy hop).combines_eq, rfl⟩
    · cases h
  · split at h
    · cases h
      exact ⟨.scanNodes, rfl, rfl⟩
    · cases h

/-- What a join does to components: the one that its filter lists first takes in the other one, and
its plan becomes the left input. -/
theorem joinGroups_eq_ok {c : Constraint} {left right : GroupId} {groups : List Component}
    (h : Progress config q r n s.groups s.constraints) (hc : c ∈ s.constraints)
    (hlinked : c.linked = [left, right])
    (hgroups : joinGroups config c left right s.groups = .ok groups) :
    ∃ g g' p p' x rest, g.id = left ∧ g'.id = right ∧ s.groups.Perm (g :: g' :: rest) ∧
      g.plan = some p ∧ g'.plan = some p' ∧
      (∃ t u u', x.root = .node (.join t config.joinType) [u, u'] ∧ p.root.Over u ∧
        p'.root.Over u') ∧
      groups.Perm ((g.setPlan x).absorb { g' with plan := none } :: rest) := by
  obtain ⟨absorbed, rest, p', hperm, rfl, hp', hleft, heq⟩ := joinGroups_eq config h hc hlinked
  rw [heq] at hgroups
  have hmodify : (modifyGroup left (fun g => onPlan (c.applyJoin config p') g >>= fun g =>
      .ok (g.absorb { absorbed with plan := none })) rest).Meets _ fun _ => True :=
    meets_modifyGroup hleft fun _ _ _ _ _ => trivial
  obtain ⟨g, merged, others, hrest, rfl, hmerged, hperm'⟩ := hmodify.result hgroups
  have hg : g ∈ s.groups := hperm.mem_iff.2 (.tail _ (hrest.mem_iff.2 List.mem_cons_self))
  obtain ⟨u, m, p, hp, -⟩ := h.planned hg
  obtain ⟨u', m', p'', hp'', hderiv', -⟩ := h.planned (hperm.mem_iff.2 List.mem_cons_self)
  cases hp'.symm.trans hp''
  obtain ⟨joined, hjoined, hmerged⟩ := eq_ok_of_bind_eq_ok hmerged
  rw [onPlan_eq hp] at hjoined
  obtain ⟨x, hx, hjoined⟩ := eq_ok_of_bind_eq_ok hjoined
  cases hjoined
  cases hmerged
  obtain ⟨hfetched, -⟩ := hderiv'.fetches (Plan.fetches_fetch config.attributeScope c.usage p')
  refine ⟨g, absorbed, p, p', x.2, others, rfl, rfl, ?_, hp, hp',
    Constraint.over_applyJoin hfetched.ofPattern hx, hperm'⟩
  exact hperm.trans ((hrest.cons absorbed).trans (List.Perm.swap g absorbed others))

/-- What a round of joining can do: apply a filter to the plan of its only component, or join the
two components of a filter. -/
theorem joinStep_cases (h : Progress config q r n s.groups s.constraints)
    (hs' : joinStep config s = .ok (some s')) :
    (∃ g p x rest, s.groups.Perm (g :: rest) ∧ g.plan = some p ∧ p.root.Over x.root ∧
      s'.groups.Perm (g.setPlan x :: rest)) ∨
    ∃ c ∈ s.constraints, ∃ left right p p' x rest,
      c.linked = [left.id, right.id] ∧ s.groups.Perm (left :: right :: rest) ∧
      left.plan = some p ∧ right.plan = some p' ∧
      (∃ t u u', x.root = .node (.join t config.joinType) [u, u'] ∧ p.root.Over u ∧
        p'.root.Over u') ∧
      s'.groups.Perm ((left.setPlan x).absorb { right with plan := none } :: rest) := by
  unfold joinStep at hs'
  split at hs'
  · cases hs'
  · next c target rest hpick =>
    obtain ⟨groups, hgroups, hs'⟩ := eq_ok_of_bind_eq_ok hs'
    cases hs'
    obtain ⟨hcs, hlinks⟩ := perm_of_pick?_eq_some hpick
    have hlinked : c.linked = [target] := links?_eq_some hlinks
    have hsound := h.sound c (hcs.mem_iff.2 List.mem_cons_self)
    obtain ⟨g₀, hg₀, hid₀, -⟩ := (hsound.mem_linked target).1 (by simp [hlinked])
    have hmodify : (modifyGroup target (onPlan (c.apply config)) s.groups).Meets _ fun _ => True :=
      meets_modifyGroup ⟨g₀, hg₀, hid₀⟩ fun _ _ _ _ _ => trivial
    obtain ⟨g, g', others, hperm, -, hg', hperm'⟩ := hmodify.result hgroups
    obtain ⟨u, m, p, hp, -⟩ := h.planned (hperm.mem_iff.2 List.mem_cons_self)
    rw [onPlan_eq hp] at hg'
    obtain ⟨x, hx, hg'⟩ := eq_ok_of_bind_eq_ok hg'
    cases hg'
    exact Or.inl ⟨g, p, x.2, others, hperm, hp, Constraint.over_apply hx, hperm'⟩
  · next c left right rest hpick =>
    obtain ⟨groups, hgroups, hs'⟩ := eq_ok_of_bind_eq_ok hs'
    cases hs'
    obtain ⟨hcs, hlinks⟩ := perm_of_pick?_eq_some hpick
    have hlinked : c.linked = [left, right] := links?_eq_some hlinks
    have hc : c ∈ s.constraints := hcs.mem_iff.2 List.mem_cons_self
    obtain ⟨g, g', p, p', x, others, rfl, rfl, hperm, hp, hp', hroot, hperm'⟩ :=
      joinGroups_eq_ok h hc hlinked hgroups
    exact Or.inr ⟨c, hc, g, g', p, p', x, others, hlinked, hperm, hp, hp', hroot, hperm'⟩

/-- What a product does. -/
theorem productStep_eq {first other : Component} {rest : List Component} {cs : List Constraint}
    {x : Component × List Constraint} (h : Progress config q r n (first :: other :: rest) cs)
    (hx : productStep first other cs = .ok x) :
    ∃ p p', first.plan = some p ∧ other.plan = some p' ∧
      x.1.plan = some (p.beside p' .product) := by
  obtain ⟨u, m, p, hp, -⟩ := h.planned (g := first) (by simp)
  obtain ⟨u', m', p', hp', hderiv', -⟩ := h.planned (g := other) (by simp)
  have hexec : PlanM.exec (multiply p') p = .ok ((), p.beside p' .product) := by
    simp only [multiply, PlanM.exec_bind, PlanM.exec_onSchema, outcome,
      hderiv'.ofPattern.append_eq_ok, ok_bind, PlanM.exec_modify]
    rfl
  rw [productStep, Component.takePlan, hp, ok_bind] at hx
  simp only [Component.takePlan, hp', ok_bind, hexec] at hx
  cases hx
  exact ⟨p, p', hp, hp', rfl⟩

end PlannerState

/-! ## Trees along a run -/

/-- The trees of the plans of components. -/
def Component.roots (gs : List Component) : List PlanNode :=
  (gs.filterMap Component.plan).map Plan.root

namespace Component

variable {gs gs' : List Component}

theorem roots_perm (h : gs.Perm gs') : (roots gs).Perm (roots gs') :=
  (h.filterMap _).map _

theorem roots_cons {g : Component} {p : Plan} (h : g.plan = some p) :
    roots (g :: gs) = p.root :: roots gs := by
  rw [roots, List.filterMap_cons_some h, List.map_cons]
  rfl

end Component

namespace Point

variable {a b : Point}

/-- How far a run is: components get their plans, the plans are combined, or results are made. -/
def phase : Point → Nat
  | seeding .. | checking .. | growing .. => 0
  | joining .. | multiplying .. | closing .. | filtering .. | matched _ => 1
  | _ => 2

/-- A run does not go back. -/
theorem phase_le_of_step (hb : a.step config q r = .ok b) : a.phase ≤ b.phase := by
  cases a with
  | seeding | checking | growing => exact Nat.zero_le _
  | joining groups cs =>
    obtain ⟨o, -, hb⟩ := eq_ok_of_atStage_bind_eq_ok hb
    cases o <;> cases hb <;> exact Nat.le_refl _
  | multiplying groups cs =>
    match groups with
    | [] | [g] =>
      cases hb
      exact Nat.le_refl _
    | first :: other :: rest =>
      obtain ⟨x, -, hb⟩ := eq_ok_of_atStage_bind_eq_ok hb
      cases hb
      exact Nat.le_refl _
  | closing groups cs =>
    match groups with
    | [] => cases hb
    | [g] =>
      obtain ⟨x, -, hb⟩ := eq_ok_of_atStage_bind_eq_ok hb
      cases hb
      exact Nat.le_refl _
    | first :: other :: rest => cases hb
  | filtering g p cs =>
    cases cs with
    | nil =>
      cases hb
      exact Nat.le_refl _
    | cons c cs =>
      simp only [Point.step] at hb
      split at hb
      · obtain ⟨x, -, hb⟩ := eq_ok_of_atStage_bind_eq_ok hb
        cases hb
        exact Nat.le_refl _
      · cases hb
  | matched p | projected p | finished p =>
    cases hb
    simp [phase]
  | keying groupBy todo p | valuing projection todo p | sorting projection orderBy todo p =>
    cases todo with
    | nil =>
      cases hb
      exact Nat.le_refl _
    | cons =>
      obtain ⟨x, -, hb⟩ := eq_ok_of_atStage_bind_eq_ok hb
      cases hb
      exact Nat.le_refl _
  | collecting groupBy todo x =>
    cases todo <;> obtain ⟨y, -, hb⟩ := eq_ok_of_atStage_bind_eq_ok hb <;> cases hb <;>
      exact Nat.le_refl _
  | ordered projection p =>
    obtain ⟨x, -, hb⟩ := eq_ok_of_atStage_bind_eq_ok hb
    cases hb
    exact Nat.le_refl _

/-- The trees at a point. -/
def roots (a : Point) : List PlanNode :=
  a.plans.map Plan.root

theorem mem_roots {t : PlanNode} : t ∈ a.roots ↔ ∃ p ∈ a.plans, p.root = t :=
  List.mem_map

theorem roots_joining (groups : List Component) (cs : List Constraint) :
    (joining groups cs).roots = Component.roots groups := by
  simp [Point.roots, plans, planned, Component.roots]

theorem roots_multiplying (groups : List Component) (cs : List Constraint) :
    (multiplying groups cs).roots = Component.roots groups := by
  simp [Point.roots, plans, planned, Component.roots]

/-- Joining applies a filter to one tree, or combines two of them by a join. -/
theorem roots_joinStep {s s' : PlannerState} {n : Nat}
    (h : Progress config q r n s.groups s.constraints)
    (hs' : PlannerState.joinStep config s = .ok (some s')) :
    Grown (Component.roots s.groups) (Component.roots s'.groups) ∨
      ∃ t, Combined (.join t config.joinType) (Component.roots s.groups)
        (Component.roots s'.groups) := by
  rcases PlannerState.joinStep_cases h hs' with
    ⟨g, p, x, rest, hgroups, hp, hover, hgroups'⟩ |
    ⟨c, -, left, right, p, p', x, rest, -, hgroups, hp, hp', ⟨t, u, u', hroot, hu, hu'⟩, hgroups'⟩
  · have hts := Component.roots_perm hgroups
    have hts' := Component.roots_perm hgroups'
    rw [Component.roots_cons hp] at hts
    rw [Component.roots_cons (p := x) rfl] at hts'
    exact Or.inl (.one hts hover hts')
  · have hts := Component.roots_perm hgroups
    have hts' := Component.roots_perm hgroups'
    rw [Component.roots_cons hp, Component.roots_cons hp'] at hts
    rw [Component.roots_cons (p := x) rfl, hroot] at hts'
    exact Or.inr ⟨t, _, _, u, u', _, hts, hu, hu', hts'⟩

/-- A product combines the first two trees. -/
theorem roots_productStep {first other : Component} {rest : List Component}
    {cs : List Constraint} {n : Nat} {x : Component × List Constraint}
    (h : Progress config q r n (first :: other :: rest) cs)
    (hx : PlannerState.productStep first other cs = .ok x) :
    Combined .product (Component.roots (first :: other :: rest))
      (Component.roots (x.1 :: rest)) := by
  obtain ⟨p, p', hp, hp', hx⟩ := PlannerState.productStep_eq h hx
  refine ⟨p.root, p'.root, p.root, p'.root, Component.roots rest, ?_, .refl, .refl, ?_⟩
  · rw [Component.roots_cons hp, Component.roots_cons hp']
  · rw [Component.roots_cons hx]
    exact .refl _

/-- One tree at the end of the list grew. -/
theorem grown_last {ts : List PlanNode} {t u : PlanNode} (h : t.Over u) :
    Grown (ts ++ [t]) (ts ++ [u]) :=
  .one (List.perm_append_singleton t ts) h (List.perm_append_singleton u ts)

/-- While a component gets its plan, one tree is started and then grows. -/
theorem treeStep_seeding {done todo : List Component} {cs : List Constraint}
    (h : Seeding config q r done todo cs)
    (hb : (seeding done todo cs).step config q r = .ok b) :
    TreeStep (seeding done todo cs).roots b.roots := by
  cases todo with
  | nil =>
    cases hb
    exact .grow (.refl _)
  | cons g todo =>
    obtain ⟨x, hx, hb⟩ := eq_ok_of_atStage_bind_eq_ok hb
    cases hb
    obtain ⟨op, hop, hroot⟩ := PlannerState.exists_leaf_of_seed h.sound hx
    refine .start hop ?_
    rw [← hroot]
    simp only [Point.roots, plans, planned, List.append_nil, List.map_append]
    exact List.perm_append_singleton _ _

theorem treeStep_checking {d : Draft} {added : List String} {kept waiting : List Constraint}
    (hb : (checking d added kept waiting).step config q r = .ok b) :
    TreeStep (checking d added kept waiting).roots b.roots := by
  cases waiting with
  | nil =>
    cases hb
    exact .grow (.refl _)
  | cons c waiting =>
    simp only [Point.step] at hb
    split at hb
    · obtain ⟨x, hx, hb⟩ := eq_ok_of_atStage_bind_eq_ok hb
      cases hb
      simp only [Point.roots, plans, planned, List.map_append]
      exact .grow (grown_last (Constraint.over_apply hx))
    · cases hb
      exact .grow (.refl _)

theorem treeStep_growing {d : Draft} {cs : List Constraint}
    (hb : (growing d cs).step config q r = .ok b) : TreeStep (growing d cs).roots b.roots := by
  obtain ⟨done, g, todo, p, remaining⟩ := d
  cases remaining with
  | nil =>
    cases hb
    simp only [Point.roots, plans, planned, List.filterMap_append, List.append_nil]
    exact .grow (.refl _)
  | cons conn conns =>
    simp only [Point.step] at hb
    split at hb
    · cases hb
    · next next how rest hpick =>
      obtain ⟨x, hx, hb⟩ := eq_ok_of_atStage_bind_eq_ok hb
      cases hb
      rw [Plan.exec_traverse] at hx
      split at hx
      · cases hx
      · cases hx
        simp only [Point.roots, plans, planned, List.map_append]
        exact .grow (grown_last (Plan.over_follow p next how _))

/-- No step does anything else to the trees than `TreeStep` says. -/
theorem Good.treeStep (h : a.Good config q r) (hb : a.step config q r = .ok b) :
    TreeStep a.roots b.roots := by
  have hgrown : ∀ p p' : Plan, p.root.Over p'.root → TreeStep [p.root] [p'.root] := by
    intro p p' hover
    exact .grow (.one (.refl _) hover (.refl _))
  cases h with
  | seeding h => exact treeStep_seeding h hb
  | checking => exact treeStep_checking hb
  | growing => exact treeStep_growing hb
  | @joining groups cs n h =>
    obtain ⟨o, ho, hb⟩ := eq_ok_of_atStage_bind_eq_ok hb
    cases o with
    | none =>
      cases hb
      exact .grow (.refl _)
    | some s =>
      cases hb
      rw [roots_joining, roots_joining]
      rcases roots_joinStep (s := ⟨r, groups, cs⟩) h ho with hgrown | ⟨t, hcombined⟩
      · exact .grow hgrown
      · exact .combine hcombined
  | @multiplying groups cs n h =>
    match groups with
    | [] => exact absurd rfl h.nonempty
    | [g] =>
      cases hb
      exact .grow (.refl _)
    | first :: other :: rest =>
      obtain ⟨x, hx, hb⟩ := eq_ok_of_atStage_bind_eq_ok hb
      cases hb
      rw [roots_multiplying, roots_multiplying]
      exact .combine (roots_productStep h hx)
  | @closing g cs n h =>
    obtain ⟨x, hx, hb⟩ := eq_ok_of_atStage_bind_eq_ok hb
    cases hb
    obtain ⟨_, _, p, hp, -⟩ := h.planned (g := g) (by simp)
    rw [Component.takePlan, hp] at hx
    cases hx
    have hroots : (Point.closing [g] cs).roots = [p.root] := by
      simp [Point.roots, plans, planned, hp]
    rw [hroots]
    exact hgrown p p .refl
  | @filtering g p cs n h =>
    cases cs with
    | nil =>
      cases hb
      exact .grow (.refl _)
    | cons c cs =>
      simp only [Point.step] at hb
      split at hb
      · obtain ⟨x, hx, hb⟩ := eq_ok_of_atStage_bind_eq_ok hb
        cases hb
        exact hgrown p x.2 (Constraint.over_apply hx)
      · cases hb
  | matched =>
    cases hb
    exact .grow (.refl _)
  | @keying groupBy keys p h =>
    cases keys with
    | nil =>
      cases hb
      exact .grow (.refl _)
    | cons key keys =>
      obtain ⟨x, hx, hb⟩ := eq_ok_of_atStage_bind_eq_ok hb
      cases hb
      exact hgrown p x.2 ((Plan.meets_groupColumn key h.sharp.valid).result hx).1.over
  | @collecting groupBy todo x h =>
    cases todo with
    | nil =>
      obtain ⟨y, hy, hb⟩ := eq_ok_of_atStage_bind_eq_ok hb
      cases hb
      rw [Plan.exec_group x.aggregates h.lt_width] at hy
      cases hy
      exact hgrown x.plan _ (Plan.puts_grouped x.plan groupBy x.aggregates).over
    | cons entry todo =>
      obtain ⟨y, hy, hb⟩ := eq_ok_of_atStage_bind_eq_ok hb
      cases hb
      exact hgrown x.plan y.2.plan ((entry.2.meets_extract h.sharp.valid).result hy).widens.over
  | @valuing projection elems p h helems hready =>
    cases elems with
    | nil =>
      cases hb
      exact .grow (.refl _)
    | cons elem elems =>
      obtain ⟨x, hx, hb⟩ := eq_ok_of_atStage_bind_eq_ok hb
      cases hb
      exact hgrown p x.2 ((Plan.meets_projectionColumn h.sharp.valid
        (hready elem List.mem_cons_self)).result hx).1.over
  | @sorting projection orderBy elems p h helems hready =>
    cases elems with
    | nil =>
      cases hb
      exact hgrown p _ (Plan.puts_sorted p orderBy).over
    | cons elem elems =>
      obtain ⟨x, hx, hb⟩ := eq_ok_of_atStage_bind_eq_ok hb
      cases hb
      exact hgrown p x.2 ((Plan.meets_orderColumn h.sharp.valid
        (hready elem List.mem_cons_self)).result hx).1.over
  | @ordered projection p h =>
    obtain ⟨x, hx, hb⟩ := eq_ok_of_atStage_bind_eq_ok hb
    cases hb
    rw [Plan.exec_project h.lt_width] at hx
    cases hx
    exact hgrown p _ (Plan.puts_projected p projection).over
  | @projected p h =>
    cases hb
    exact hgrown p _ (Plan.puts_slice p q.offset q.limit).over
  | finished =>
    cases hb
    exact .grow (.refl _)

end Point

end GraphPlan
