import GraphPlan.Planner.Basic
import GraphPlan.Proofs.Planner.Result
import Mathlib.Logic.Relation

/-!
# Planning as a run

`Query.plan` gives the result of planning, not what happens on the way. Here the same computation is
a machine: a `Point` is what the planner holds between two of its steps, and `Point.step` does one
step, from the first scan of the first component to the window of rows. Each of its steps is one of
the planner's own functions, so that there is nothing new in it but where a run can be looked at.

`leads_plan` says that the machine and `Query.plan` agree: the run ends with the plan, or it gets
stuck with the failure. What is to hold all the way through planning is stated of the points that a
run visits, and follows from what one step keeps.
-/

namespace GraphPlan

/-! ## Stages -/

theorem atStage_bind {α β : Type} (stage : Stage) (x : Except PlanError α)
    (f : α → Except PlanError β) :
    atStage stage (x >>= f) = atStage stage x >>= fun a => atStage stage (f a) := by
  cases x <;> rfl

@[simp]
theorem atStage_ok {α : Type} (stage : Stage) (a : α) :
    atStage stage (.ok a : Except PlanError α) = .ok a :=
  rfl

@[simp]
theorem atStage_pure {α : Type} (stage : Stage) (a : α) :
    atStage stage (pure a : Except PlanError α) = .ok a :=
  rfl

theorem eq_ok_of_atStage_eq_ok {α : Type} {stage : Stage} {x : Except PlanError α} {a : α}
    (h : atStage stage x = .ok a) : x = .ok a := by
  cases x with
  | error e => cases h
  | ok b =>
    cases h
    rfl

/-- What a step that calls a function of the planner goes on with. -/
theorem eq_ok_of_atStage_bind_eq_ok {α β : Type} {stage : Stage} {x : Except PlanError α}
    {f : α → Except Failure β} {b : β} (h : atStage stage x >>= f = .ok b) :
    ∃ a, x = .ok a ∧ f a = .ok b := by
  obtain ⟨a, ha, h⟩ := eq_ok_of_bind_eq_ok h
  exact ⟨a, eq_ok_of_atStage_eq_ok ha, h⟩

/-! ## The machine -/

/-- The plan of one component under construction. -/
structure Draft where
  /-- The components that have their plans. -/
  done : List Component
  /-- The component. -/
  group : Component
  /-- The components that are still to come. -/
  todo : List Component
  /-- The plan so far. -/
  plan : Plan
  /-- The connections that have not been followed. -/
  remaining : List Connection

/-- All components, whether they have plans or not. -/
def Draft.groups (d : Draft) : List Component :=
  d.done ++ d.group :: d.todo

/-- What the planner holds between two steps. -/
inductive Point where
  /-- The next component gets its plan. -/
  | seeding (done todo : List Component) (cs : List Constraint)
  /-- Variables were bound, and one filter after the other is looked at. -/
  | checking (d : Draft) (added : List String) (kept waiting : List Constraint)
  /-- A connection is to be followed. -/
  | growing (d : Draft) (cs : List Constraint)
  /-- All components have plans, and filters join them. -/
  | joining (groups : List Component) (cs : List Constraint)
  /-- The first component is multiplied with the second. -/
  | multiplying (groups : List Component) (cs : List Constraint)
  /-- No two components are left to be multiplied. -/
  | closing (groups : List Component) (cs : List Constraint)
  /-- The filters that remain are applied to the plan of the last component. -/
  | filtering (g : Component) (p : Plan) (cs : List Constraint)
  /-- The plan finds the matches of the pattern. -/
  | matched (p : Plan)
  /-- The grouping keys get columns. -/
  | keying (groupBy : List Nat) (keys : List GroupKey) (p : Plan)
  /-- The aggregates of results and sort keys are collected. -/
  | collecting (groupBy : List Nat) (todo : List (Stage × Expr)) (x : Extraction)
  /-- The results get columns. -/
  | valuing (projection : List Nat) (elems : List ProjectionElem) (p : Plan)
  /-- The sort keys get columns. -/
  | sorting (projection orderBy : List Nat) (elems : List OrderElem) (p : Plan)
  /-- The rows are in order. -/
  | ordered (projection : List Nat) (p : Plan)
  /-- Only the results are left. -/
  | projected (p : Plan)
  /-- The plan is complete. -/
  | finished (p : Plan)

namespace Point

/-- The expressions whose aggregates are collected, with the stages at which this may fail. -/
def collected (q : Query) : List (Stage × Expr) :=
  (q.projection.map ProjectionElem.expr).map (fun e => (.projection, e)) ++
    (q.orderBy.map OrderElem.expr).map fun e => (.orderBy, e)

/-- One step of planning a query over the variables of a registry. -/
def step (config : Config) (q : Query) (r : Registry) : Point → Except Failure Point
  | seeding done [] cs => .ok (joining done cs)
  | seeding done (g :: todo) cs => do
    let x ← atStage .groupPlan (PlannerState.seed config r g cs)
    return checking ⟨done, g, todo, x.1, g.connections⟩ x.1.schema.vars [] x.2
  | checking d _ kept [] => .ok (growing d kept)
  | checking d added kept (c :: waiting) =>
    let c := c.markAvailable added
    if c.pending = 0 ∧ c.linked = [d.group.id] then do
      let x ← atStage .groupPlan (PlanM.exec (c.apply config) d.plan)
      return checking { d with plan := x.2 } added kept waiting
    else
      .ok (checking d added (kept ++ [c]) waiting)
  | growing ⟨done, g, todo, p, []⟩ cs => .ok (seeding (done ++ [g.setPlan p]) todo cs)
  | growing ⟨done, g, todo, p, conn :: conns⟩ cs =>
    match pick? (Traversal.next? p.schema) (conn :: conns) with
    | none => .error ⟨.groupPlan, .noStep g.id (conn :: conns)⟩
    | some (conn, step, rest) => do
      let x ← atStage .groupPlan (PlanM.exec (Plan.traverse conn step) p)
      return checking ⟨done, g, todo, x.2, rest⟩
        (x.2.schema.vars.filter fun var => !p.schema.vars.contains var) [] cs
  | joining groups cs => do
    match ← atStage .constraintJoin (PlannerState.joinStep config ⟨r, groups, cs⟩) with
    | none => return multiplying groups cs
    | some s => return joining s.groups s.constraints
  | multiplying (first :: other :: rest) cs => do
    let x ← atStage .crossProduct (PlannerState.productStep first other cs)
    return multiplying (x.1 :: rest) x.2
  | multiplying groups cs => .ok (closing groups cs)
  | closing [g] cs => do
    let x ← atStage .residualConstraints g.takePlan
    return filtering x.2 x.1 cs
  | closing groups _ => .error ⟨.residualConstraints, .groupsLeft groups.length⟩
  | filtering _ p [] => .ok (matched p)
  | filtering g p (c :: cs) =>
    if c.linked = [] ∨ c.linked = [g.id] then do
      let x ← atStage .residualConstraints (PlanM.exec (c.apply config) p)
      return filtering g x.2 cs
    else
      .error ⟨.residualConstraints, .stillLinked c.expr c.linked⟩
  | matched p => .ok (keying [] q.groupBy p)
  | keying groupBy [] p => .ok (collecting groupBy (collected q) ⟨p, []⟩)
  | keying groupBy (key :: keys) p => do
    let x ← atStage .groupBy (PlanM.exec (Plan.groupColumn config key) p)
    return keying (groupBy ++ [x.1]) keys x.2
  | collecting groupBy [] x => do
    let y ← atStage .groupBy (PlanM.exec (Plan.group groupBy x.aggregates) x.plan)
    return valuing [] q.projection y.2
  | collecting groupBy ((stage, e) :: todo) x => do
    let y ← atStage stage (outcome (e.extract config) x)
    return collecting groupBy todo y.2
  | valuing projection [] p => .ok (sorting projection [] q.orderBy p)
  | valuing projection (elem :: elems) p => do
    let x ← atStage .projection (PlanM.exec (Plan.projectionColumn config elem) p)
    return valuing (projection ++ [x.1]) elems x.2
  | sorting projection orderBy [] p => .ok (ordered projection (p.sorted orderBy))
  | sorting projection orderBy (elem :: elems) p => do
    let x ← atStage .orderBy (PlanM.exec (Plan.orderColumn config elem) p)
    return sorting projection (orderBy ++ [x.1]) elems x.2
  | ordered projection p => do
    let x ← atStage .finalProjection (PlanM.exec (Plan.project projection) p)
    return projected x.2
  | projected p => .ok (finished (p.slice q.offset q.limit))
  | finished p => .ok (finished p)

/-! ## What can be seen at a point -/

/-- The components that there are. -/
def groups : Point → List Component
  | seeding done todo _ => done ++ todo
  | checking d _ _ _ | growing d _ => d.groups
  | joining groups _ | multiplying groups _ | closing groups _ => groups
  | filtering g _ _ => [g]
  | _ => []

/-- The components whose plans are made. -/
def planned : Point → List Component
  | seeding done _ _ => done
  | checking d _ _ _ | growing d _ => d.done
  | joining groups _ | multiplying groups _ | closing groups _ => groups
  | _ => []

/-- The filters that have not been applied. -/
def pending : Point → List Constraint
  | seeding _ _ cs | growing _ cs => cs
  | checking _ _ kept waiting => kept ++ waiting
  | joining _ cs | multiplying _ cs | closing _ cs => cs
  | filtering _ _ cs => cs
  | _ => []

/-- The plans that there are. -/
def plans (a : Point) : List Plan :=
  a.planned.filterMap Component.plan ++
    match a with
    | checking d _ _ _ | growing d _ => [d.plan]
    | filtering _ p _ | matched p | keying _ _ p => [p]
    | collecting _ _ x => [x.plan]
    | valuing _ _ p | sorting _ _ _ p | ordered _ p | projected p | finished p => [p]
    | _ => []

/-! ## Runs -/

/-- Any number of steps. -/
abbrev Steps (config : Config) (q : Query) (r : Registry) : Point → Point → Prop :=
  Relation.ReflTransGen fun a b => a.step config q r = .ok b

/-- The run of planning a query comes to a point, after the pattern was split as `s` says. -/
def Visited (config : Config) (q : Query) (s : PlannerState) (a : Point) : Prop :=
  Steps config q s.registry (seeding [] s.groups s.constraints) a

/-- The run from a point goes on to another one, or it gets stuck with a failure. -/
def Leads (config : Config) (q : Query) (r : Registry) (a : Point) : Except Failure Point → Prop
  | .ok b => Steps config q r a b
  | .error f => ∃ b, Steps config q r a b ∧ b.step config q r = .error f

variable {config : Config} {q : Query} {r : Registry} {a b : Point} {x : Except Failure Point}

/-- The point after a number of steps. -/
def after (config : Config) (q : Query) (r : Registry) : Nat → Point → Except Failure Point
  | 0, a => .ok a
  | n + 1, a => a.step config q r >>= after config q r n

theorem steps_of_after {n : Nat} (h : after config q r n a = .ok b) : Steps config q r a b := by
  induction n generalizing a with
  | zero =>
    cases h
    exact .refl
  | succ n ih =>
    obtain ⟨c, hc, h⟩ := eq_ok_of_bind_eq_ok h
    exact .head hc (ih h)

theorem Leads.refl (a : Point) : Leads config q r a (.ok a) :=
  Relation.ReflTransGen.refl

/-- One step ahead. -/
theorem Leads.head (h : a.step config q r = .ok b) (hb : Leads config q r b x) :
    Leads config q r a x := by
  cases x with
  | ok c => exact .head h hb
  | error f =>
    obtain ⟨c, hc, hf⟩ := hb
    exact ⟨c, .head h hc, hf⟩

theorem Leads.stuck {f : Failure} (h : a.step config q r = .error f) :
    Leads config q r a (.error f) :=
  ⟨a, Relation.ReflTransGen.refl, h⟩

/-- A run in two parts, the first of which gives a value that the second starts from. -/
theorem Leads.bind {α : Type} {x : Except Failure α} {f : α → Point} {k : α → Except Failure Point}
    (h : Leads config q r a (x >>= fun y => .ok (f y)))
    (hk : ∀ y, x = .ok y → Leads config q r (f y) (k y)) : Leads config q r a (x >>= k) := by
  cases x with
  | error e => exact h
  | ok y =>
    have hy := hk y rfl
    show Leads config q r a (k y)
    cases hx : k y with
    | ok b =>
      rw [hx] at hy
      exact Relation.ReflTransGen.trans h hy
    | error e =>
      rw [hx] at hy
      obtain ⟨b, hb, he⟩ := hy
      exact ⟨b, Relation.ReflTransGen.trans h hb, he⟩

/-- One step, and a run from where it goes. -/
theorem Leads.step {α : Type} {x : Except Failure α} {f : α → Point}
    {k : α → Except Failure Point} (h : a.step config q r = x >>= fun y => .ok (f y))
    (hk : ∀ y, x = .ok y → Leads config q r (f y) (k y)) : Leads config q r a (x >>= k) := by
  refine Leads.bind ?_ hk
  cases x with
  | error e => exact .stuck h
  | ok y => exact .head h (.refl _)

/-! ## Plans of components -/

/-- Looking at all filters is what `applyReady` does. -/
theorem leads_checking (d : Draft) (added : List String) (kept waiting : List Constraint) :
    Leads config q r (checking d added kept waiting)
      (atStage .groupPlan
        (PlanM.exec (PlannerState.applyReady config d.group.id added waiting) d.plan) >>= fun x =>
          .ok (growing { d with plan := x.2 } (kept ++ x.1))) := by
  induction waiting generalizing d kept with
  | nil =>
    refine .head (b := growing d kept) rfl ?_
    simp only [PlannerState.applyReady, PlanM.exec_pure, atStage_ok, ok_bind, List.append_nil]
    exact .refl _
  | cons c waiting ih =>
    by_cases hready : (c.markAvailable added).pending = 0 ∧
        (c.markAvailable added).linked = [d.group.id]
    · have hstep : (checking d added kept (c :: waiting)).step config q r =
          atStage .groupPlan (PlanM.exec ((c.markAvailable added).apply config) d.plan) >>=
            fun x => .ok (checking { d with plan := x.2 } added kept waiting) := by
        simp only [Point.step, if_pos hready]
        rfl
      simp only [PlannerState.applyReady, if_pos hready, PlanM.exec_bind, atStage_bind, bind_assoc]
      exact .step hstep fun x _ => ih { d with plan := x.2 } kept
    · have hstep : (checking d added kept (c :: waiting)).step config q r =
          .ok (checking d added (kept ++ [c.markAvailable added]) waiting) := by
        simp only [Point.step, if_neg hready]
      refine .head hstep ?_
      have hrest := ih d (kept ++ [c.markAvailable added])
      simp only [PlannerState.applyReady, if_neg hready, PlanM.exec_bind, atStage_bind,
        bind_assoc, PlanM.exec_pure, atStage_ok, ok_bind]
      simpa only [List.append_assoc, List.singleton_append] using hrest

/-- Following all connections of a component is what `grow` does. -/
theorem leads_growing (done : List Component) (g : Component) (todo : List Component) (p : Plan)
    (remaining : List Connection) (cs : List Constraint) :
    Leads config q r (growing ⟨done, g, todo, p, remaining⟩ cs)
      (atStage .groupPlan
        (PlanM.exec (PlannerState.grow config g.id remaining.length remaining cs) p) >>= fun x =>
          .ok (seeding (done ++ [g.setPlan x.2]) todo x.1)) := by
  -- the rounds are counted by the connections that are left
  induction hn : remaining.length generalizing remaining p cs with
  | zero =>
    rw [List.length_eq_zero_iff.1 hn]
    exact .head rfl (.refl _)
  | succ n ih =>
    obtain ⟨conn, conns, rfl⟩ := List.exists_cons_of_length_eq_add_one hn
    rw [PlannerState.grow, PlanM.exec_bind, PlanM.exec_get, ok_bind]
    cases hpick : pick? (Traversal.next? p.schema) (conn :: conns) with
    | none =>
      refine .stuck ?_
      simp only [Point.step, hpick]
    | some found =>
      obtain ⟨next, how, rest⟩ := found
      have hrest : rest.length = n := by
        have := length_of_pick? hpick
        omega
      have hstep : (growing ⟨done, g, todo, p, conn :: conns⟩ cs).step config q r =
          atStage .groupPlan (PlanM.exec (Plan.traverse next how) p) >>= fun x =>
            .ok (checking ⟨done, g, todo, x.2, rest⟩
              (x.2.schema.vars.filter fun var => !p.schema.vars.contains var) [] cs) := by
        simp only [Point.step, hpick]
        rfl
      simp only [PlannerState.growStep, PlanM.exec_bind, PlanM.exec_get, ok_bind, atStage_bind,
        bind_assoc]
      refine .step hstep fun x _ => ?_
      exact .bind (leads_checking _ _ _ _) fun y _ => ih y.2 rest y.1 hrest

/-- Giving components their plans is what `groupPlans` does. -/
theorem leads_seeding (done todo : List Component) (cs : List Constraint) :
    Leads config q r (seeding done todo cs)
      (atStage .groupPlan (PlannerState.groupPlans config r todo cs) >>= fun x =>
        .ok (joining (done ++ x.1) x.2)) := by
  induction todo generalizing done cs with
  | nil =>
    refine .head rfl ?_
    simp only [PlannerState.groupPlans, atStage_ok, ok_bind, List.append_nil]
    exact .refl _
  | cons g todo ih =>
    have hstep : (seeding done (g :: todo) cs).step config q r =
        atStage .groupPlan (PlannerState.seed config r g cs) >>= fun x =>
          .ok (checking ⟨done, g, todo, x.1, g.connections⟩ x.1.schema.vars [] x.2) :=
      rfl
    simp only [PlannerState.groupPlans, PlannerState.groupPlan, atStage_bind, bind_assoc]
    refine .step hstep fun x _ => ?_
    refine .bind (leads_checking _ _ _ _) fun y _ => ?_
    refine .bind (leads_growing _ _ _ _ _ _) fun z _ => ?_
    have hrest := ih (done ++ [g.setPlan z.2]) z.1
    simpa only [List.append_assoc, List.singleton_append, atStage_pure, ok_bind] using hrest

/-! ## Joins and products -/

/-- A round of joining leaves one filter less. -/
theorem length_of_joinStep {s s' : PlannerState}
    (h : PlannerState.joinStep config s = .ok (some s')) :
    s.constraints.length = s'.constraints.length + 1 ∧ s'.registry = s.registry := by
  unfold PlannerState.joinStep at h
  split at h
  · cases h
  · next hpick =>
    obtain ⟨groups, -, h⟩ := eq_ok_of_bind_eq_ok h
    cases h
    exact ⟨length_of_pick? hpick, rfl⟩
  · next hpick =>
    obtain ⟨groups, -, h⟩ := eq_ok_of_bind_eq_ok h
    cases h
    refine ⟨?_, rfl⟩
    rw [List.length_map]
    exact length_of_pick? hpick

/-- Joining until no filter does it is what `resolveJoins` does. -/
theorem leads_joining (groups : List Component) (cs : List Constraint) :
    Leads config q r (joining groups cs)
      (atStage .constraintJoin (PlannerState.resolveJoins config ⟨r, groups, cs⟩) >>= fun s =>
        .ok (multiplying s.groups s.constraints)) := by
  unfold PlannerState.resolveJoins
  have hstep : ∀ groups cs, (joining groups cs).step config q r =
      atStage .constraintJoin (PlannerState.joinStep config ⟨r, groups, cs⟩) >>= fun o =>
        .ok (match o with
          | none => multiplying groups cs
          | some s => joining s.groups s.constraints) := by
    intro groups cs
    simp only [Point.step]
    congr 1
    funext o
    cases o <;> rfl
  -- each round takes a filter away, so there are as many rounds as are needed
  induction hn : cs.length generalizing groups cs with
  | zero =>
    obtain rfl := List.length_eq_zero_iff.1 hn
    exact .head rfl (.refl _)
  | succ n ih =>
    simp only [PlannerState.joinAtMost, atStage_bind, bind_assoc]
    refine .step (hstep groups cs) fun o ho => ?_
    cases o with
    | none => exact .refl _
    | some s =>
      obtain ⟨hlen, hreg⟩ := length_of_joinStep (eq_ok_of_atStage_eq_ok ho)
      obtain ⟨r', groups', cs'⟩ := s
      cases hreg
      exact ih groups' cs' (by simp only at hlen; omega)

/-- Multiplying all components is what `crossProduct` does. -/
theorem leads_multiplying (s : PlannerState) :
    Leads config q r (multiplying s.groups s.constraints)
      (atStage .crossProduct s.crossProduct >>= fun s =>
        .ok (closing s.groups s.constraints)) := by
  obtain ⟨registry, groups, cs⟩ := s
  cases groups with
  | nil => exact .head rfl (.refl _)
  | cons first rest =>
    simp only [PlannerState.crossProduct]
    induction rest generalizing first cs with
    | nil => exact .head rfl (.refl _)
    | cons other rest ih =>
      have hstep : (multiplying (first :: other :: rest) cs).step config q r =
          atStage .crossProduct (PlannerState.productStep first other cs) >>= fun x =>
            .ok (multiplying (x.1 :: rest) x.2) :=
        rfl
      simp only [PlannerState.products, atStage_bind, bind_assoc]
      refine .step hstep fun x _ => ?_
      simpa only [atStage_bind, bind_assoc] using ih x.2 x.1

/-- Applying the filters that remain is what `applyResidual` does. -/
theorem leads_filtering (g : Component) (p : Plan) (cs : List Constraint) :
    Leads config q r (filtering g p cs)
      (atStage .residualConstraints (PlanM.exec (PlannerState.applyResidual config g.id cs) p) >>=
        fun x => .ok (matched x.2)) := by
  induction cs generalizing p with
  | nil => exact .head rfl (.refl _)
  | cons c cs ih =>
    by_cases hlinked : c.linked = [] ∨ c.linked = [g.id]
    · have hstep : (filtering g p (c :: cs)).step config q r =
          atStage .residualConstraints (PlanM.exec (c.apply config) p) >>= fun x =>
            .ok (filtering g x.2 cs) := by
        simp only [Point.step, if_pos hlinked]
        rfl
      simp only [PlannerState.applyResidual, if_pos hlinked, PlanM.exec_bind, atStage_bind,
        bind_assoc]
      exact .step hstep fun x _ => ih x.2
    · simp only [PlannerState.applyResidual, if_neg hlinked]
      refine .stuck ?_
      simp only [Point.step, if_neg hlinked]

/-- What is done with the last component is what `finish` does. -/
theorem leads_closing (s : PlannerState) :
    Leads config q r (closing s.groups s.constraints)
      (atStage .residualConstraints (PlannerState.finish config s) >>= fun p =>
        .ok (matched p)) := by
  obtain ⟨registry, groups, cs⟩ := s
  unfold PlannerState.finish
  match groups with
  | [] => exact .stuck rfl
  | [g] =>
    have hstep : (closing [g] cs).step config q r =
        atStage .residualConstraints g.takePlan >>= fun x => .ok (filtering x.2 x.1 cs) :=
      rfl
    simp only [atStage_bind, bind_assoc]
    refine .step hstep fun x _ => ?_
    exact leads_filtering x.2 x.1 cs
  | _ :: _ :: _ => exact .stuck rfl

/-! ## Results -/

/-- Giving values their columns one by one. The point `at` holds the columns so far, and `g` is the
function that gives all of them. -/
theorem leads_columns {α : Type} {stage : Stage} {f : α → PlanM Nat} {g : List α → PlanM (List Nat)}
    {at' : List Nat → List α → Plan → Point} {next : List Nat → Plan → Point}
    (hcons : ∀ a as, g (a :: as) = f a >>= fun i => g as >>= fun is => pure (i :: is))
    (hnil : g [] = pure [])
    (hstep : ∀ is a as p, (at' is (a :: as) p).step config q r =
      atStage stage (PlanM.exec (f a) p) >>= fun x => .ok (at' (is ++ [x.1]) as x.2))
    (hend : ∀ is p, (at' is [] p).step config q r = .ok (next is p))
    (is : List Nat) (as : List α) (p : Plan) :
    Leads config q r (at' is as p)
      (atStage stage (PlanM.exec (g as) p) >>= fun x => .ok (next (is ++ x.1) x.2)) := by
  induction as generalizing is p with
  | nil =>
    refine .head (hend is p) ?_
    simp only [hnil, PlanM.exec_pure, atStage_ok, ok_bind, List.append_nil]
    exact .refl _
  | cons a as ih =>
    simp only [hcons, PlanM.exec_bind, atStage_bind, bind_assoc, PlanM.exec_pure, atStage_ok,
      ok_bind]
    refine .step (hstep is a as p) fun x _ => ?_
    have hrest := ih (is ++ [x.1]) x.2
    simpa only [List.append_assoc, List.singleton_append] using hrest

/-- Collecting the aggregates of several expressions is what `extractAt` does. -/
theorem leads_collecting (groupBy : List Nat) (stage : Stage) (es : List Expr)
    (todo : List (Stage × Expr)) (x : Extraction) :
    Leads config q r (collecting groupBy (es.map (fun e => (stage, e)) ++ todo) x)
      (extractAt stage config es x >>= fun y => .ok (collecting groupBy todo y)) := by
  have hextract : ∀ es x, extractAt stage config es x =
      atStage stage (outcome (Expr.extractList config es) x) >>= fun y => .ok y.2 := by
    intro es x
    unfold extractAt outcome
    cases Expr.extractList config es x <;> rfl
  rw [hextract]
  induction es generalizing x with
  | nil => exact .refl _
  | cons e es ih =>
    simp only [Expr.extractList, outcome_bind, atStage_bind, bind_assoc]
    refine .step rfl fun y _ => ?_
    have hrest := ih y.2
    simp only [bind_assoc] at hrest
    exact hrest

/-- What comes before grouping is what `Plan.gather` does. -/
theorem leads_gather (p : Plan) :
    Leads config q r (matched p)
      (Plan.gather config q p >>= fun x => .ok (collecting x.1 [] x.2)) := by
  refine .head rfl ?_
  simp only [Plan.gather, bind_assoc]
  refine .bind (leads_columns Plan.groupColumns_cons rfl (fun _ _ _ _ => rfl) (fun _ _ => rfl)
    [] q.groupBy p) fun x _ => ?_
  refine .bind (leads_collecting x.1 .projection _ _ ⟨x.2, []⟩) fun y _ => ?_
  rw [← List.append_nil ((q.orderBy.map OrderElem.expr).map _)]
  exact leads_collecting x.1 .orderBy (q.orderBy.map OrderElem.expr) [] y

/-- What starts with grouping is what `Plan.present` does. -/
theorem leads_present (groupBy : List Nat) (x : Extraction) :
    Leads config q r (collecting groupBy [] x)
      (Plan.present config q groupBy x >>= fun p => .ok (finished p)) := by
  simp only [Plan.present, bind_assoc]
  refine .step rfl fun w _ => ?_
  refine .bind (leads_columns Plan.projectionColumns_cons rfl (fun _ _ _ _ => rfl) (fun _ _ => rfl)
    [] q.projection w.2) fun v _ => ?_
  simp only [Plan.exec_order, atStage_bind, bind_assoc, atStage_ok, ok_bind]
  refine .bind (leads_columns Plan.orderColumns_cons rfl (fun _ _ _ _ => rfl) (fun _ _ => rfl)
    [] q.orderBy v.2) fun u _ => ?_
  exact .step rfl fun t _ => .head rfl (.refl _)

/-- What is put on top of the plan of a pattern is what `Plan.finish` puts there. -/
theorem leads_matched (p : Plan) :
    Leads config q r (matched p) (Plan.finish config q p >>= fun p => .ok (finished p)) := by
  rw [Plan.finish_eq, bind_assoc]
  exact .bind (leads_gather p) fun x _ => leads_present x.1 x.2

variable {s : PlannerState}

/-- Planning a pattern is the run from the first component to the plan of all matches. -/
theorem leads_matchPlan (h : PlannerState.start q = .ok s) :
    Leads config q s.registry (seeding [] s.groups s.constraints)
      (q.matchPlan config >>= fun p => .ok (matched p)) := by
  simp only [Query.matchPlan, PlannerState.planGroups, h, atStage_ok, ok_bind, atStage_bind,
    atStage_pure, bind_assoc]
  refine .bind (leads_seeding [] s.groups s.constraints) fun x _ => ?_
  refine .bind (leads_joining x.1 x.2) fun s₁ _ => ?_
  exact .bind (leads_multiplying s₁) fun s₂ _ => leads_closing s₂

/-- Planning a query is the run from the first component to the end. -/
theorem leads_plan (h : PlannerState.start q = .ok s) :
    Leads config q s.registry (seeding [] s.groups s.constraints)
      (q.plan config >>= fun p => .ok (finished p)) := by
  simp only [Query.plan, bind_assoc]
  exact .bind (leads_matchPlan h) fun p _ => leads_matched p

/-- A run comes to the plan of the pattern. -/
theorem visited_of_matchPlan {p : Plan} (h : PlannerState.start q = .ok s)
    (hp : q.matchPlan config = .ok p) : Visited config q s (matched p) := by
  have hleads : Leads config q s.registry _ (q.matchPlan config >>= _) := leads_matchPlan h
  rw [hp] at hleads
  exact hleads

/-- A run comes to the plan of the query. -/
theorem visited_of_plan {p : Plan} (h : PlannerState.start q = .ok s)
    (hp : q.plan config = .ok p) : Visited config q s (finished p) := by
  have hleads : Leads config q s.registry _ (q.plan config >>= _) := leads_plan h
  rw [hp] at hleads
  exact hleads

end Point

end GraphPlan
