import GraphPlan.Proofs.Pattern.Kinds
import GraphPlan.Query.Builder

/-!
# Queries that are built call by call

A call changes the pattern of a query under construction in one of three ways: not at all, by a
vertex, or by a vertex and an edge that joins it to the last one. `Builder.Move` says this once, and
what the pattern keeps along all calls (`Builder.Sound`) is read off the moves. Mistakes are found
without looking at the builder: `Builder.firstMistake?` goes through the calls alone, and the
builder ends with the error that it finds. Together they say that a query that could be built has a
pattern that can be split.
-/

namespace GraphPlan

namespace Builder

variable {b b' : Builder} {q : Query} {x : String}

/-! ## What a call does to the pattern -/

/-- The listed vertices of a query, with one more unless it is listed. -/
def listing (q : Query) (x : String) : List PatternVar :=
  if hasVertex q x then q.vertices else q.vertices ++ [⟨x, false⟩]

theorem hasVertex_iff : hasVertex q x = true ↔ x ∈ q.vertices.map PatternVar.name := by
  simp [hasVertex]

theorem mem_listing {y : String} :
    y ∈ (listing q x).map PatternVar.name ↔ y ∈ q.vertices.map PatternVar.name ∨ y = x := by
  unfold listing
  split
  · next h =>
    rw [hasVertex_iff] at h
    constructor
    · exact Or.inl
    · rintro (hy | rfl)
      · exact hy
      · exact h
  · simp

theorem nodup_listing (h : (q.vertices.map PatternVar.name).Nodup) :
    ((listing q x).map PatternVar.name).Nodup := by
  unfold listing
  split
  · exact h
  · next hx =>
    rw [hasVertex_iff] at hx
    rw [List.map_append]
    refine List.nodup_append.2 ⟨h, by simp, ?_⟩
    intro y hy z hz heq
    rw [List.map_singleton, List.mem_singleton] at hz
    rw [heq, hz] at hy
    exact hx hy

theorem anonymous_listing (h : ∀ v ∈ q.vertices, v.anonymous = false) :
    ∀ v ∈ listing q x, v.anonymous = false := by
  unfold listing
  split
  · exact h
  · intro v hv
    rcases List.mem_append.1 hv with hv | hv
    · exact h v hv
    · rw [List.mem_singleton.1 hv]

/-- What a call can do to the pattern. -/
inductive Move (b b' : Builder) : Prop where
  /-- Nothing. -/
  | stay (hvertices : b'.query.vertices = b.query.vertices)
      (hconnections : b'.query.connections = b.query.connections) (hlast : b'.last = b.last)
  /-- A vertex is listed and becomes the last one. -/
  | vertex (x : String) (hvertices : b'.query.vertices = listing b.query x)
      (hconnections : b'.query.connections = b.query.connections) (hlast : b'.last = some x)
  /-- A vertex is listed and becomes the last one, joined by an edge to the one before. -/
  | edge (start x : String) (direction : Direction) (edge : PatternVar)
      (hstart : b.last = some start) (hvertices : b'.query.vertices = listing b.query x)
      (hconnections : b'.query.connections =
        b.query.connections ++ [connect direction start x edge])
      (hlast : b'.last = some x)

theorem addFilter?_eq (b : Builder) (e : Option Expr) :
    ∃ constraints, b.addFilter? e = { b with query := { b.query with constraints } } := by
  cases e with
  | none => exact ⟨_, rfl⟩
  | some e => exact ⟨_, rfl⟩

theorem addVertex_eq (b : Builder) (x : String) :
    b.addVertex x = { b with query := { b.query with vertices := listing b.query x } } := by
  unfold addVertex listing
  split <;> rfl

theorem addTarget_eq (b : Builder) (target : Target) :
    ∃ constraints, b.addTarget target =
      { b with
        query := { b.query with
          vertices := listing b.query (target.name (vertexName b.vertexCount))
          constraints }
        vertexCount := b.vertexCount + 1
        last := some (target.name (vertexName b.vertexCount)) } := by
  dsimp only [addTarget]
  rw [addVertex_eq]
  exact addFilter?_eq _ _

theorem addEdge_eq (b : Builder) (start : String) (edge : EdgeSpec) (target : Target) :
    ∃ constraints, b.addEdge start edge target =
      { b with
        query := { b.query with
          vertices := listing b.query (target.name (vertexName b.vertexCount))
          connections := b.query.connections ++
            [connect b.direction start (target.name (vertexName b.vertexCount))
              (b.nameEdge edge).2]
          constraints }
        vertexCount := b.vertexCount + 1
        last := some (target.name (vertexName b.vertexCount))
        edgeCount := (b.nameEdge edge).1.edgeCount
        direction := .outgoing } := by
  obtain ⟨constraints, htarget⟩ := b.addTarget_eq target
  dsimp only [addEdge, nameEdge]
  rw [htarget]
  cases edge.name with
  | some name =>
    obtain ⟨constraints', hfilter⟩ := addFilter?_eq (b.addTarget target)
      (edge.label.map fun label => .binary (.compare .eq) (.labelOf name) (.str label))
    rw [htarget] at hfilter
    dsimp only
    rw [hfilter]
    exact ⟨constraints', rfl⟩
  | none =>
    obtain ⟨constraints', hfilter⟩ := addFilter?_eq
      { b.addTarget target with edgeCount := b.edgeCount + 1 } (edge.label.map fun label =>
        .binary (.compare .eq) (.labelOf (edgeName b.edgeCount)) (.str label))
    rw [htarget] at hfilter
    dsimp only
    rw [hfilter]
    exact ⟨constraints', rfl⟩

/-- A call makes one move. -/
theorem move_step (b : Builder) (call : Call) : Move b (b.step call) := by
  have hstay : Move b b := .stay rfl rfl rfl
  cases call with
  | matchVertex target =>
    rw [step]
    split
    · exact hstay
    · obtain ⟨constraints, h⟩ := b.addTarget_eq target
      rw [h]
      exact .vertex _ rfl rfl rfl
  | whereEdge edge target =>
    rw [step]
    split
    · exact hstay
    · split
      · exact .stay rfl rfl rfl
      · next start hstart =>
        obtain ⟨constraints, h⟩ := b.addEdge_eq start edge target
        rw [h]
        exact .edge start _ b.direction _ hstart rfl rfl rfl
  | whereVar var predicates =>
    rw [step]
    split
    · exact hstay
    · unfold addPredicates
      split <;> exact .stay rfl rfl rfl
  | _ => exact .stay rfl rfl rfl

end Builder

/-! ## What the pattern keeps -/

/-- Vertices are listed once and by name, and connections lead from listed vertices to listed
vertices. -/
structure Query.WellListed (q : Query) : Prop where
  distinct : (q.vertices.map PatternVar.name).Nodup
  named : ∀ v ∈ q.vertices, v.anonymous = false
  ends : ∀ c ∈ q.connections, c.src.name ∈ q.vertices.map PatternVar.name ∧
    c.dst.name ∈ q.vertices.map PatternVar.name

namespace Builder

variable {b b' : Builder} {q : Query} {x : String}

/-- The pattern of a query under construction: the last vertex is a listed one, and there is a last
vertex as soon as there is any. -/
structure Sound (b : Builder) : Prop extends b.query.WellListed where
  last_mem : ∀ x, b.last = some x → x ∈ b.query.vertices.map PatternVar.name
  started : b.last = none → b.query.vertices = []

theorem sound_empty : empty.Sound where
  distinct := List.nodup_nil
  named := by simp [empty, Query.empty]
  ends := by simp [empty, Query.empty]
  last_mem := by simp [empty]
  started := fun _ => rfl

/-- A vertex becomes the last one, and new connections end at listed vertices. -/
theorem Sound.list (h : b.Sound) (hvertices : b'.query.vertices = listing b.query x)
    (hlast : b'.last = some x)
    (hends : ∀ c ∈ b'.query.connections, c ∈ b.query.connections ∨
      c.src.name ∈ b'.query.vertices.map PatternVar.name ∧
        c.dst.name ∈ b'.query.vertices.map PatternVar.name) : b'.Sound where
  distinct := by
    rw [hvertices]
    exact nodup_listing h.distinct
  named := by
    rw [hvertices]
    exact anonymous_listing h.named
  ends := by
    intro c hc
    rcases hends c hc with hold | hnew
    · obtain ⟨hsrc, hdst⟩ := h.ends c hold
      rw [hvertices]
      exact ⟨mem_listing.2 (Or.inl hsrc), mem_listing.2 (Or.inl hdst)⟩
    · exact hnew
  last_mem := by
    intro y hy
    cases hlast.symm.trans hy
    rw [hvertices]
    exact mem_listing.2 (Or.inr rfl)
  started := by
    intro hnone
    cases hlast.symm.trans hnone

theorem Sound.move (h : b.Sound) (hmove : Move b b') : b'.Sound := by
  cases hmove with
  | stay hvertices hconnections hlast =>
    refine ⟨⟨?_, ?_, ?_⟩, ?_, ?_⟩ <;> rw [hvertices]
    · exact h.distinct
    · exact h.named
    · rw [hconnections]
      exact h.ends
    · rw [hlast]
      exact h.last_mem
    · rw [hlast]
      exact h.started
  | vertex x hvertices hconnections hlast =>
    refine h.list hvertices hlast ?_
    rw [hconnections]
    exact fun c hc => Or.inl hc
  | edge start x direction edge hstart hvertices hconnections hlast =>
    have hstart' : start ∈ (listing b.query x).map PatternVar.name :=
      mem_listing.2 (Or.inl (h.last_mem start hstart))
    have hx : x ∈ (listing b.query x).map PatternVar.name := mem_listing.2 (Or.inr rfl)
    refine h.list hvertices hlast fun c hc => ?_
    rw [hconnections] at hc
    rcases List.mem_append.1 hc with hc | hc
    · exact Or.inl hc
    · rw [List.mem_singleton.1 hc, hvertices]
      cases direction with
      | outgoing => exact Or.inr ⟨hstart', hx⟩
      | ingoing => exact Or.inr ⟨hx, hstart'⟩

theorem sound_run (calls : List Call) : (run calls).Sound := by
  have hrun : ∀ (calls : List Call) (b : Builder), b.Sound → (calls.foldl step b).Sound := by
    intro calls
    induction calls with
    | nil => exact fun b hb => hb
    | cons call calls ih => exact fun b hb => ih (b.step call) (hb.move (b.move_step call))
  exact hrun calls empty sound_empty

/-! ## Mistakes -/

/-- Whether the call adds a vertex of its own. -/
def Call.isMatch : Call → Bool
  | .matchVertex _ => true
  | _ => false

/-- The mistake that a call makes: an edge has no vertex to start from, or predicates say nothing.
`started` tells whether a vertex was added before. -/
def Call.mistake? (started : Bool) : Call → Option PlanError
  | .whereEdge _ _ => if started then none else some .edgeWithoutStart
  | .whereVar var predicates =>
    if (Predicate.exprsList var predicates).isEmpty then some .noPredicate else none
  | _ => none

/-- The first mistake among calls. -/
def firstMistake? (started : Bool) : List Call → Option PlanError
  | [] => none
  | call :: calls => (call.mistake? started).or (firstMistake? (started || call.isMatch) calls)

/-- A mistake stays. -/
theorem error_step_of_some {e : PlanError} (h : b.error = some e) (call : Call) :
    (b.step call).error = some e := by
  cases call with
  | matchVertex target | whereEdge edge target | whereVar var predicates =>
    rw [step, h, Option.isSome_some, if_pos rfl]
    exact h
  | _ => exact h

theorem error_step_of_none (h : b.error = none) (call : Call) :
    (b.step call).error = call.mistake? b.last.isSome := by
  cases call with
  | matchVertex target =>
    obtain ⟨constraints, htarget⟩ := b.addTarget_eq target
    rw [step, h, Option.isSome_none, if_neg (by decide), htarget]
    exact h
  | whereEdge edge target =>
    rw [step, h, Option.isSome_none, if_neg (by decide)]
    cases hlast : b.last with
    | none => rfl
    | some start =>
      obtain ⟨constraints, hedge⟩ := b.addEdge_eq start edge target
      dsimp only
      rw [hedge]
      exact h
  | whereVar var predicates =>
    rw [step, h, Option.isSome_none, if_neg (by decide), addPredicates, Call.mistake?]
    cases Predicate.exprsList var predicates with
    | nil => rfl
    | cons e es => exact h
  | _ => exact h

/-- Without a mistake there is a last vertex after a call if there was one before or the call adds
one. -/
theorem isSome_last_step (h : b.error = none) {call : Call}
    (hcall : call.mistake? b.last.isSome = none) :
    (b.step call).last.isSome = (b.last.isSome || call.isMatch) := by
  cases call with
  | matchVertex target =>
    obtain ⟨constraints, htarget⟩ := b.addTarget_eq target
    rw [step, h, Option.isSome_none, if_neg (by decide), htarget]
    exact (Bool.or_true _).symm
  | whereEdge edge target =>
    cases hlast : b.last with
    | none =>
      rw [hlast] at hcall
      cases hcall
    | some start =>
      obtain ⟨constraints, hedge⟩ := b.addEdge_eq start edge target
      rw [step, h, hlast, Option.isSome_none, if_neg (by decide)]
      dsimp only
      rw [hedge]
      rfl
  | whereVar var predicates =>
    rw [step, h, Option.isSome_none, if_neg (by decide), addPredicates]
    split <;> exact (Bool.or_false _).symm
  | _ => exact (Bool.or_false _).symm

theorem error_foldl_of_some {e : PlanError} (calls : List Call) (h : b.error = some e) :
    (calls.foldl step b).error = some e := by
  induction calls generalizing b with
  | nil => exact h
  | cons call calls ih => exact ih (error_step_of_some h call)

/-- The error at the end is the first mistake, and if there is none then the vertices that were
added show in the last one. -/
theorem error_foldl (calls : List Call) (h : b.error = none) :
    (calls.foldl step b).error = firstMistake? b.last.isSome calls ∧
      (firstMistake? b.last.isSome calls = none →
        (calls.foldl step b).last.isSome = (b.last.isSome || calls.any Call.isMatch)) := by
  induction calls generalizing b with
  | nil => exact ⟨h, fun _ => (Bool.or_false _).symm⟩
  | cons call calls ih =>
    have herror := error_step_of_none h call
    rw [firstMistake?, List.foldl_cons]
    cases hcall : call.mistake? b.last.isSome with
    | some e =>
      rw [hcall] at herror
      refine ⟨error_foldl_of_some calls herror, fun hnone => ?_⟩
      cases hnone
    | none =>
      rw [hcall] at herror
      have hlast := isSome_last_step h hcall
      obtain ⟨hfirst, hstarted⟩ := ih herror
      rw [hlast] at hfirst hstarted
      rw [List.any_cons, ← Bool.or_assoc]
      exact ⟨hfirst, hstarted⟩

/-! ## Building -/

theorem build_eq_ok (h : b.build = .ok q) :
    b.error = none ∧ q = b.query ∧
      ∀ c ∈ q.connections, c.edge.name ∉ q.vertices.map PatternVar.name := by
  unfold build at h
  split at h
  · cases h
  · next herror =>
    split at h
    · cases h
    · next hfind =>
      cases h
      refine ⟨herror, rfl, fun c hc hmem => ?_⟩
      exact List.find?_eq_none.1 hfind c hc (hasVertex_iff.2 hmem)

theorem build_eq_error {e : PlanError} (h : b.build = .error e) :
    b.error = some e ∨ b.error = none ∧ ∃ c ∈ b.query.connections,
      c.edge.name ∈ b.query.vertices.map PatternVar.name ∧ e = .vertexAndEdge c.edge.name := by
  unfold build at h
  split at h
  · next herror =>
    cases h
    exact Or.inl herror
  · next herror =>
    split at h
    · next c hfind =>
      cases h
      have hvertex := List.find?_some hfind
      exact Or.inr ⟨herror, c, List.mem_of_find?_eq_some hfind, hasVertex_iff.1 hvertex, rfl⟩
    · cases h

end Builder

/-- A pattern is well-formed if moreover no edge is listed as a vertex. -/
structure Query.WellFormed (q : Query) : Prop extends q.WellListed where
  edges : ∀ c ∈ q.connections, c.edge.name ∉ q.vertices.map PatternVar.name

namespace Query.WellFormed

variable {q : Query}

theorem kindsApart (h : q.WellFormed) : q.KindsApart := by
  intro c hc c' hc'
  obtain ⟨hsrc, hdst⟩ := h.ends c' hc'
  constructor
  · intro heq
    rw [← heq] at hsrc
    exact h.edges c hc hsrc
  · intro heq
    rw [← heq] at hdst
    exact h.edges c hc hdst

/-- Without a vertex there is nothing in the pattern. -/
theorem isEmptyPattern (h : q.WellFormed) (hnil : q.vertices = []) :
    Component.IsEmptyPattern q := by
  constructor
  · refine List.eq_nil_iff_forall_not_mem.2 fun c hc => ?_
    have hsrc := (h.ends c hc).1
    rw [hnil] at hsrc
    cases hsrc
  · rw [hnil]
    intro v hv
    cases hv

/-- With a vertex the pattern is split, and every name is registered with its kind. -/
theorem exists_partition (h : q.WellFormed) (hne : q.vertices ≠ []) :
    ∃ groups r, Component.partition q .empty = .ok groups r ∧
      (∀ v ∈ q.vertices, r.kind? v.name = some .node) ∧
      ∀ c ∈ q.connections, r.kind? c.edge.name = some .edge := by
  obtain ⟨w, hw⟩ := List.exists_mem_of_ne_nil _ hne
  have hpattern : q.HasPattern := Or.inr ⟨w, hw, h.named w hw⟩
  obtain ⟨groups, r, hpartition⟩ := Component.partition_isOk_iff.2 ⟨hpattern, h.kindsApart⟩
  refine ⟨groups, r, hpartition, fun v hv => ?_, fun c hc => ?_⟩
  · refine Component.kind?_eq_node hpartition (Or.inr ⟨v, hv, h.named v hv, rfl⟩) ?_
    rintro ⟨c, hc, heq⟩
    exact h.edges c hc (heq ▸ List.mem_map_of_mem hv)
  · exact Component.kind?_eq_edge hpartition ⟨c, hc, rfl⟩

end Query.WellFormed

namespace Builder

/-- After any calls, a query that is built is well-formed, and its pattern is split unless no call
added a vertex; a query that is not built fails with the first mistake of the calls, or else with
the name of an edge that is listed as a vertex. -/
theorem build_gives_plannable_pattern (calls : List Call) :
    (∀ q, (run calls).build = .ok q →
      firstMistake? false calls = none ∧ q.WellFormed ∧
      (calls.any Call.isMatch = false → ∃ r,
        Component.partition q .empty = .error .emptyPattern r ∧
        PlanError.emptyPattern.code = .unsatisfiablePattern) ∧
      (calls.any Call.isMatch = true → ∃ groups r,
        Component.partition q .empty = .ok groups r ∧
        (∀ v ∈ q.vertices, r.kind? v.name = some .node) ∧
        ∀ c ∈ q.connections, r.kind? c.edge.name = some .edge)) ∧
    ∀ e, (run calls).build = .error e →
      firstMistake? false calls = some e ∨
      firstMistake? false calls = none ∧ ∃ c ∈ (run calls).query.connections,
        c.edge.name ∈ (run calls).query.vertices.map PatternVar.name ∧
        e = .vertexAndEdge c.edge.name := by
  have hsound := sound_run calls
  obtain ⟨herror, hlast⟩ : (run calls).error = firstMistake? false calls ∧
      (firstMistake? false calls = none →
        (run calls).last.isSome = calls.any Call.isMatch) := error_foldl calls rfl
  constructor
  · intro q hq
    obtain ⟨hnone, rfl, hedges⟩ := build_eq_ok hq
    have hfirst : firstMistake? false calls = none := herror.symm.trans hnone
    have hwell : (run calls).query.WellFormed := ⟨hsound.toWellListed, hedges⟩
    have hstarted := hlast hfirst
    refine ⟨hfirst, hwell, fun hmatch => ?_, fun hmatch => ?_⟩
    · have hnil : (run calls).query.vertices = [] :=
        hsound.started (by simpa [hmatch] using hstarted)
      obtain ⟨r, hr⟩ := exists_eq_error_of_outcome
        (Component.outcome_partition_of_isEmptyPattern (hwell.isEmptyPattern hnil))
      exact ⟨r, hr, rfl⟩
    · rw [hmatch, Option.isSome_iff_exists] at hstarted
      obtain ⟨x, hx⟩ := hstarted
      refine hwell.exists_partition fun hnil => ?_
      have hmem := hsound.last_mem x hx
      rw [hnil] at hmem
      cases hmem
  · intro e he
    rw [← herror]
    exact build_eq_error he

end Builder

end GraphPlan
