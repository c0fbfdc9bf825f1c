import GraphPlan.Proofs.Pattern.Classes

/-!
# Which patterns can be split

A name is a vertex where it stands at an end of a connection, and an edge where it stands between
the ends. `partition_isOk_iff` says that a pattern can be split exactly when there is something in it
and no name is both, and `meets_partition_of_clash` that the error otherwise names a variable that is
both. The names that are registered are those of the pattern (`contains_iff_hasName`).
-/

namespace GraphPlan

namespace Query

/-- There is a connection or a vertex that is listed by name. -/
def HasPattern (q : Query) : Prop :=
  (∃ c, c ∈ q.connections) ∨ ∃ v ∈ q.vertices, v.anonymous = false

/-- No name is the edge of a connection and an end of one. -/
def KindsApart (q : Query) : Prop :=
  ∀ c ∈ q.connections, ∀ c' ∈ q.connections, c.edge.name ≠ c'.src.name ∧ c.edge.name ≠ c'.dst.name

/-- A name is a variable of a connection or that of a listed vertex. -/
def HasName (q : Query) (x : String) : Prop :=
  (∃ c ∈ q.connections, x ∈ c.names) ∨ ∃ v ∈ q.vertices, v.anonymous = false ∧ v.name = x

/-- A name stands where variables of a kind stand. -/
def Plays (q : Query) (x : String) : VariableKind → Prop
  | .node => ∃ c ∈ q.connections, x = c.src.name ∨ x = c.dst.name
  | .edge => ∃ c ∈ q.connections, x = c.edge.name

/-- A name stands where vertices stand and where edges stand. -/
def Clashes (q : Query) (x : String) : Prop :=
  q.Plays x .node ∧ q.Plays x .edge

theorem clashes_of_ne {q : Query} {x : String} {k k' : VariableKind} (hne : k ≠ k')
    (hk : q.Plays x k) (hk' : q.Plays x k') : q.Clashes x := by
  cases k with
  | node =>
    cases k' with
    | node => exact absurd rfl hne
    | edge => exact ⟨hk, hk'⟩
  | edge =>
    cases k' with
    | node => exact ⟨hk', hk⟩
    | edge => exact absurd rfl hne

theorem kindsApart_iff {q : Query} : q.KindsApart ↔ ∀ x, ¬ q.Clashes x := by
  constructor
  · rintro h x ⟨⟨c, hc, hx⟩, c', hc', rfl⟩
    obtain ⟨hsrc, hdst⟩ := h c' hc' c hc
    rcases hx with hx | hx
    · exact hsrc hx
    · exact hdst hx
  · intro h c hc c' hc'
    constructor
    · exact fun heq => h _ ⟨⟨c', hc', Or.inl heq⟩, c, hc, rfl⟩
    · exact fun heq => h _ ⟨⟨c', hc', Or.inr heq⟩, c, hc, rfl⟩

end Query

/-- The cause is a name that stands for a vertex and for an edge of the query. -/
def PlanError.IsClash (q : Query) (e : PlanError) : Prop :=
  ∃ x registered requested, e = .kindConflict x registered requested ∧ q.Clashes x

/-! ## Registration -/

namespace Registry

variable {q : Query} {r : Registry}

/-- Every name is registered with a kind that it has in a query. -/
def Agrees (q : Query) (r : Registry) : Prop :=
  ∀ x k, r.kind? x = some k → q.Plays x k

/-- A name can be registered with its kind, unless it has another one too. -/
theorem meets_register_of_agrees (hr : r.Agrees q) {name : String} {kind : VariableKind}
    (anonymous : Bool) (hname : q.Plays name kind) :
    (outcome (register name anonymous kind) r).Meets (fun x => x.2.Agrees q)
      (PlanError.IsClash q) := by
  cases hknown : r.lookup name with
  | some known =>
    have hplays : q.Plays name known.kind := by
      refine hr name known.kind ?_
      rw [kind?, hknown, Option.map_some]
    by_cases hkind : known.kind = kind
    · simp only [outcome, register, hknown, hkind, if_true]
      exact hr
    · simp only [outcome, register, hknown, hkind, if_false]
      exact ⟨_, _, _, rfl, Query.clashes_of_ne hkind hplays hname⟩
  | none =>
    simp only [outcome, register, hknown]
    intro x k hx
    rw [kind?, lookup_insert] at hx
    split at hx
    · next hxn =>
      cases hx
      rwa [hxn]
    · exact hr x k hx

theorem meets_registerConnection_of_agrees (hr : r.Agrees q) {c : Connection}
    (hc : c ∈ q.connections) :
    (outcome (registerConnection c) r).Meets (fun x => x.2.Agrees q) (PlanError.IsClash q) := by
  have hsrc : q.Plays c.src.name .node := ⟨c, hc, Or.inl rfl⟩
  have hdst : q.Plays c.dst.name .node := ⟨c, hc, Or.inr rfl⟩
  have hedge : q.Plays c.edge.name .edge := ⟨c, hc, rfl⟩
  simp only [registerConnection, outcome_bind, outcome_pure]
  refine (meets_register_of_agrees hr _ hsrc).bind fun x₁ h₁ => ?_
  refine (meets_register_of_agrees h₁ _ hdst).bind fun x₂ h₂ => ?_
  exact (meets_register_of_agrees h₂ _ hedge).bind fun x₃ h₃ => h₃

theorem meets_registerConnections_of_agrees (hr : r.Agrees q) {cs : List Connection}
    (hcs : ∀ c ∈ cs, c ∈ q.connections) :
    (outcome (registerConnections cs) r).Meets (fun x => x.2.Agrees q) (PlanError.IsClash q) := by
  induction cs generalizing r with
  | nil => exact hr
  | cons c cs ih =>
    rw [registerConnections, outcome_bind]
    refine (meets_registerConnection_of_agrees hr (hcs c List.mem_cons_self)).bind fun x hx => ?_
    exact ih hx fun d hd => hcs d (.tail c hd)

end Registry

/-! ## The partition -/

namespace Component

variable {q : Query} {groups : List Component} {r : Registry}

theorem not_isEmptyPattern_iff : ¬ IsEmptyPattern q ↔ q.HasPattern := by
  unfold IsEmptyPattern Query.HasPattern
  rw [not_and_or, List.eq_nil_iff_forall_not_mem]
  simp

/-- A pattern is split unless a name in it has two kinds or there is nothing in it. -/
theorem meets_partition_of_clash (q : Query) :
    (outcome (partition q) .empty).Meets (fun x => Partitioned q x.1 x.2)
      (fun e => e.IsClash q ∨ e = .emptyPattern ∧ IsEmptyPattern q) := by
  have hempty : Registry.Agrees q .empty := fun x k hx => by cases hx
  have hagrees := Registry.meets_registerConnections_of_agrees hempty fun c hc => hc
  have hregister := (Registry.meets_registerConnections q.connections .empty).and hagrees
  exact meets_partition_of_register (hregister.mono (fun _ hx => hx.1) fun _ he => he.2)

/-- A pattern in which no name has two kinds is split. -/
theorem exists_partition (hpattern : q.HasPattern) (hkinds : q.KindsApart) :
    ∃ x, outcome (partition q) .empty = .ok x := by
  refine ((meets_partition_of_clash q).widen fun e he => ?_).exists_ok
  rcases he with ⟨x, _, _, -, hclash⟩ | ⟨-, hnil⟩
  · exact Query.kindsApart_iff.1 hkinds x hclash
  · exact not_isEmptyPattern_iff.2 hpattern hnil

/-- A pattern can be split exactly when there is something in it and no name has two kinds. -/
theorem partition_isOk_iff :
    (∃ groups r, partition q .empty = .ok groups r) ↔ q.HasPattern ∧ q.KindsApart := by
  constructor
  · rintro ⟨groups, r, h⟩
    obtain ⟨-, -, -, -, hpart⟩ := partition_eq_ok h
    refine ⟨not_isEmptyPattern_iff.1 fun hempty => ?_, fun c hc c' hc' => ?_⟩
    · have hout := outcome_partition_of_isEmptyPattern hempty
      rw [outcome, h] at hout
      cases hout
    · have hedge := (hpart.typed c hc).edge
      obtain ⟨hsrc, hdst, -⟩ := hpart.typed c' hc'
      constructor
      · intro heq
        rw [heq, hsrc] at hedge
        cases hedge
      · intro heq
        rw [heq, hdst] at hedge
        cases hedge
  · rintro ⟨hpattern, hkinds⟩
    obtain ⟨x, hx⟩ := exists_partition hpattern hkinds
    exact ⟨x.1, x.2, eq_ok_of_outcome_eq_ok hx⟩

/-- The registered names are those of the pattern. -/
theorem contains_iff_hasName (h : partition q .empty = .ok groups r) {x : String} :
    r.contains x = true ↔ q.HasName x := by
  obtain ⟨xs, rfl, -, hxs, hpart⟩ := partition_eq_ok h
  have hsplit : r.contains x = true ↔ (∃ c ∈ q.connections, x ∈ c.names) ∨ q.Isolated x := by
    rw [hpart.contains_iff, ← hxs x, ← mem_vars_ofConnections,
      ← exists_mem_ofNames (n := q.connections.length)]
    simp only [List.mem_append, or_and_right, exists_or]
  rw [hsplit]
  constructor
  · rintro (hconn | hiso)
    · exact Or.inl hconn
    · exact Or.inr hiso.1
  · rintro (hconn | hlisted)
    · exact Or.inl hconn
    · by_cases hconn : ∃ c ∈ q.connections, x ∈ c.names
      · exact Or.inl hconn
      · exact Or.inr ⟨hlisted, fun c hc hxc => hconn ⟨c, hc, hxc⟩⟩

/-- An edge of the pattern is registered as an edge. -/
theorem kind?_eq_edge (h : partition q .empty = .ok groups r) {x : String}
    (hx : q.Plays x .edge) : r.kind? x = some .edge := by
  obtain ⟨-, -, -, -, hpart⟩ := partition_eq_ok h
  obtain ⟨c, hc, rfl⟩ := hx
  exact (hpart.typed c hc).edge

/-- Every other name of the pattern is registered as a vertex. -/
theorem kind?_eq_node (h : partition q .empty = .ok groups r) {x : String} (hx : q.HasName x)
    (hedge : ¬ q.Plays x .edge) : r.kind? x = some .node := by
  obtain ⟨-, -, -, -, hpart⟩ := partition_eq_ok h
  obtain ⟨g, hg, hxg⟩ := (hpart.contains_iff x).1 ((contains_iff_hasName h).2 hx)
  rcases hpart.linked g hg with hconnected | ⟨id, y, rfl, hy⟩
  · obtain ⟨c, hc, hxc⟩ := (hconnected.mem_vars x).1 hxg
    have hcq : c ∈ q.connections :=
      hpart.connections.mem_iff.1 (List.mem_flatMap.2 ⟨g, hg, hc⟩)
    have htyped := hpart.typed c hcq
    simp only [Connection.names, List.mem_cons, List.not_mem_nil, or_false] at hxc
    rcases hxc with rfl | rfl | rfl
    · exact htyped.src
    · exact htyped.dst
    · exact (hedge ⟨c, hcq, rfl⟩).elim
  · rwa [List.mem_singleton.1 hxg]

end Component

end GraphPlan
