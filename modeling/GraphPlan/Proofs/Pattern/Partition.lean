import GraphPlan.Proofs.Outcome
import GraphPlan.Proofs.Pattern.Merging

/-!
# The partition of a pattern

Registering a pattern fails only when a name is used for a vertex and for an edge. Otherwise the
pattern is split into components: their variables are disjoint and together are the registered
ones, every connection lies in one of them, and each is connected or a single vertex. `Partitioned`
collects these facts and `meets_partition` is what the rest of planning knows about the partition.
-/

namespace GraphPlan

/-- A name was used for a vertex and for an edge. -/
def PlanError.IsKindConflict (e : PlanError) : Prop :=
  ∃ name registered requested, e = .kindConflict name registered requested

namespace Registry

/-- What a registered name stands for. -/
def kind? (r : Registry) (x : String) : Option VariableKind :=
  (r.lookup x).map Variable.kind

theorem contains_iff_kind? {r : Registry} {x : String} :
    r.contains x = true ↔ ∃ k, r.kind? x = some k := by
  unfold contains kind?
  cases r.lookup x <;> simp

@[simp]
theorem contains_empty (x : String) : Registry.empty.contains x = false :=
  rfl

theorem lookup_insert (r : Registry) (name x : String) (v : Variable) :
    lookup ⟨r.vars.insert name v⟩ x = if x = name then some v else r.lookup x :=
  NameMap.get?_alter ..

/-- The registry `r'` has the variables of `r` with their kinds, and variables with the given
names. -/
structure Adds (names : List String) (r r' : Registry) : Prop where
  /-- Registered names keep their kinds. -/
  keeps : ∀ {x k}, r.kind? x = some k → r'.kind? x = some k
  /-- Nothing else is registered. -/
  contains_iff : ∀ x, r'.contains x = true ↔ x ∈ names ∨ r.contains x = true

theorem Adds.refl (r : Registry) : Adds [] r r where
  keeps := id
  contains_iff := by simp

theorem Adds.trans {xs ys : List String} {r r' r'' : Registry} (h : Adds xs r r')
    (h' : Adds ys r' r'') : Adds (xs ++ ys) r r'' where
  keeps := fun hk => h'.keeps (h.keeps hk)
  contains_iff := by
    intro x
    rw [h'.contains_iff, h.contains_iff, List.mem_append]
    tauto

/-! ## Registration -/

/-- A registration keeps what is there and fails only on a name of the other kind. -/
theorem meets_register (name : String) (anonymous : Bool) (kind : VariableKind) (r : Registry) :
    (outcome (register name anonymous kind) r).Meets
      (fun x => Adds [name] r x.2 ∧ x.2.kind? name = some kind) PlanError.IsKindConflict := by
  cases hknown : r.lookup name with
  | some known =>
    by_cases hkind : known.kind = kind
    · simp only [outcome, register, hknown, hkind, if_true, Except.meets_ok]
      have hname : r.kind? name = some kind := by rw [kind?, hknown, Option.map_some, hkind]
      refine ⟨⟨id, fun x => ?_⟩, hname⟩
      simp only [List.mem_singleton]
      constructor
      · exact Or.inr
      · rintro (rfl | hx)
        · exact contains_iff_kind?.2 ⟨kind, hname⟩
        · exact hx
    · simp only [outcome, register, hknown, hkind, if_false, Except.meets_error]
      exact ⟨_, _, _, rfl⟩
  | none =>
    simp only [outcome, register, hknown, Except.meets_ok]
    refine ⟨⟨fun {x k} hx => ?_, fun x => ?_⟩, ?_⟩
    · have hne : x ≠ name := by
        rintro rfl
        rw [kind?, hknown] at hx
        cases hx
      rw [kind?, lookup_insert, if_neg hne]
      exact hx
    · rw [contains, lookup_insert, List.mem_singleton]
      split
      · next h => simp [h]
      · next h => simp [h, contains]
    · rw [kind?, lookup_insert, if_pos rfl]
      rfl

end Registry

/-- The variables of a connection have the kinds of their places in it. -/
structure Connection.Typed (r : Registry) (c : Connection) : Prop where
  /-- The source is a vertex. -/
  src : r.kind? c.src.name = some .node
  /-- The destination is a vertex. -/
  dst : r.kind? c.dst.name = some .node
  /-- The edge is an edge. -/
  edge : r.kind? c.edge.name = some .edge

theorem Connection.Typed.adds {r r' : Registry} {c : Connection} {names : List String}
    (hc : c.Typed r) (h : r.Adds names r') : c.Typed r' :=
  ⟨h.keeps hc.src, h.keeps hc.dst, h.keeps hc.edge⟩

namespace Registry

theorem meets_registerConnection (c : Connection) (r : Registry) :
    (outcome (registerConnection c) r).Meets (fun x => Adds c.names r x.2 ∧ c.Typed x.2)
      PlanError.IsKindConflict := by
  simp only [registerConnection, outcome_bind, outcome_pure]
  refine (meets_register _ _ _ r).bind fun x₁ ⟨h₁, hsrc⟩ => ?_
  refine (meets_register _ _ _ x₁.2).bind fun x₂ ⟨h₂, hdst⟩ => ?_
  refine (meets_register _ _ _ x₂.2).bind fun x₃ ⟨h₃, hedge⟩ => ?_
  exact ⟨(h₁.trans h₂).trans h₃, h₃.keeps (h₂.keeps hsrc), h₃.keeps hdst, hedge⟩

/-- Registering connections gives every variable the kind of its place. -/
theorem meets_registerConnections (cs : List Connection) (r : Registry) :
    (outcome (registerConnections cs) r).Meets
      (fun x => Adds (cs.flatMap Connection.names) r x.2 ∧ ∀ c ∈ cs, c.Typed x.2)
      PlanError.IsKindConflict := by
  induction cs generalizing r with
  | nil => exact ⟨Adds.refl r, nofun⟩
  | cons c cs ih =>
    rw [registerConnections, outcome_bind]
    refine (meets_registerConnection c r).bind fun x ⟨hx, hc⟩ => ?_
    refine (ih x.2).mono (fun y ⟨hy, hcs⟩ => ?_) fun _ => id
    refine ⟨hx.trans hy, fun d hd => ?_⟩
    rcases List.mem_cons.1 hd with rfl | hd
    · exact hc.adds hy
    · exact hcs d hd

end Registry

namespace Component

/-! ## Single vertices -/

/-- The components of single vertices, numbered from `n` on. -/
def ofNames (n : Nat) : List String → List Component
  | [] => []
  | x :: xs => ofVertex ⟨n⟩ x :: ofNames (n + 1) xs

theorem mem_ofNames {n : Nat} {xs : List String} {g : Component} (h : g ∈ ofNames n xs) :
    ∃ x ∈ xs, ∃ id, g = ofVertex id x := by
  induction xs generalizing n with
  | nil => cases h
  | cons x xs ih =>
    rcases List.mem_cons.1 h with rfl | h
    · exact ⟨x, List.mem_cons_self, _, rfl⟩
    · obtain ⟨y, hy, hg⟩ := ih h
      exact ⟨y, List.mem_cons_of_mem x hy, hg⟩

theorem exists_mem_ofNames {n : Nat} {xs : List String} {x : String} :
    (∃ g ∈ ofNames n xs, x ∈ g.vars) ↔ x ∈ xs := by
  induction xs generalizing n with
  | nil => simp [ofNames]
  | cons y ys ih => simp [ofNames, ofVertex, ih]

theorem connections_ofNames (n : Nat) (xs : List String) :
    (ofNames n xs).flatMap Component.connections = [] := by
  induction xs generalizing n with
  | nil => rfl
  | cons x xs ih => rw [ofNames, List.flatMap_cons, ih]; rfl

theorem ids_ofNames (n : Nat) (xs : List String) :
    (ofNames n xs).map (·.id.index) = List.range' n xs.length := by
  induction xs generalizing n with
  | nil => rfl
  | cons x xs ih => rw [ofNames, List.map_cons, ih, List.length_cons, List.range'_succ]; rfl

theorem pairwise_ofNames {n : Nat} {xs : List String} (h : xs.Nodup) :
    (ofNames n xs).Pairwise fun c d => ∀ x ∈ c.vars, x ∉ d.vars := by
  induction xs generalizing n with
  | nil => exact .nil
  | cons x xs ih =>
    rw [List.nodup_cons] at h
    refine .cons (fun g hg y hy hyg => h.1 ?_) (ih h.2)
    rw [← List.mem_singleton.1 hy]
    exact exists_mem_ofNames.1 ⟨g, hg, hyg⟩

/-- The listed vertices that become components: those that are named and not registered yet, each
once. -/
structure Isolated (vs : List PatternVar) (r r' : Registry) (xs : List String) : Prop where
  /-- Each vertex is taken once. -/
  nodup : xs.Nodup
  /-- They were not registered. -/
  fresh : ∀ x ∈ xs, r.contains x = false
  /-- They are registered now. -/
  adds : r.Adds xs r'
  /-- They are registered as vertices. -/
  kind : ∀ x ∈ xs, r'.kind? x = some .node
  /-- They are listed by name. -/
  listed : ∀ x ∈ xs, ∃ v ∈ vs, v.anonymous = false ∧ v.name = x
  /-- No named vertex is left out. -/
  covers : ∀ v ∈ vs, v.anonymous = false → r'.contains v.name = true

theorem Isolated.skip {v : PatternVar} {vs : List PatternVar} {r r' : Registry} {xs : List String}
    (h : Isolated vs r r' xs) (hv : v.anonymous = false → r.contains v.name = true) :
    Isolated (v :: vs) r r' xs where
  nodup := h.nodup
  fresh := h.fresh
  adds := h.adds
  kind := h.kind
  listed := fun x hx =>
    let ⟨w, hw, hwx⟩ := h.listed x hx
    ⟨w, List.mem_cons_of_mem v hw, hwx⟩
  covers := by
    intro w hw hanon
    rcases List.mem_cons.1 hw with rfl | hw
    · exact (h.adds.contains_iff _).2 (Or.inr (hv hanon))
    · exact h.covers w hw hanon

theorem Isolated.take {v : PatternVar} {vs : List PatternVar} {r r₁ r' : Registry}
    {xs : List String} (h : Isolated vs r₁ r' xs) (hanon : v.anonymous = false)
    (hv : r.contains v.name = false) (h₁ : r.Adds [v.name] r₁)
    (hkind : r₁.kind? v.name = some .node) : Isolated (v :: vs) r r' (v.name :: xs) where
  nodup := by
    refine List.nodup_cons.2 ⟨fun hmem => ?_, h.nodup⟩
    have hfresh := h.fresh _ hmem
    rw [(h₁.contains_iff _).2 (Or.inl List.mem_cons_self)] at hfresh
    cases hfresh
  fresh := by
    intro x hx
    rcases List.mem_cons.1 hx with rfl | hx
    · exact hv
    · by_contra hcon
      have hfresh := h.fresh x hx
      rw [(h₁.contains_iff _).2 (Or.inr (by simpa using hcon))] at hfresh
      cases hfresh
  adds := h₁.trans h.adds
  kind := by
    intro x hx
    rcases List.mem_cons.1 hx with rfl | hx
    · exact h.adds.keeps hkind
    · exact h.kind x hx
  listed := by
    intro x hx
    rcases List.mem_cons.1 hx with rfl | hx
    · exact ⟨v, List.mem_cons_self, hanon, rfl⟩
    · obtain ⟨w, hw, hwx⟩ := h.listed x hx
      exact ⟨w, List.mem_cons_of_mem v hw, hwx⟩
  covers := by
    intro w hw hw'
    rcases List.mem_cons.1 hw with rfl | hw
    · exact (h.adds.contains_iff _).2
        (Or.inr ((h₁.contains_iff _).2 (Or.inl List.mem_cons_self)))
    · exact h.covers w hw hw'

/-- A name that is not registered can be registered. -/
theorem outcome_register_of_not_contains {name : String} {r : Registry} (anonymous : Bool)
    (kind : VariableKind) (h : r.contains name = false) :
    ∃ x, outcome (Registry.register name anonymous kind) r = .ok x := by
  have hnone : r.lookup name = none := by simpa [Registry.contains] using h
  exact ⟨_, by simp only [outcome, Registry.register, hnone]; rfl⟩

/-- Listed vertices never fail to register. -/
theorem meets_ofVertices (n : Nat) (vs : List PatternVar) (r : Registry) :
    (outcome (ofVertices n vs) r).Meets
      (fun x => ∃ xs, Isolated vs r x.2 xs ∧ x.1 = ofNames n xs) (fun _ => False) := by
  induction vs generalizing n r with
  | nil => exact ⟨[], ⟨List.nodup_nil, nofun, Registry.Adds.refl r, nofun, nofun, nofun⟩, rfl⟩
  | cons v vs ih =>
    rw [ofVertices, outcome_bind, outcome_get, ok_bind]
    split
    · next hskip =>
      refine (ih n r).mono (fun x ⟨xs, hxs, hx⟩ => ⟨xs, hxs.skip fun hanon => ?_, hx⟩)
        fun _ => False.elim
      simpa [hanon] using hskip
    · next htake =>
      simp only [Bool.or_eq_true, not_or, Bool.not_eq_true] at htake
      obtain ⟨x₁, hx₁⟩ := outcome_register_of_not_contains false .node htake.2
      obtain ⟨hadds, hkind⟩ := (Registry.meets_register _ _ _ r).result hx₁
      rw [outcome_bind, hx₁, ok_bind, outcome_bind]
      refine (ih (n + 1) x₁.2).bind fun x ⟨xs, hxs, hx⟩ => ?_
      rw [outcome_pure, Except.meets_ok]
      exact ⟨v.name :: xs, hxs.take htake.1 htake.2 hadds hkind, by rw [hx, ofNames]⟩

/-! ## The partition -/

/-- A component that is connected, or a single vertex. -/
def Linked (r : Registry) (g : Component) : Prop :=
  g.Connected ∨ ∃ id x, g = ofVertex id x ∧ r.kind? x = some .node

/-- A set of variables that meets the component and is closed under its connections contains it. -/
theorem Linked.spread {r : Registry} {g : Component} (hg : g.Linked r) {S : String → Prop}
    (hmeets : ∃ x ∈ g.vars, S x)
    (hclosed : ∀ c ∈ g.connections, (∃ x ∈ c.names, S x) → ∀ x ∈ c.names, S x) :
    ∀ x ∈ g.vars, S x := by
  rcases hg with hg | ⟨id, y, rfl, -⟩
  · exact hg.spread S hmeets hclosed
  · obtain ⟨x, hx, hS⟩ := hmeets
    intro z hz
    rw [List.mem_singleton.1 hx] at hS
    rwa [List.mem_singleton.1 hz]

theorem Linked.mem_vars {r : Registry} {g : Component} (hg : g.Linked r) {c : Connection}
    (hc : c ∈ g.connections) {x : String} (hx : x ∈ c.names) : x ∈ g.vars := by
  rcases hg with hg | ⟨id, y, rfl, -⟩
  · exact (hg.mem_vars x).2 ⟨c, hc, hx⟩
  · cases hc

/-- Every component has a vertex. -/
theorem Linked.exists_node {r : Registry} {g : Component} (hg : g.Linked r)
    (htyped : ∀ c ∈ g.connections, c.Typed r) : ∃ x ∈ g.vars, r.kind? x = some .node := by
  rcases hg with hg | ⟨id, y, rfl, hy⟩
  · obtain ⟨c, hc⟩ := List.exists_mem_of_ne_nil _ hg.nonempty
    refine ⟨c.src.name, (hg.mem_vars _).2 ⟨c, hc, ?_⟩, (htyped c hc).src⟩
    simp [Connection.names]
  · exact ⟨y, List.mem_singleton.2 rfl, hy⟩

/-- The components of a pattern and the registry of its variables. -/
structure Partitioned (q : Query) (groups : List Component) (r : Registry) : Prop where
  /-- There is a component. -/
  nonempty : groups ≠ []
  /-- The numbers grow. -/
  ids : (groups.map (·.id.index)).Pairwise (· < ·)
  /-- No variable belongs to two components. -/
  disjoint : groups.Pairwise fun c d => ∀ x ∈ c.vars, x ∉ d.vars
  /-- Every connection belongs to one component. -/
  connections : (groups.flatMap Component.connections).Perm q.connections
  /-- Each component hangs together. -/
  linked : ∀ g ∈ groups, g.Linked r
  /-- The variables of the components are the registered ones. -/
  contains_iff : ∀ x, r.contains x = true ↔ ∃ g ∈ groups, x ∈ g.vars
  /-- Every variable has the kind of its place. -/
  typed : ∀ c ∈ q.connections, c.Typed r

theorem mem_vars_ofConnections {cs : List Connection} {x : String} :
    (∃ g ∈ ofConnections cs, x ∈ g.vars) ↔ ∃ c ∈ cs, x ∈ c.names := by
  have hconnected := connected_mergeAtMost cs.length (connected_singletons 0 cs)
  have hperm := connections_mergeAtMost cs.length (singletons 0 cs)
  rw [connections_singletons] at hperm
  constructor
  · rintro ⟨g, hg, hx⟩
    obtain ⟨c, hc, hxc⟩ := ((hconnected g hg).mem_vars x).1 hx
    exact ⟨c, hperm.mem_iff.1 (List.mem_flatMap.2 ⟨g, hg, hc⟩), hxc⟩
  · rintro ⟨c, hc, hxc⟩
    obtain ⟨g, hg, hcg⟩ := List.mem_flatMap.1 (hperm.mem_iff.2 hc)
    exact ⟨g, hg, ((hconnected g hg).mem_vars x).2 ⟨c, hcg, hxc⟩⟩

theorem touches_eq_false_iff {c d : Component} :
    c.touches d = false ↔ ∀ x ∈ c.vars, x ∉ d.vars := by
  simp only [← Bool.not_eq_true, touches_iff, contains, List.contains_iff_mem]
  grind

/-- Components of connections have smaller numbers than there are connections. -/
theorem ids_ofConnections (cs : List Connection) :
    ((ofConnections cs).map (·.id.index)).Sublist (List.range' 0 cs.length) := by
  have h := (ids_mergeAtMost cs.length (singletons 0 cs)).map GroupId.index
  rw [List.map_map, List.map_map] at h
  rw [← ids_singletons 0 cs]
  exact h

/-- The components of the connections and those of the single vertices, put together. -/
theorem partitioned_append {q : Query} {r r' : Registry} {xs : List String}
    (hr : Registry.Adds (q.connections.flatMap Connection.names) .empty r)
    (htyped : ∀ c ∈ q.connections, c.Typed r) (hxs : Isolated q.vertices r r' xs)
    (hne : ofConnections q.connections ++ ofNames q.connections.length xs ≠ []) :
    Partitioned q (ofConnections q.connections ++ ofNames q.connections.length xs) r' := by
  have hnames : ∀ x, r.contains x = true ↔ ∃ c ∈ q.connections, x ∈ c.names := by
    intro x
    rw [hr.contains_iff, Registry.contains_empty, List.mem_flatMap]
    simp
  refine ⟨hne, ?_, ?_, ?_, ?_, ?_, fun c hc => (htyped c hc).adds hxs.adds⟩
  · have hsub := ids_ofConnections q.connections
    rw [List.map_append, ids_ofNames, List.pairwise_append]
    refine ⟨List.Pairwise.sublist hsub List.pairwise_lt_range', List.pairwise_lt_range', ?_⟩
    intro i hi j hj
    have hi' := List.mem_range'_1.1 (hsub.subset hi)
    have hj' := List.mem_range'_1.1 hj
    omega
  · refine List.pairwise_append.2 ⟨?_, ?_, ?_⟩
    · refine (pairwise_mergeAtMost ?_).imp touches_eq_false_iff.1
      exact Nat.le_of_eq (length_singletons ..)
    · exact pairwise_ofNames hxs.nodup
    · intro c hc d hd x hxc hxd
      have hreg := (hnames x).2 (mem_vars_ofConnections.1 ⟨c, hc, hxc⟩)
      rw [hxs.fresh x (exists_mem_ofNames.1 ⟨d, hd, hxd⟩)] at hreg
      cases hreg
  · rw [List.flatMap_append, connections_ofNames, List.append_nil]
    have hperm := connections_mergeAtMost q.connections.length (singletons 0 q.connections)
    rwa [connections_singletons] at hperm
  · intro g hg
    rcases List.mem_append.1 hg with hg | hg
    · exact Or.inl (connected_mergeAtMost _ (connected_singletons 0 _) g hg)
    · obtain ⟨x, hx, id, rfl⟩ := mem_ofNames hg
      exact Or.inr ⟨id, x, rfl, hxs.kind x hx⟩
  · intro x
    rw [hxs.adds.contains_iff, hnames, ← mem_vars_ofConnections,
      ← exists_mem_ofNames (n := q.connections.length)]
    simp only [List.mem_append, or_and_right, exists_or]
    exact or_comm

/-- The pattern has no connection and no named vertex. -/
def IsEmptyPattern (q : Query) : Prop :=
  q.connections = [] ∧ ∀ v ∈ q.vertices, v.anonymous = true

theorem isEmptyPattern_of_nil {q : Query} {r r' : Registry} {xs : List String}
    (hr : Registry.Adds (q.connections.flatMap Connection.names) .empty r)
    (hxs : Isolated q.vertices r r' xs) (hcs : ofConnections q.connections = [])
    (hns : ofNames q.connections.length xs = []) : IsEmptyPattern q := by
  have hconnections : q.connections = [] := by
    by_contra hne
    have hsingle : singletons 0 q.connections ≠ [] := by
      rw [← List.length_pos_iff, length_singletons, List.length_pos_iff]
      exact hne
    exact mergeAtMost_ne_nil hsingle hcs
  refine ⟨hconnections, fun v hv => ?_⟩
  by_contra hanon
  have hreg := hxs.covers v hv (by simpa using hanon)
  rw [hxs.adds.contains_iff, ← exists_mem_ofNames (n := q.connections.length), hns,
    hr.contains_iff, hconnections] at hreg
  simp at hreg

/-- A pattern is split into components unless its connections cannot be registered or there is
nothing in it. -/
theorem meets_partition_of_register {q : Query} {bad : PlanError → Prop}
    (h : (outcome (Registry.registerConnections q.connections) .empty).Meets
      (fun x => Registry.Adds (q.connections.flatMap Connection.names) .empty x.2 ∧
        ∀ c ∈ q.connections, c.Typed x.2) bad) :
    (outcome (partition q) .empty).Meets (fun x => Partitioned q x.1 x.2)
      (fun e => bad e ∨ e = .emptyPattern ∧ IsEmptyPattern q) := by
  simp only [partition, outcome_bind]
  refine Except.Meets.bind (h.widen fun _ => Or.inl) fun y ⟨hy, htyped⟩ => ?_
  refine Except.Meets.bind ((meets_ofVertices q.connections.length q.vertices y.2).widen
    fun _ => False.elim) fun z ⟨xs, hxs, hz⟩ => ?_
  rw [hz]
  split
  · next hempty =>
    rw [List.isEmpty_iff, List.append_eq_nil_iff] at hempty
    exact Or.inr ⟨rfl, isEmptyPattern_of_nil hy hxs hempty.1 hempty.2⟩
  · next hne =>
    rw [List.isEmpty_iff] at hne
    exact partitioned_append hy htyped hxs hne

/-- Connections cannot be registered if a name is used in two ways. -/
theorem meets_partition (q : Query) :
    (outcome (partition q) .empty).Meets (fun x => Partitioned q x.1 x.2)
      (fun e => e.IsKindConflict ∨ e = .emptyPattern ∧ IsEmptyPattern q) :=
  meets_partition_of_register (Registry.meets_registerConnections q.connections .empty)

/-- A pattern with nothing in it is refused. -/
theorem outcome_partition_of_isEmptyPattern {q : Query} (h : IsEmptyPattern q) :
    outcome (partition q) .empty = .error .emptyPattern := by
  have hvertices : ∀ (n : Nat) (vs : List PatternVar) (r : Registry),
      (∀ v ∈ vs, v.anonymous = true) → outcome (ofVertices n vs) r = .ok ([], r) := by
    intro n vs
    induction vs generalizing n with
    | nil => exact fun r _ => rfl
    | cons v vs ih =>
      intro r hvs
      rw [ofVertices, outcome_bind, outcome_get, ok_bind,
        if_pos (by rw [hvs v List.mem_cons_self, Bool.true_or])]
      exact ih n r fun w hw => hvs w (List.mem_cons_of_mem v hw)
  simp only [partition, outcome_bind, h.1, Registry.registerConnections, outcome_pure, ok_bind,
    hvertices _ _ _ h.2]
  rfl

end Component

end GraphPlan
