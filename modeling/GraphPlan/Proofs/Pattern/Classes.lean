import GraphPlan.Proofs.Pattern.Partition
import Mathlib.Data.List.Nodup
import Mathlib.Data.List.Pairwise
import Mathlib.Logic.Relation

/-!
# The components of a pattern are its classes

Two connections belong together when a chain of connections leads from one to the other in which
neighbours share a variable. Merging decides this relation without looking at chains: it only ever
compares two components. What is shown here is that the components of connections are the classes of
the relation, that a component is numbered by its first connection, and that every other component
is a vertex of its own.
-/

namespace GraphPlan

/-- Two connections have a variable in common. -/
def Connection.Shares (c d : Connection) : Prop :=
  ∃ x ∈ c.names, x ∈ d.names

/-- A chain of connections of the query leads from one connection to another, neighbours sharing a
variable. -/
def Query.Chained (q : Query) : Connection → Connection → Prop :=
  Relation.ReflTransGen fun c d => d ∈ q.connections ∧ c.Shares d

/-- A vertex that is listed by name and that no connection mentions. -/
def Query.Isolated (q : Query) (x : String) : Prop :=
  (∃ v ∈ q.vertices, v.anonymous = false ∧ v.name = x) ∧ ∀ c ∈ q.connections, x ∉ c.names

namespace Component

variable {q : Query} {groups : List Component} {r : Registry}

/-! ## Numbers -/

/-- The components of the connections `cs` while they are merged: the numbers grow, a component has
the connection of its number, and no connection lies in a component with a larger number. -/
structure Numbered (cs : List Connection) (l : List Component) : Prop where
  increasing : l.Pairwise fun g g' => g.id.index < g'.id.index
  led : ∀ g ∈ l, ∃ c ∈ g.connections, cs[g.id.index]? = some c
  covered : ∀ (i : Nat) (c : Connection), cs[i]? = some c →
    ∃ g ∈ l, c ∈ g.connections ∧ g.id.index ≤ i

theorem mem_singletons {n : Nat} {cs : List Connection} {g : Component} :
    g ∈ singletons n cs ↔ ∃ (i : Nat) (c : Connection), cs[i]? = some c ∧
      g = ofConnection ⟨n + i⟩ c := by
  induction cs generalizing n with
  | nil => simp [singletons]
  | cons c cs ih =>
    rw [singletons, List.mem_cons, ih]
    constructor
    · rintro (rfl | ⟨i, d, hd, rfl⟩)
      · exact ⟨0, c, rfl, rfl⟩
      · refine ⟨i + 1, d, hd, ?_⟩
        rw [Nat.add_right_comm, Nat.add_assoc]
    · rintro ⟨i, d, hd, rfl⟩
      cases i with
      | zero =>
        cases hd
        exact Or.inl rfl
      | succ i =>
        refine Or.inr ⟨i, d, hd, ?_⟩
        rw [Nat.add_right_comm, Nat.add_assoc]

theorem numbered_singletons (cs : List Connection) : Numbered cs (singletons 0 cs) where
  increasing := by
    have hids : ((singletons 0 cs).map (·.id.index)).Pairwise (· < ·) := by
      rw [ids_singletons]
      exact List.pairwise_lt_range'
    exact List.pairwise_map.1 hids
  led := by
    intro g hg
    obtain ⟨i, c, hc, rfl⟩ := mem_singletons.1 hg
    refine ⟨c, by simp [ofConnection], ?_⟩
    show cs[0 + i]? = some c
    rw [Nat.zero_add, hc]
  covered := by
    intro i c hc
    refine ⟨ofConnection ⟨0 + i⟩ c, mem_singletons.2 ⟨i, c, hc, rfl⟩, by simp [ofConnection], ?_⟩
    show 0 + i ≤ i
    omega

/-- The earlier of two components has the smaller number, and keeps it when it absorbs the other. -/
theorem Numbered.merge {cs : List Connection} {before mid after : List Component} {c d : Component}
    (h : Numbered cs (before ++ c :: (mid ++ d :: after))) :
    Numbered cs (before ++ c.absorb d :: (mid ++ after)) := by
  have hlt : c.id.index < d.id.index := by
    have hinc := (List.pairwise_append.1 h.increasing).2.1
    exact (List.pairwise_cons.1 hinc).1 d (by simp)
  refine ⟨?_, ?_, ?_⟩
  · have hsub : (before ++ c :: (mid ++ after)).Sublist (before ++ c :: (mid ++ d :: after)) := by
      refine List.Sublist.append (List.Sublist.refl _) (List.Sublist.cons_cons _ ?_)
      exact List.Sublist.append (List.Sublist.refl _) (List.sublist_cons_self _ _)
    have hids := List.pairwise_map.2 (h.increasing.sublist hsub)
    -- the number of `c.absorb d` is that of `c`
    have heq : (before ++ c.absorb d :: (mid ++ after)).map (·.id.index) =
        (before ++ c :: (mid ++ after)).map (·.id.index) := by
      simp [absorb]
    rw [← heq] at hids
    exact List.pairwise_map.1 hids
  · intro g hg
    have hold : g = c.absorb d ∨ g ∈ before ++ c :: (mid ++ d :: after) := by
      simp only [List.mem_append, List.mem_cons] at hg ⊢
      tauto
    rcases hold with rfl | hg
    · obtain ⟨k, hk, hget⟩ := h.led c (by simp)
      exact ⟨k, List.mem_append_left _ hk, hget⟩
    · exact h.led g hg
  · intro i k hk
    obtain ⟨g, hg, hkg, hle⟩ := h.covered i k hk
    have hcases : g = c ∨ g = d ∨ g ∈ before ++ c.absorb d :: (mid ++ after) := by
      simp only [List.mem_append, List.mem_cons] at hg ⊢
      tauto
    rcases hcases with rfl | rfl | hmem
    · exact ⟨g.absorb d, by simp, List.mem_append_left _ hkg, hle⟩
    · refine ⟨c.absorb g, by simp, List.mem_append_right _ hkg, ?_⟩
      show c.id.index ≤ i
      omega
    · exact ⟨g, hmem, hkg, hle⟩

theorem numbered_ofConnections (cs : List Connection) : Numbered cs (ofConnections cs) :=
  mergeAtMost_induction (fun _ _ _ _ _ _ h => h.merge) cs.length (numbered_singletons cs)

/-- No component lists a variable twice. -/
theorem nodup_vars_ofConnections (cs : List Connection) : ∀ g ∈ ofConnections cs, g.vars.Nodup := by
  refine mergeAtMost_induction (P := fun l => ∀ g ∈ l, g.vars.Nodup) ?_ cs.length ?_
  · intro before c mid d after _ h g hg
    have hold : g = c.absorb d ∨ g ∈ before ++ c :: (mid ++ d :: after) := by
      simp only [List.mem_append, List.mem_cons] at hg ⊢
      tauto
    rcases hold with rfl | hg
    · exact nodup_addNames (h c (by simp))
    · exact h g hg
  · intro g hg
    obtain ⟨i, c, -, rfl⟩ := mem_singletons.1 hg
    exact nodup_addNames List.nodup_nil

/-! ## Components that share a variable -/

/-- Components with disjoint variables that have a variable in common are one. -/
theorem eq_of_mem_vars (h : groups.Pairwise fun g g' => ∀ x ∈ g.vars, x ∉ g'.vars)
    {g g' : Component} (hg : g ∈ groups) (hg' : g' ∈ groups) {x : String} (hx : x ∈ g.vars)
    (hx' : x ∈ g'.vars) : g = g' := by
  have hsymm : Std.Symm fun g g' : Component => ∀ x ∈ g.vars, x ∉ g'.vars :=
    ⟨fun _ _ hdisj x hx hx' => hdisj x hx' hx⟩
  by_contra hne
  exact h.forall hg hg' hne x hx hx'

namespace Partitioned

/-- A connection of a component is one of the query. -/
theorem mem_connections (h : Partitioned q groups r) {g : Component} (hg : g ∈ groups)
    {c : Connection} (hc : c ∈ g.connections) : c ∈ q.connections :=
  h.connections.mem_iff.1 (List.mem_flatMap.2 ⟨g, hg, hc⟩)

/-- Connections that share a variable lie in one component. -/
theorem mem_of_shares (h : Partitioned q groups r) {g : Component} (hg : g ∈ groups)
    {c d : Connection} (hc : c ∈ g.connections) (hd : d ∈ q.connections) (hshares : c.Shares d) :
    d ∈ g.connections := by
  obtain ⟨g', hg', hdg'⟩ := List.mem_flatMap.1 (h.connections.mem_iff.2 hd)
  obtain ⟨x, hxc, hxd⟩ := hshares
  have hx : x ∈ g.vars := (h.linked g hg).mem_vars hc hxc
  have hx' : x ∈ g'.vars := (h.linked g' hg').mem_vars hdg' hxd
  rw [eq_of_mem_vars h.disjoint hg hg' hx hx']
  exact hdg'

/-- The connections of a component are the class of any one of them. -/
theorem mem_iff_chained (h : Partitioned q groups r) {g : Component} (hg : g ∈ groups)
    {c : Connection} (hc : c ∈ g.connections) (d : Connection) :
    d ∈ g.connections ↔ q.Chained c d := by
  constructor
  · intro hd
    -- the variables that chains from `c` reach contain `c` and are closed under connections
    have hreach : ∀ x ∈ g.vars, ∃ k, q.Chained c k ∧ x ∈ k.names := by
      have hsrc : c.src.name ∈ c.names := by simp [Connection.names]
      refine (h.linked g hg).spread (S := fun x => ∃ k, q.Chained c k ∧ x ∈ k.names)
        ⟨c.src.name, (h.linked g hg).mem_vars hc hsrc, c, .refl, hsrc⟩ ?_
      rintro k hk ⟨x, hx, k', hchain, hxk'⟩ y hy
      exact ⟨k, hchain.tail ⟨h.mem_connections hg hk, x, hxk', hx⟩, hy⟩
    have hsrc : d.src.name ∈ d.names := by simp [Connection.names]
    obtain ⟨k, hchain, hx⟩ := hreach _ ((h.linked g hg).mem_vars hd hsrc)
    exact hchain.tail ⟨h.mem_connections hg hd, _, hx, hsrc⟩
  · intro hchain
    induction hchain with
    | refl => exact hc
    | tail _ hstep ih => exact h.mem_of_shares hg ih hstep.1 hstep.2

end Partitioned

/-! ## The partition -/

/-- What the components of a pattern are made of: components of connections, then those of single
vertices. -/
theorem partition_eq_ok (h : partition q .empty = .ok groups r) :
    ∃ xs, groups = ofConnections q.connections ++ ofNames q.connections.length xs ∧ xs.Nodup ∧
      (∀ x, x ∈ xs ↔ q.Isolated x) ∧ Partitioned q groups r := by
  have hout : outcome (partition q) .empty = .ok (groups, r) := by rw [outcome, h]
  have hpart := (meets_partition q).result hout
  rw [partition, outcome_bind] at hout
  obtain ⟨y, hy, hout⟩ := eq_ok_of_bind_eq_ok hout
  obtain ⟨hadds, -⟩ := (Registry.meets_registerConnections q.connections .empty).result hy
  rw [outcome_bind] at hout
  obtain ⟨z, hz, hout⟩ := eq_ok_of_bind_eq_ok hout
  obtain ⟨xs, hxs, hzxs⟩ := (meets_ofVertices q.connections.length q.vertices y.2).result hz
  simp only [hzxs] at hout
  split at hout
  · cases hout
  · cases hout
    have hnames : ∀ x, y.2.contains x = true ↔ ∃ c ∈ q.connections, x ∈ c.names := by
      intro x
      rw [hadds.contains_iff, Registry.contains_empty, List.mem_flatMap]
      simp
    refine ⟨xs, rfl, hxs.nodup, fun x => ⟨fun hx => ⟨hxs.listed x hx, ?_⟩, ?_⟩, hpart⟩
    · intro c hc hxc
      have hfresh := hxs.fresh x hx
      rw [(hnames x).2 ⟨c, hc, hxc⟩] at hfresh
      cases hfresh
    · rintro ⟨⟨v, hv, hanon, rfl⟩, hnone⟩
      rcases (hxs.adds.contains_iff v.name).1 (hxs.covers v hv hanon) with hmem | hreg
      · exact hmem
      · obtain ⟨c, hc, hxc⟩ := (hnames v.name).1 hreg
        exact absurd hxc (hnone c hc)

theorem connections_ne_nil_of_mem_ofConnections {cs : List Connection} {g : Component}
    (hg : g ∈ ofConnections cs) : g.connections ≠ [] :=
  (connected_mergeAtMost _ (connected_singletons 0 cs) g hg).nonempty

theorem mem_ofNames_of_mem {n : Nat} {xs : List String} {x : String} (hx : x ∈ xs) :
    ∃ id, ofVertex id x ∈ ofNames n xs := by
  obtain ⟨g, hg, hxg⟩ := exists_mem_ofNames.2 hx
  obtain ⟨y, -, id, rfl⟩ := mem_ofNames (n := n) hg
  rw [List.mem_singleton.1 hxg]
  exact ⟨id, hg⟩

/-- No connection lies in two components. -/
theorem Partitioned.eq_of_mem_connections (h : Partitioned q groups r) {g g' : Component}
    {c : Connection} (hg : g ∈ groups) (hg' : g' ∈ groups) (hc : c ∈ g.connections)
    (hc' : c ∈ g'.connections) : g = g' := by
  have hsrc : c.src.name ∈ c.names := by simp [Connection.names]
  exact eq_of_mem_vars h.disjoint hg hg' ((h.linked g hg).mem_vars hc hsrc)
    ((h.linked g' hg').mem_vars hc' hsrc)

/-- The components of a pattern are the classes of its connections and its isolated vertices. -/
structure AreClasses (q : Query) (groups : List Component) (r : Registry) : Prop where
  /-- Every connection lies in one component. -/
  existsUnique : ∀ c ∈ q.connections, ∃! g, g ∈ groups ∧ c ∈ g.connections
  /-- A component with a connection holds the class of that connection. -/
  mem_iff : ∀ g ∈ groups, ∀ c ∈ g.connections, ∀ d, d ∈ g.connections ↔ q.Chained c d
  /-- Connections are counted as often as the query lists them. -/
  connections : (groups.flatMap Component.connections).Perm q.connections
  /-- There is one component without connections for each isolated vertex. -/
  vertex : ∀ x, q.Isolated x → ∃! g, g ∈ groups ∧ g.connections = [] ∧ g.vars = [x]
  /-- There are no others. -/
  isolated : ∀ g ∈ groups, g.connections = [] → ∃ x, g.vars = [x] ∧ q.Isolated x
  /-- No component lists a variable twice. -/
  nodup : ∀ g ∈ groups, g.vars.Nodup
  /-- The variables of a component of connections are those of its connections. -/
  mem_vars : ∀ g ∈ groups, g.connections ≠ [] →
    ∀ x, x ∈ g.vars ↔ ∃ c ∈ g.connections, x ∈ c.names
  /-- No variable belongs to two components. -/
  disjoint : groups.Pairwise fun g g' => ∀ x ∈ g.vars, x ∉ g'.vars
  /-- The variables of the components are the registered ones. -/
  registered : ∀ x, r.contains x = true ↔ ∃ g ∈ groups, x ∈ g.vars
  /-- The numbers grow. -/
  increasing : (groups.map (·.id.index)).Pairwise (· < ·)
  /-- A component of connections is numbered by the first of them. -/
  least : ∀ g ∈ groups, g.connections ≠ [] →
    (∃ c ∈ g.connections, q.connections[g.id.index]? = some c) ∧
      ∀ (i : Nat) (c : Connection), q.connections[i]? = some c → c ∈ g.connections →
        g.id.index ≤ i

/-- Splitting a pattern gives exactly the classes of its connections, one component for each isolated
vertex, and nothing else. -/
theorem partition_gives_classes {q : Query} {groups : List Component} {r : Registry}
    (h : partition q .empty = .ok groups r) : AreClasses q groups r := by
  obtain ⟨xs, hgroups, hnodup, hxs, hpart⟩ := partition_eq_ok h
  have hsplit : ∀ g ∈ groups,
      g ∈ ofConnections q.connections ∨ ∃ x ∈ xs, ∃ id, g = ofVertex id x := by
    intro g hg
    rw [hgroups] at hg
    exact (List.mem_append.1 hg).imp_right mem_ofNames
  have hconnected : ∀ g ∈ groups, g.connections ≠ [] → g ∈ ofConnections q.connections := by
    intro g hg hne
    rcases hsplit g hg with hmem | ⟨x, -, id, rfl⟩
    · exact hmem
    · exact absurd rfl hne
  have hnumbered := numbered_ofConnections q.connections
  refine
    { existsUnique := ?_
      mem_iff := fun g hg c hc d => hpart.mem_iff_chained hg hc d
      connections := hpart.connections
      vertex := ?_
      isolated := ?_
      nodup := ?_
      mem_vars := ?_
      disjoint := hpart.disjoint
      registered := hpart.contains_iff
      increasing := hpart.ids
      least := ?_ }
  · intro c hc
    obtain ⟨g, hg, hcg⟩ := List.mem_flatMap.1 (hpart.connections.mem_iff.2 hc)
    refine ⟨g, ⟨hg, hcg⟩, ?_⟩
    rintro g' ⟨hg', hcg'⟩
    exact hpart.eq_of_mem_connections hg' hg hcg' hcg
  · intro x hx
    obtain ⟨id, hid⟩ := mem_ofNames_of_mem (n := q.connections.length) ((hxs x).2 hx)
    have hg : ofVertex id x ∈ groups := by
      rw [hgroups]
      exact List.mem_append_right _ hid
    refine ⟨ofVertex id x, ⟨hg, rfl, rfl⟩, ?_⟩
    rintro g' ⟨hg', -, hvars⟩
    have hx' : x ∈ g'.vars := by rw [hvars]; exact List.mem_singleton.2 rfl
    exact eq_of_mem_vars hpart.disjoint hg' hg hx' (List.mem_singleton.2 rfl)
  · intro g hg hnil
    rcases hsplit g hg with hmem | ⟨x, hx, id, rfl⟩
    · exact absurd hnil (connections_ne_nil_of_mem_ofConnections hmem)
    · exact ⟨x, rfl, (hxs x).1 hx⟩
  · intro g hg
    rcases hsplit g hg with hmem | ⟨x, -, id, rfl⟩
    · exact nodup_vars_ofConnections q.connections g hmem
    · exact List.nodup_singleton x
  · intro g hg hne
    exact (connected_mergeAtMost _ (connected_singletons 0 _) g (hconnected g hg hne)).mem_vars
  · intro g hg hne
    refine ⟨hnumbered.led g (hconnected g hg hne), fun i c hc hcg => ?_⟩
    obtain ⟨g', hg', hcg', hle⟩ := hnumbered.covered i c hc
    have hmem : g' ∈ groups := by
      rw [hgroups]
      exact List.mem_append_left _ hg'
    rw [hpart.eq_of_mem_connections hg hmem hcg hcg']
    exact hle

/-- Two connections that only the third one brings together, a connection that is listed twice, and
vertices of which one is isolated and listed twice. -/
theorem partition_gives_classes_of_late_link :
    let conn := fun src edge dst => (⟨⟨src, false⟩, ⟨dst, false⟩, ⟨edge, false⟩⟩ : Connection)
    let q : Query := { Query.empty with
      vertices := [⟨"x", false⟩, ⟨"a", false⟩, ⟨"y", true⟩, ⟨"x", false⟩]
      connections := [conn "a" "e" "b", conn "c" "f" "d", conn "u" "h" "u", conn "b" "g" "c",
        conn "u" "h" "u"] }
    ∃ groups r, partition q .empty = .ok groups r ∧
      groups.map (fun g => (g.id.index, g.connections.length, g.vars)) =
        [(0, 3, ["a", "b", "e", "c", "g", "d", "f"]), (2, 2, ["u", "h"]), (5, 0, ["x"])] ∧
      AreClasses q groups r :=
  ⟨_, _, rfl, rfl, partition_gives_classes rfl⟩

end Component

end GraphPlan
