import GraphPlan.Proofs.Pattern.Kinds
import GraphPlan.Query.Builder

/-!
# Edges that are listed as vertices

The vertices of a pattern are the ends of its connections and the vertices that are listed by name.
Splitting a pattern compares edges with the ends of connections only: a listed vertex whose name is
registered is passed over without a look at its kind. So an edge may be listed as a vertex, which a
query under construction may not do, and this is the only way for a name to be both.
-/

namespace GraphPlan

/-- A name is an end of a connection or the name of a listed vertex. -/
def Query.IsVertex (q : Query) (x : String) : Prop :=
  q.Plays x .node ∨ ∃ v ∈ q.vertices, v.anonymous = false ∧ v.name = x

namespace Component

variable {q : Query}

/-- A name that is an edge and an end of a connection is what it takes to be refused for a kind. -/
theorem exists_clashes_iff :
    (∃ x, q.Clashes x) ↔ ∃ x registered requested r,
      partition q .empty = .error (.kindConflict x registered requested) r := by
  have hmeets := meets_partition_of_clash q
  constructor
  · rintro ⟨x, hx⟩
    cases hpartition : partition q .empty with
    | ok groups r =>
      obtain ⟨-, hkinds⟩ := partition_isOk_iff.1 ⟨groups, r, hpartition⟩
      exact (Query.kindsApart_iff.1 hkinds x hx).elim
    | error e r =>
      rw [outcome, hpartition] at hmeets
      rcases hmeets with ⟨y, registered, requested, rfl, -⟩ | ⟨-, hnil, -⟩
      · exact ⟨y, registered, requested, r, rfl⟩
      · obtain ⟨c, hc, -⟩ := hx.2
        rw [hnil] at hc
        cases hc
  · rintro ⟨x, registered, requested, r, hpartition⟩
    rw [outcome, hpartition] at hmeets
    rcases hmeets with ⟨y, -, -, -, hy⟩ | ⟨herror, -⟩
    · exact ⟨y, hy⟩
    · cases herror

/-- A pattern is refused for the kind of a name exactly when an edge is an end of a connection. In a
pattern that is not refused every edge is registered as one, and no name is an edge and a vertex
exactly when no edge is listed as a vertex. -/
theorem partition_separates_kinds_iff (q : Query) :
    ((∃ x, q.Clashes x) ↔ ∃ x registered requested r,
      partition q .empty = .error (.kindConflict x registered requested) r) ∧
    ∀ groups r, partition q .empty = .ok groups r →
      (∀ x, q.Plays x .edge → r.kind? x = some .edge) ∧
      ((∀ x, ¬ (q.Plays x .edge ∧ q.IsVertex x)) ↔
        ∀ v ∈ q.vertices, v.anonymous = false → ¬ q.Plays v.name .edge) := by
  refine ⟨exists_clashes_iff, fun groups r h => ⟨fun x hx => kind?_eq_edge h hx, ?_⟩⟩
  obtain ⟨-, hkinds⟩ := partition_isOk_iff.1 ⟨groups, r, h⟩
  constructor
  · intro hapart v hv hnamed hedge
    exact hapart v.name ⟨hedge, Or.inr ⟨v, hv, hnamed, rfl⟩⟩
  · rintro hlisted x ⟨hedge, hnode | ⟨v, hv, hnamed, rfl⟩⟩
    · exact Query.kindsApart_iff.1 hkinds x ⟨hnode, hedge⟩
    · exact hlisted v hv hnamed hedge

/-- A query under construction that lists an edge as a vertex is refused, but its pattern is
split. -/
theorem partition_accepts_listed_edge :
    let b := Builder.run [.matchVertex (.named "a" none),
      .whereEdge ⟨some "e", none⟩ (.named "b" none), .matchVertex (.named "e" none)]
    b.build = .error (.vertexAndEdge "e") ∧ b.query.Plays "e" .edge ∧ b.query.IsVertex "e" ∧
      ∃ groups r, partition b.query .empty = .ok groups r := by
  intro b
  have hvertex : (⟨"e", false⟩ : PatternVar) ∈ b.query.vertices := by decide
  refine ⟨rfl, ⟨_, List.mem_singleton.2 rfl, rfl⟩, Or.inr ⟨_, hvertex, rfl, rfl⟩, _, _, rfl⟩

end Component

end GraphPlan
