import GraphPlan.Proofs.Planner.Invariant

/-!
# Links of filters through a run

The links of a filter are computed once, when the pattern is split, and patched whenever a component
takes in another one. `Constraint.LinksCurrent` says that patching is as good as computing them anew
from the components at hand. It holds for every filter that is pending at any point of a run.
-/

namespace GraphPlan

/-- The links of a filter are right: they name components that exist, each once, and exactly those
that hold one of its variables. -/
structure Constraint.LinksCurrent (r : Registry) (groups : List Component) (c : Constraint) :
    Prop where
  nodup : c.linked.Nodup
  exist : ∀ id ∈ c.linked, ∃ g ∈ groups, g.id = id
  mem_iff : ∀ g ∈ groups, g.id ∈ c.linked ↔ ∃ x ∈ (c.expr.needs r).names, x ∈ g.vars
  /-- Computing the links anew gives the same ones. -/
  perm_link : c.linked.Perm (c.link groups).linked

/-- A filter whose bookkeeping is right has the links that it should have. -/
theorem Constraint.Sound.linksCurrent {r : Registry} {groups : List Component} {c : Constraint}
    (h : c.Sound groups) (ha : c.Analyzed r) (hids : (groups.map Component.id).Nodup) :
    c.LinksCurrent r groups where
  nodup := h.nodup
  exist := by
    intro id hid
    obtain ⟨g, hg, hgid, -⟩ := (h.mem_linked id).1 hid
    exact ⟨g, hg, hgid⟩
  mem_iff := by
    intro g hg
    rw [h.mem_linked, ← ha]
    constructor
    · rintro ⟨g', hg', hid, htouch⟩
      have heq : g' = g := List.inj_on_of_nodup_map hids hg' hg hid
      rw [← heq]
      exact touches_iff.1 htouch
    · intro hx
      exact ⟨g, hg, rfl, touches_iff.2 hx⟩
  perm_link := by
    have hlink := h.toFaithful.link hids
    refine (List.perm_ext_iff_of_nodup h.nodup hlink.nodup).2 fun id => ?_
    rw [h.mem_linked, hlink.mem_linked]
    rfl

namespace Point

variable {config : Config} {q : Query} {r : Registry} {a : Point}

/-- The components at a point have different numbers. -/
theorem Good.nodup_ids (h : a.Good config q r) : (a.groups.map Component.id).Nodup := by
  cases h with
  | seeding h => exact h.split.ids
  | checking h | growing h => exact h.split.ids
  | joining h | multiplying h | closing h => exact h.ids
  | filtering => exact List.nodup_singleton _
  | matched | keying | collecting | valuing | sorting | ordered | projected | finished =>
    exact List.nodup_nil

/-- The bookkeeping of the filters at a point is right. -/
theorem Good.sound (h : a.Good config q r) {c : Constraint} (hc : c ∈ a.pending) :
    c.Sound a.groups ∧ c.Analyzed r := by
  cases h with
  | seeding h ht => exact ⟨h.sound c hc, (ht c hc).analyzed⟩
  | checking h _ _ hkept hwaiting =>
    refine ⟨h.sound hc, ?_⟩
    rcases List.mem_append.1 hc with hc | hc
    · exact (hkept c hc).analyzed
    · exact (hwaiting c hc).analyzed
  | growing h ht => exact ⟨h.sound hc, (ht c hc).analyzed⟩
  | joining h ha | multiplying h ha | closing h ha => exact ⟨h.sound c hc, ha c hc⟩
  | filtering h _ ha => exact ⟨h.sound c hc, ha c hc⟩
  | matched | keying | collecting | valuing | sorting | ordered | projected | finished => cases hc

end Point

/-- All the way through planning, the links of every pending filter are those that linking it anew
would give; and once the components are multiplied, it is linked to nothing or to the only one. -/
theorem Query.run_keeps_links_current {config : Config} {q : Query} {s : PlannerState}
    (h : PlannerState.start q = .ok s) :
    Point.Leads config q s.registry (.seeding [] s.groups s.constraints)
        (q.plan config >>= fun p => .ok (.finished p)) ∧
      ∀ a, Point.Visited config q s a →
        (∀ c ∈ a.pending, c.LinksCurrent s.registry a.groups) ∧
        ∀ groups cs, a = .closing groups cs →
          ∃ g, groups = [g] ∧ ∀ c ∈ cs, c.linked = [] ∨ c.linked = [g.id] := by
  refine ⟨Point.leads_plan h, fun a ha => ?_⟩
  have hgood := Point.good_of_visited h ha
  refine ⟨fun c hc => ?_, ?_⟩
  · obtain ⟨hsound, hanalyzed⟩ := hgood.sound hc
    exact hsound.linksCurrent hanalyzed hgood.nodup_ids
  · rintro groups cs rfl
    cases hgood with
    | @closing g _ _ hprogress ha =>
      exact ⟨g, rfl, fun c hc => (hprogress.sound c hc).linked_of_singleton⟩

/-- Three vertices and two filters. The second filter joins two of the vertices, and thereby leaves
the first one, which touched all three of them, with two links. -/
theorem Query.run_keeps_links_current_of_patched_link :
    let prop := fun x => Expr.prop x "size"
    let q : Query := { Query.empty with
      vertices := [⟨"a", false⟩, ⟨"b", false⟩, ⟨"c", false⟩]
      constraints := [.binary (.compare .lt) (prop "a") (.binary .add (prop "b") (prop "c")),
        .binary (.compare .lt) (prop "b") (prop "c")] }
    ∃ s, PlannerState.start q = .ok s ∧
      s.constraints.map Constraint.linked = [[⟨0⟩, ⟨1⟩, ⟨2⟩], [⟨1⟩, ⟨2⟩]] ∧
      ∃ a, Point.Visited Config.default q s a ∧ a.groups.map Component.id = [⟨0⟩, ⟨1⟩] ∧
        a.pending.map Constraint.linked = [[⟨0⟩, ⟨1⟩]] ∧
        ∀ c ∈ a.pending, c.LinksCurrent s.registry a.groups := by
  intro prop q
  obtain ⟨s, hs, hlinks, a, ha, hids, hpending⟩ : ∃ s, PlannerState.start q = .ok s ∧
      s.constraints.map Constraint.linked = [[⟨0⟩, ⟨1⟩, ⟨2⟩], [⟨1⟩, ⟨2⟩]] ∧
      ∃ a, Point.after Config.default q s.registry 17 (.seeding [] s.groups s.constraints) = .ok a ∧
        a.groups.map Component.id = [⟨0⟩, ⟨1⟩] ∧
        a.pending.map Constraint.linked = [[⟨0⟩, ⟨1⟩]] :=
    ⟨_, rfl, rfl, _, rfl, rfl, rfl⟩
  have hvisited : Point.Visited Config.default q s a := Point.steps_of_after ha
  exact ⟨s, hs, hlinks, a, hvisited, hids, hpending, ((run_keeps_links_current hs).2 a hvisited).1⟩

end GraphPlan
