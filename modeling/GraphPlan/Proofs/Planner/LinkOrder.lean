import GraphPlan.Proofs.Planner.Links
import GraphPlan.Proofs.Planner.Trees

/-!
# The order of links

The links of a filter are first listed in the order of the components, and a join takes the plan of
the component that its filter lists first as its left input. When a component is absorbed, a link to
it is overwritten in place by one to the survivor, which may stand in front of components that the
filter lists earlier. So the order is not always kept: a join of `left` and `right` breaks it for
the filters that list `right` and a component between the two, but not `left`. These are the only
ones, and a run keeps all links in order exactly if none of its joins meets such a filter
(`Query.run_keeps_link_order_iff`).
-/

namespace GraphPlan

/-! ## Patching a list -/

section Patching

variable {ids linked before middle after : List GroupId} {a b left right : GroupId}

/-- In a list without repetitions, what comes before an element is what stands in front of it. -/
theorem pair_sublist_iff (h : (before ++ b :: after).Nodup) :
    [a, b].Sublist (before ++ b :: after) ↔ a ∈ before := by
  have hb : b ∉ after := (List.nodup_cons.1 (List.nodup_append.1 h).2.1).1
  constructor
  · intro hpair
    obtain ⟨l, m, hlm, hl, hm⟩ := List.sublist_append_iff.1 hpair
    cases l with
    | nil =>
      rw [List.nil_append] at hlm
      rw [← hlm, List.sublist_cons_iff] at hm
      rcases hm with hm | ⟨r, hr, hm⟩
      · exact absurd (hm.subset (by simp)) hb
      · rw [← (List.cons.inj hr).2] at hm
        exact absurd (hm.subset (by simp)) hb
    | cons c l =>
      cases (List.cons.inj hlm).1
      exact hl.subset List.mem_cons_self
  · intro hmem
    exact (List.singleton_sublist.2 hmem).append (List.singleton_sublist.2 List.mem_cons_self)

theorem exists_between (h : [left, right].Sublist ids) :
    ∃ before middle after, ids = before ++ left :: (middle ++ right :: after) := by
  obtain ⟨front, rest, rfl, hleft, hrest⟩ := List.cons_sublist_iff.1 h
  obtain ⟨before, tail, rfl⟩ := List.append_of_mem hleft
  obtain ⟨middle, after, rfl⟩ := List.append_of_mem (List.singleton_sublist.1 hrest)
  exact ⟨before, tail ++ middle, after, by simp⟩

/-- Two elements of a list without repetitions come in one order only. -/
theorem not_sublist_swap (hids : ids.Nodup) (h : [a, b].Sublist ids) : ¬ [b, a].Sublist ids := by
  obtain ⟨before, middle, after, rfl⟩ := exists_between h
  intro hswap
  have hb : b ∈ before := (pair_sublist_iff hids).1 hswap
  exact (List.nodup_append.1 hids).2.2 b hb b (by simp) rfl

theorem triple_sublist_iff (h : (before ++ left :: (middle ++ right :: after)).Nodup) :
    [left, a, right].Sublist (before ++ left :: (middle ++ right :: after)) ↔ a ∈ middle := by
  constructor
  · intro htriple
    have hfirst : [left, a].Sublist [left, a, right] :=
      (List.nil_sublist [right]).append_left [left, a]
    have hlast : [a, right].Sublist [left, a, right] := List.sublist_cons_self _ _
    have hassoc : before ++ left :: (middle ++ right :: after) =
        (before ++ left :: middle) ++ right :: after := by simp
    have hmem : a ∈ before ++ left :: middle := by
      rw [hassoc] at h htriple
      exact (pair_sublist_iff h).1 (hlast.trans htriple)
    rcases List.mem_append.1 hmem with hbefore | hmem
    · exact absurd (hfirst.trans htriple) (not_sublist_swap h ((pair_sublist_iff h).2 hbefore))
    · rcases List.mem_cons.1 hmem with rfl | hmiddle
      · exact absurd (hfirst.trans htriple) (not_sublist_swap h (hfirst.trans htriple))
      · exact hmiddle
  · intro hmem
    have hpair : [a, right].Sublist (middle ++ right :: after) :=
      (List.singleton_sublist.2 hmem).append (List.singleton_sublist.2 List.mem_cons_self)
    exact (hpair.cons_cons left).trans (List.sublist_append_right _ _)

/-- A link that is overwritten in place stays in order if nothing that the list links to stands
between the component and its survivor. -/
theorem replace_sublist_iff (hids : ids.Nodup) (hlinked : linked.Sublist ids)
    (horder : [left, right].Sublist ids) (hright : right ∈ linked) (hleft : left ∉ linked) :
    (linked.replace right left).Sublist (ids.erase right) ↔
      ∀ id ∈ linked, ¬ [left, id, right].Sublist ids := by
  obtain ⟨before, middle, after, rfl⟩ := exists_between horder
  have hassoc : before ++ left :: (middle ++ right :: after) =
      (before ++ left :: middle) ++ right :: after := by simp
  have hfront : right ∉ before ++ left :: middle := by
    rw [hassoc] at hids
    exact fun h => (List.nodup_append.1 hids).2.2 right h right List.mem_cons_self rfl
  have hafter : right ∉ after := by
    rw [hassoc] at hids
    exact (List.nodup_cons.1 (List.nodup_append.1 hids).2.1).1
  -- the link to `right` divides the list as `right` divides the components
  obtain ⟨front, back, rfl, hf, hb⟩ : ∃ front back, linked = front ++ right :: back ∧
      front.Sublist (before ++ left :: middle) ∧ back.Sublist after := by
    rw [hassoc] at hlinked
    obtain ⟨front, rest, rfl, hf, hrest⟩ := List.sublist_append_iff.1 hlinked
    rcases List.sublist_cons_iff.1 hrest with hrest | ⟨back, rfl, hb⟩
    · rcases List.mem_append.1 hright with h | h
      · exact absurd (hf.subset h) hfront
      · exact absurd (hrest.subset h) hafter
    · exact ⟨front, back, rfl, hf, hb⟩
  have hreplace : (front ++ right :: back).replace right left = front ++ left :: back := by
    rw [List.replace_append_right (fun h => hfront (hf.subset h)), List.replace_cons_self]
  have herase : (before ++ left :: (middle ++ right :: after)).erase right =
      before ++ left :: (middle ++ after) := by
    rw [hassoc, List.erase_append_right _ hfront, List.erase_cons_head]
    simp
  rw [hreplace, herase]
  simp only [triple_sublist_iff hids]
  have hnodup : (before ++ left :: (middle ++ after)).Nodup := herase ▸ hids.erase right
  constructor
  · intro hsub id hid hmiddle
    have hback : id ∉ back := by
      obtain ⟨-, hrest, -⟩ := List.nodup_append.1 hnodup
      obtain ⟨-, -, hapart⟩ := List.nodup_append.1 (List.nodup_cons.1 hrest).2
      exact fun h => hapart id hmiddle id (hb.subset h) rfl
    have hid' : id ∈ front := by
      rcases List.mem_append.1 hid with hid | hid
      · exact hid
      · rcases List.mem_cons.1 hid with rfl | hid
        · exact absurd (by simp [hmiddle]) hfront
        · exact absurd hid hback
    have hpair : [id, left].Sublist (front ++ left :: back) :=
      (List.singleton_sublist.2 hid').append (List.singleton_sublist.2 List.mem_cons_self)
    have hbefore : id ∈ before := (pair_sublist_iff hnodup).1 (hpair.trans hsub)
    exact (List.nodup_append.1 hnodup).2.2 id hbefore id (by simp [hmiddle]) rfl
  · intro hnone
    obtain ⟨first, second, rfl, hfirst, hsecond⟩ := List.sublist_append_iff.1 hf
    -- what comes after `left` would have to be `left` or in the middle
    have hempty : second = [] := by
      refine List.eq_nil_iff_forall_not_mem.2 fun id hid => ?_
      rcases List.mem_cons.1 (hsecond.subset hid) with rfl | hmiddle
      · exact hleft (by simp [hid])
      · exact hnone id (by simp [hid]) hmiddle
    rw [hempty, List.append_nil]
    exact hfirst.append ((hb.trans (List.sublist_append_right _ _)).cons_cons left)

end Patching

/-! ## Joins and the order of links -/

namespace Constraint

/-- The links of a filter are listed in the order of the components. -/
def LinksInOrder (groups : List Component) (c : Constraint) : Prop :=
  c.linked.Sublist (groups.map Component.id)

/-- A join of `left` and `right` moves a link of the filter in front of another one that the filter
lists earlier: the filter is linked to `right` and to a component between the two, but not to
`left`. -/
structure Overtaken (groups : List Component) (left right : GroupId) (c : Constraint) : Prop where
  linked : right ∈ c.linked
  apart : left ∉ c.linked
  between : ∃ id ∈ c.linked, [left, id, right].Sublist (groups.map Component.id)

variable {c : Constraint} {groups groups' : List Component} {left right : GroupId}

/-- A filter that is linked anew has its links in order. -/
theorem linksInOrder_link (c : Constraint) (groups : List Component) :
    (c.link groups).LinksInOrder groups :=
  List.filter_sublist.map _

/-- When `left` takes in `right`, which comes later, the filters that are not overtaken are those
that keep their links in order. -/
theorem linksInOrder_replaceGroup_iff (hids : (groups.map Component.id).Nodup)
    (hgroups : groups'.map Component.id = (groups.map Component.id).erase right)
    (horder : [left, right].Sublist (groups.map Component.id)) (hc : c.LinksInOrder groups) :
    (c.replaceGroup right left).LinksInOrder groups' ↔ ¬ c.Overtaken groups left right := by
  unfold LinksInOrder at hc ⊢
  rw [hgroups]
  show (replaceLink right left c.linked).Sublist _ ↔ _
  by_cases hleft : left ∈ c.linked
  · rw [replaceLink, if_pos (by simpa using hleft)]
    exact iff_of_true (hc.erase right) fun h => h.apart hleft
  · rw [replaceLink, if_neg (by simpa using hleft)]
    by_cases hright : right ∈ c.linked
    · rw [replace_sublist_iff hids hc horder hright hleft]
      constructor
      · rintro hnone ⟨-, -, id, hid, hbetween⟩
        exact hnone id hid hbetween
      · exact fun h id hid hbetween => h ⟨hright, hleft, id, hid, hbetween⟩
    · rw [List.replace_of_not_mem hright]
      refine iff_of_true ?_ fun h => hright h.linked
      rw [← List.erase_of_not_mem hright]
      exact hc.erase right

end Constraint

theorem Component.id_of_takePlan {g : Component} {x : Plan × Component} (h : g.takePlan = .ok x) :
    x.2.id = g.id := by
  unfold takePlan at h
  split at h
  · cases h
    rfl
  · cases h

namespace PlannerState

variable {config : Config} {id left right : GroupId} {c : Constraint} {gs gs' : List Component}

theorem map_id_modifyGroup {f : Component → Except PlanError Component}
    (hf : ∀ g g', f g = .ok g' → g'.id = g.id) (h : modifyGroup id f gs = .ok gs') :
    gs'.map Component.id = gs.map Component.id := by
  induction gs generalizing gs' with
  | nil => cases h
  | cons g gs ih =>
    rw [modifyGroup] at h
    split at h
    · obtain ⟨g', hg', h⟩ := eq_ok_of_bind_eq_ok h
      cases h
      rw [List.map_cons, List.map_cons, hf g g' hg']
    · obtain ⟨rest, hrest, h⟩ := eq_ok_of_bind_eq_ok h
      cases h
      rw [List.map_cons, List.map_cons, ih hrest]

theorem id_of_onPlan {act : PlanM Unit} {g g' : Component} (h : onPlan act g = .ok g') :
    g'.id = g.id := by
  obtain ⟨x, hx, h⟩ := eq_ok_of_bind_eq_ok h
  obtain ⟨y, -, h⟩ := eq_ok_of_bind_eq_ok h
  cases h
  exact Component.id_of_takePlan hx

/-- A join takes one component out of the list. -/
theorem map_id_joinGroups (h : joinGroups config c left right gs = .ok gs') :
    gs'.map Component.id = (gs.map Component.id).erase right := by
  unfold joinGroups at h
  split at h
  · cases h
  · next absorbed u rest hpick =>
    obtain ⟨before, after, rfl, rfl, htest, hbefore⟩ := pick?_eq_some_iff.1 hpick
    obtain ⟨x, -, h⟩ := eq_ok_of_bind_eq_ok h
    have hid : absorbed.id = right := by
      by_contra hne
      simp [hne] at htest
    have hnot : right ∉ before.map Component.id := by
      intro hmem
      obtain ⟨g, hg, hgid⟩ := List.mem_map.1 hmem
      have hnone := hbefore g hg
      simp [hgid] at hnone
    have hsame := map_id_modifyGroup (fun g g' hg => ?_) h
    · rw [hsame, List.map_append, List.map_append, List.map_cons, hid,
        List.erase_append_right _ hnot, List.erase_cons_head]
    · obtain ⟨g'', hg'', hg⟩ := eq_ok_of_bind_eq_ok hg
      cases hg
      show g''.id = g.id
      exact id_of_onPlan hg''

/-- At the start all filters are linked anew. -/
theorem exists_eq_link {q : Query} {s : PlannerState} (h : start q = .ok s)
    (hc : c ∈ s.constraints) : ∃ c' : Constraint, c = c'.link s.groups := by
  unfold start at h
  split at h
  · cases h
  · obtain ⟨cs, -, h⟩ := eq_ok_of_bind_eq_ok h
    cases h
    obtain ⟨c', -, rfl⟩ := List.mem_map.1 hc
    exact ⟨c', rfl⟩

/-- A product keeps the number of the first component and points all links to it. -/
theorem productStep_eq_ok {first other : Component} {cs : List Constraint}
    {x : Component × List Constraint} (h : productStep first other cs = .ok x) :
    x.1.id = first.id ∧ x.2 = cs.map (·.replaceGroup other.id first.id) := by
  obtain ⟨y, hy, h⟩ := eq_ok_of_bind_eq_ok h
  obtain ⟨z, hz, h⟩ := eq_ok_of_bind_eq_ok h
  obtain ⟨w, -, h⟩ := eq_ok_of_bind_eq_ok h
  cases h
  rw [Component.id_of_takePlan hy, Component.id_of_takePlan hz]
  exact ⟨Component.id_of_takePlan hy, rfl⟩

end PlannerState

namespace Point

variable {config : Config} {q : Query} {r : Registry} {a b : Point}

/-- The links of all pending filters are listed in the order of the components. -/
def InOrder (a : Point) : Prop :=
  ∀ c ∈ a.pending, c.LinksInOrder a.groups

/-- Nothing changes if the components stay and no filter gets other links. -/
theorem InOrder.of_kept (h : a.InOrder)
    (hkept : ∀ c ∈ b.pending, b.groups.map Component.id = a.groups.map Component.id ∧
      ∃ c' ∈ a.pending, c.linked = c'.linked) : b.InOrder := by
  intro c hc
  obtain ⟨hids, c', hc', hlinked⟩ := hkept c hc
  unfold Constraint.LinksInOrder
  rw [hids, hlinked]
  exact h c' hc'

theorem inOrder_of_phase (h : 2 ≤ a.phase) : a.InOrder := by
  intro c hc
  cases a with
  | seeding | checking | growing | joining | multiplying | closing | filtering =>
    simp [phase] at h
  | _ => cases hc

/-- Giving components their plans leaves the links alone. -/
theorem InOrder.step_of_phase_zero (h : a.InOrder) (ha : a.phase = 0)
    (hb : a.step config q r = .ok b) : b.InOrder := by
  refine h.of_kept fun c hc => ?_
  cases a with
  | seeding done todo cs =>
    cases todo with
    | nil =>
      cases hb
      exact ⟨by simp [groups], c, hc, rfl⟩
    | cons g todo =>
      obtain ⟨x, hx, hb⟩ := eq_ok_of_atStage_bind_eq_ok hb
      cases hb
      exact ⟨rfl, c, mem_of_seed hx (by simpa [pending] using hc), rfl⟩
  | checking d added kept waiting =>
    cases waiting with
    | nil =>
      cases hb
      exact ⟨rfl, c, by simpa [pending] using hc, rfl⟩
    | cons next waiting =>
      simp only [Point.step] at hb
      split at hb
      · obtain ⟨x, -, hb⟩ := eq_ok_of_atStage_bind_eq_ok hb
        cases hb
        refine ⟨rfl, c, ?_, rfl⟩
        rcases List.mem_append.1 hc with hc | hc
        · exact List.mem_append_left _ hc
        · exact List.mem_append_right _ (.tail _ hc)
      · cases hb
        refine ⟨rfl, ?_⟩
        simp only [pending, List.mem_append, List.mem_singleton] at hc
        rcases hc with (hc | rfl) | hc
        · exact ⟨c, List.mem_append_left _ hc, rfl⟩
        · exact ⟨next, List.mem_append_right _ List.mem_cons_self, rfl⟩
        · exact ⟨c, List.mem_append_right _ (.tail _ hc), rfl⟩
  | growing d cs =>
    obtain ⟨done, g, todo, p, remaining⟩ := d
    cases remaining with
    | nil =>
      cases hb
      exact ⟨by simp [groups, Draft.groups, Component.setPlan], c, hc, rfl⟩
    | cons conn conns =>
      simp only [Point.step] at hb
      split at hb
      · cases hb
      · obtain ⟨x, -, hb⟩ := eq_ok_of_atStage_bind_eq_ok hb
        cases hb
        exact ⟨rfl, c, by simpa [pending] using hc, rfl⟩
  | _ => cases ha

/-- Applying the last filters leaves the links alone. -/
theorem InOrder.step_of_closing {gs : List Component} {cs : List Constraint}
    (h : (closing gs cs).InOrder) (hb : (closing gs cs).step config q r = .ok b) : b.InOrder := by
  refine h.of_kept fun c hc => ?_
  match gs with
  | [] | _ :: _ :: _ => cases hb
  | [g] =>
    obtain ⟨x, hx, hb⟩ := eq_ok_of_atStage_bind_eq_ok hb
    cases hb
    refine ⟨?_, c, hc, rfl⟩
    simp only [groups, List.map_cons, Component.id_of_takePlan hx]

theorem InOrder.step_of_filtering {g : Component} {p : Plan} {cs : List Constraint}
    (h : (filtering g p cs).InOrder) (hb : (filtering g p cs).step config q r = .ok b) :
    b.InOrder := by
  refine h.of_kept fun c hc => ?_
  cases cs with
  | nil =>
    cases hb
    cases hc
  | cons next cs =>
    simp only [Point.step] at hb
    split at hb
    · obtain ⟨x, -, hb⟩ := eq_ok_of_atStage_bind_eq_ok hb
      cases hb
      exact ⟨rfl, c, .tail _ hc, rfl⟩
    · cases hb

end Point

/-! ## Joins of a run -/

/-- A join in the run of planning a query, with what the planner holds before and after it. -/
structure RunJoin (config : Config) (q : Query) (s : PlannerState) where
  /-- The components before the join. -/
  groups : List Component
  /-- The pending filters before the join. -/
  pending : List Constraint
  /-- The filter that is the predicate of the join. -/
  filter : Constraint
  /-- The component that the filter lists first, which takes in the other one. -/
  left : GroupId
  /-- The component that is taken in. -/
  right : GroupId
  /-- The filters that stay pending. -/
  others : List Constraint
  /-- The components after the join. -/
  joined : List Component
  visited : Point.Visited config q s (.joining groups pending)
  picked : pick? PlannerState.links? pending = some (filter, .two left right, others)
  performed : PlannerState.joinGroups config filter left right groups = .ok joined

namespace RunJoin

variable {config : Config} {q : Query} {s : PlannerState}

theorem linked_filter (j : RunJoin config q s) : j.filter.linked = [j.left, j.right] :=
  PlannerState.links?_eq_some (perm_of_pick?_eq_some j.picked).2

theorem filter_mem (j : RunJoin config q s) : j.filter ∈ j.pending :=
  (perm_of_pick?_eq_some j.picked).1.mem_iff.2 List.mem_cons_self

theorem mem_of_others (j : RunJoin config q s) {c : Constraint} (hc : c ∈ j.others) :
    c ∈ j.pending :=
  (perm_of_pick?_eq_some j.picked).1.mem_iff.2 (.tail _ hc)

/-- The filters after the join. -/
def patched (j : RunJoin config q s) : List Constraint :=
  j.others.map (·.replaceGroup j.right j.left)

theorem visited_joined (j : RunJoin config q s) :
    Point.Visited config q s (.joining j.joined j.patched) := by
  refine j.visited.tail ?_
  simp only [Point.step, PlannerState.joinStep, j.picked, j.performed]
  rfl

/-- A join whose filter has its links in order takes in the later component, and it keeps the order
for the filters that it does not overtake. -/
theorem inOrder_iff (h : PlannerState.start q = .ok s) (j : RunJoin config q s)
    (horder : (Point.joining j.groups j.pending).InOrder) :
    (Point.joining j.joined j.patched).InOrder ↔
      ∀ c ∈ j.others, ¬ c.Overtaken j.groups j.left j.right := by
  have hids : (j.groups.map Component.id).Nodup := (Point.good_of_visited h j.visited).nodup_ids
  have hpair : [j.left, j.right].Sublist (j.groups.map Component.id) :=
    j.linked_filter ▸ horder j.filter j.filter_mem
  have hone : ∀ c ∈ j.others, (c.replaceGroup j.right j.left).LinksInOrder j.joined ↔
      ¬ c.Overtaken j.groups j.left j.right := fun c hc =>
    Constraint.linksInOrder_replaceGroup_iff hids (PlannerState.map_id_joinGroups j.performed)
      hpair (horder c (j.mem_of_others hc))
  constructor
  · exact fun hjoined c hc => (hone c hc).1 (hjoined _ (List.mem_map_of_mem hc))
  · intro hnone c hc
    obtain ⟨c', hc', rfl⟩ := List.mem_map.1 hc
    exact (hone c' hc').2 (hnone c' hc')

/-- The component that takes in the other one is the earlier one. -/
def EarlierFirst (j : RunJoin config q s) : Prop :=
  [j.left, j.right].Sublist (j.groups.map Component.id)

/-- The plan of `left` becomes the left input of the join and that of `right` the right one, both
perhaps with further columns, and `right` disappears from the components. -/
def Combines (j : RunJoin config q s) : Prop :=
  (∃ g ∈ j.groups, ∃ g' ∈ j.groups, ∃ merged ∈ j.joined, ∃ p p' x : Plan,
    g.id = j.left ∧ g'.id = j.right ∧ merged.id = j.left ∧
    g.plan = some p ∧ g'.plan = some p' ∧ merged.plan = some x ∧
    ∃ t u u', x.root = .node (.join t config.joinType) [u, u'] ∧ p.root.Over u ∧
      p'.root.Over u') ∧
  j.joined.map Component.id = (j.groups.map Component.id).erase j.right

theorem combines (h : PlannerState.start q = .ok s) (j : RunJoin config q s) : j.Combines := by
  cases Point.good_of_visited h j.visited with
  | joining hprogress _ =>
    obtain ⟨g, g', p, p', x, rest, hg, hg', hperm, hp, hp', hroot, hperm'⟩ :=
      PlannerState.joinGroups_eq_ok (s := ⟨s.registry, j.groups, j.pending⟩) hprogress j.filter_mem
        j.linked_filter j.performed
    refine ⟨⟨g, hperm.mem_iff.2 (by simp), g', hperm.mem_iff.2 (by simp), _,
      hperm'.mem_iff.2 List.mem_cons_self, p, p', x, hg, hg', hg, hp, hp', rfl, hroot⟩, ?_⟩
    exact PlannerState.map_id_joinGroups j.performed

end RunJoin

namespace Point

variable {config : Config} {q : Query} {r : Registry} {s : PlannerState} {a b : Point}

/-- A round of joining keeps the order, if it overtakes no filter. -/
theorem InOrder.step_of_joining (hs : PlannerState.start q = .ok s)
    (hnone : ∀ j : RunJoin config q s, ∀ c ∈ j.others, ¬ c.Overtaken j.groups j.left j.right)
    {gs : List Component} {cs : List Constraint} (hvisited : Visited config q s (joining gs cs))
    (h : (joining gs cs).InOrder) (hb : (joining gs cs).step config q s.registry = .ok b) :
    b.InOrder := by
  obtain ⟨o, ho, hb⟩ := eq_ok_of_atStage_bind_eq_ok hb
  cases o with
  | none =>
    cases hb
    exact h
  | some s' =>
    cases hb
    unfold PlannerState.joinStep at ho
    split at ho
    · cases ho
    · next c target rest hpick =>
      obtain ⟨gs', hgs', ho⟩ := eq_ok_of_bind_eq_ok ho
      cases ho
      obtain ⟨hperm, -⟩ := perm_of_pick?_eq_some hpick
      have hids := PlannerState.map_id_modifyGroup (fun _ _ => PlannerState.id_of_onPlan) hgs'
      exact h.of_kept fun c' hc' => ⟨hids, c', hperm.mem_iff.2 (.tail _ hc'), rfl⟩
    · next c left right others hpick =>
      obtain ⟨gs', hgs', ho⟩ := eq_ok_of_bind_eq_ok ho
      cases ho
      let j : RunJoin config q s := ⟨gs, cs, c, left, right, others, gs', hvisited, hpick, hgs'⟩
      exact (j.inOrder_iff hs h).2 (hnone j)

/-- A product keeps the order: its two components stand next to each other. -/
theorem InOrder.step_of_multiplying {gs : List Component} {cs : List Constraint}
    (hids : (gs.map Component.id).Nodup) (h : (multiplying gs cs).InOrder)
    (hb : (multiplying gs cs).step config q r = .ok b) : b.InOrder := by
  match gs with
  | [] | [_] =>
    cases hb
    exact h
  | first :: other :: rest =>
    obtain ⟨x, hx, hb⟩ := eq_ok_of_atStage_bind_eq_ok hb
    cases hb
    obtain ⟨hid, hcs⟩ := PlannerState.productStep_eq_ok hx
    have hgroups : (x.1 :: rest).map Component.id =
        ((first :: other :: rest).map Component.id).erase other.id := by
      have hne : first.id ≠ other.id := fun heq => (List.nodup_cons.1 hids).1 (by simp [heq])
      rw [List.map_cons, List.map_cons, List.map_cons, hid,
        List.erase_cons_tail (by simpa using hne), List.erase_cons_head]
    have hpair : [first.id, other.id].Sublist ((first :: other :: rest).map Component.id) :=
      (List.nil_sublist _).append_left [first.id, other.id]
    intro c hc
    obtain ⟨c', hc', rfl⟩ := List.mem_map.1 (hcs ▸ hc)
    refine (Constraint.linksInOrder_replaceGroup_iff hids hgroups hpair (h c' hc')).2 ?_
    rintro ⟨-, -, id, -, hbetween⟩
    -- there is nothing between the two
    have hnone : id ∈ ([] : List GroupId) := (@triple_sublist_iff [] [] _ _ _ _ hids).1 hbetween
    cases hnone

/-- The order is kept all the way, if no join overtakes a filter. -/
theorem inOrder_of_visited (hs : PlannerState.start q = .ok s)
    (hnone : ∀ j : RunJoin config q s, ∀ c ∈ j.others, ¬ c.Overtaken j.groups j.left j.right)
    (ha : Visited config q s a) : a.InOrder := by
  induction ha with
  | refl =>
    intro c hc
    obtain ⟨c', rfl⟩ := PlannerState.exists_eq_link hs hc
    exact c'.linksInOrder_link s.groups
  | @tail a b hvisited hstep ih =>
    cases a with
    | seeding | checking | growing => exact ih.step_of_phase_zero rfl hstep
    | joining gs cs => exact ih.step_of_joining hs hnone hvisited hstep
    | multiplying gs cs =>
      exact ih.step_of_multiplying (good_of_visited hs hvisited).nodup_ids hstep
    | closing gs cs => exact ih.step_of_closing hstep
    | filtering g p cs => exact ih.step_of_filtering hstep
    | matched p =>
      cases hstep
      exact inOrder_of_phase (Nat.le_refl 2)
    | _ => exact inOrder_of_phase (phase_le_of_step hstep)

end Point

/-- While components are joined, the links of all pending filters are listed in the order of the
components exactly if no join overtakes a filter. In such a run every join takes in the later
component. In any run a join has the component that its filter lists first as its left input. -/
theorem Query.run_keeps_link_order_iff {config : Config} {q : Query} {s : PlannerState}
    (h : PlannerState.start q = .ok s) :
    ((∀ groups cs, Point.Visited config q s (.joining groups cs) →
        ∀ c ∈ cs, c.LinksInOrder groups) ↔
      ∀ j : RunJoin config q s, ∀ c ∈ j.others, ¬ c.Overtaken j.groups j.left j.right) ∧
    ((∀ j : RunJoin config q s, ∀ c ∈ j.others, ¬ c.Overtaken j.groups j.left j.right) →
      ∀ j : RunJoin config q s, j.EarlierFirst) ∧
    ∀ j : RunJoin config q s, j.Combines := by
  refine ⟨⟨fun horder j => ?_, fun hnone groups cs ha => ?_⟩, fun hnone j => ?_, fun j => ?_⟩
  · have hbefore : (Point.joining j.groups j.pending).InOrder := horder _ _ j.visited
    exact (j.inOrder_iff h hbefore).1 (horder _ _ j.visited_joined)
  · exact Point.inOrder_of_visited h hnone ha
  · have hfilter : j.filter.linked.Sublist (j.groups.map Component.id) :=
      Point.inOrder_of_visited h hnone j.visited j.filter j.filter_mem
    rwa [j.linked_filter] at hfilter
  · exact j.combines h

/-- Three vertices in a row: the first join patches the link of the second filter, which stays in
order. -/
theorem Query.run_keeps_link_order_iff_of_row :
    let q : Query := { Query.empty with
      vertices := [⟨"a", false⟩, ⟨"b", false⟩, ⟨"c", false⟩]
      constraints := [.binary (.compare .lt) (.ref "a") (.ref "b"),
        .binary (.compare .lt) (.ref "b") (.ref "c")] }
    ∃ s, PlannerState.start q = .ok s ∧ ∃ j : RunJoin Config.default q s,
      j.groups.map Component.id = [⟨0⟩, ⟨1⟩, ⟨2⟩] ∧ j.left = ⟨0⟩ ∧ j.right = ⟨1⟩ ∧
      j.others.map Constraint.linked = [[⟨1⟩, ⟨2⟩]] ∧
      j.patched.map Constraint.linked = [[⟨0⟩, ⟨2⟩]] ∧ j.Combines := by
  intro q
  obtain ⟨s, hs, gs, cs, hafter, c, others, joined, hpick, hjoined, hids, hlinks⟩ :
      ∃ s, PlannerState.start q = .ok s ∧ ∃ gs cs,
        Point.after Config.default q s.registry 16 (.seeding [] s.groups s.constraints) =
          .ok (.joining gs cs) ∧
        ∃ c others joined,
          pick? PlannerState.links? cs = some (c, .two ⟨0⟩ ⟨1⟩, others) ∧
          PlannerState.joinGroups Config.default c ⟨0⟩ ⟨1⟩ gs = .ok joined ∧
          gs.map Component.id = [⟨0⟩, ⟨1⟩, ⟨2⟩] ∧ others.map Constraint.linked = [[⟨1⟩, ⟨2⟩]] :=
    ⟨_, rfl, _, _, rfl, _, _, _, rfl, rfl, rfl, rfl⟩
  let j : RunJoin Config.default q s :=
    ⟨gs, cs, c, ⟨0⟩, ⟨1⟩, others, joined, Point.steps_of_after hafter, hpick, hjoined⟩
  have hpatched : j.patched.map Constraint.linked =
      (others.map Constraint.linked).map (Constraint.replaceLink ⟨1⟩ ⟨0⟩) := by
    simp [j, RunJoin.patched, Constraint.replaceGroup]
  refine ⟨s, hs, j, hids, rfl, rfl, hlinks, ?_, (run_keeps_link_order_iff hs).2.2 j⟩
  rw [hpatched, hlinks]
  rfl

/-- With filters between the first and the third and between the second and the third of three
vertices, the first join overtakes the second filter: its links come out of order, and the second
join takes the later component as its left input. -/
theorem Query.run_reverses_links :
    let config : Config := { Config.default with joinType := "Left" }
    let q : Query := { Query.empty with
      vertices := [⟨"a", false⟩, ⟨"b", false⟩, ⟨"c", false⟩]
      constraints := [.binary (.compare .lt) (.ref "a") (.ref "c"),
        .binary (.compare .lt) (.ref "b") (.ref "c")] }
    ∃ s p, PlannerState.start q = .ok s ∧ q.plan config = .ok p ∧
      p.text = "JOIN( GRAPH::SCAN(NODES), JOIN( GRAPH::SCAN(NODES), GRAPH::SCAN(NODES), " ++
        "( %0 ) < ( %1 ), \x7b'type'='Left'\x7d ), ( %0 ) < ( %2 ), \x7b'type'='Left'\x7d )" ∧
      ∃ groups cs, Point.Visited config q s (.joining groups cs) ∧
        groups.map Component.id = [⟨0⟩, ⟨1⟩] ∧ cs.map Constraint.linked = [[⟨1⟩, ⟨0⟩]] ∧
        ∃ c ∈ cs, ¬ c.LinksInOrder groups := by
  intro config q
  obtain ⟨s, hs, p, hp, htext, groups, c, hafter, hids, hlinked⟩ :
      ∃ s, PlannerState.start q = .ok s ∧ ∃ p, q.plan config = .ok p ∧
        p.text = "JOIN( GRAPH::SCAN(NODES), JOIN( GRAPH::SCAN(NODES), GRAPH::SCAN(NODES), " ++
          "( %0 ) < ( %1 ), \x7b'type'='Left'\x7d ), ( %0 ) < ( %2 ), \x7b'type'='Left'\x7d )" ∧
        ∃ groups c,
          Point.after config q s.registry 17 (.seeding [] s.groups s.constraints) =
            .ok (.joining groups [c]) ∧
          groups.map Component.id = [⟨0⟩, ⟨1⟩] ∧ c.linked = [⟨1⟩, ⟨0⟩] :=
    ⟨_, rfl, _, rfl, by decide +kernel, _, _, rfl, rfl, rfl⟩
  refine ⟨s, p, hs, hp, htext, groups, [c], Point.steps_of_after hafter, hids, ?_, c, ?_, ?_⟩
  · rw [List.map_singleton, hlinked]
  · exact List.mem_singleton.2 rfl
  · unfold Constraint.LinksInOrder
    rw [hids, hlinked]
    decide

end GraphPlan
