import GraphPlan.Proofs.Pattern.Classes
import GraphPlan.Proofs.Planner.Acceptance
import GraphPlan.Proofs.Planner.Trees
import Mathlib.Data.Set.Card
import Mathlib.Data.Setoid.Basic

/-!
# Joins come before products

Which components are joined does not depend on the order of the filters. The filters determine the
blocks: the finest way to put components together such that no filter has variables in exactly two
of them. Joining stops there and not earlier, so that there is a product for every block but one,
and a join for every component beyond the first of its block.

While components are joined, `Merged` relates those that are left to those of the pattern: `home`
says where each of them is now. A join only brings together what every settled partition has
together, and when no filter joins any more, the partition by `home` is settled itself.
-/

namespace GraphPlan

variable {config : Config} {q : Query} {r : Registry}

/-! ## Blocks -/

/-- A filter has a variable in a component. -/
def Expr.Touches (e : Expr) (g : Component) : Prop :=
  ∃ x ∈ e.names, x ∈ g.vars

/-- The blocks of a partition of components in which a filter has variables. -/
def Expr.blocks (e : Expr) {all : List Component} (R : Setoid (Fin all.length)) :
    Set (Quotient R) :=
  {b | ∃ i, Quotient.mk R i = b ∧ e.Touches (all.get i)}

/-- No filter of the query has variables in exactly two blocks. -/
def Query.Settles (q : Query) {all : List Component} (R : Setoid (Fin all.length)) : Prop :=
  ∀ e ∈ q.constraints, (e.blocks R).ncard ≠ 2

/-- The finest partition that the filters of the query leave alone. -/
def Query.IsBlocks (q : Query) {all : List Component} (R : Setoid (Fin all.length)) : Prop :=
  IsLeast {R : Setoid (Fin all.length) | q.Settles R} R

theorem Query.settles_perm {q' : Query} {all : List Component} {R : Setoid (Fin all.length)}
    (h : q.constraints.Perm q'.constraints) : q.Settles R ↔ q'.Settles R := by
  unfold Settles
  simp only [h.mem_iff]

/-- The order of the filters makes no difference to the blocks. -/
theorem Query.IsBlocks.unique {q' : Query} {all : List Component} {R R' : Setoid (Fin all.length)}
    (h : q.constraints.Perm q'.constraints) (hR : q.IsBlocks R) (hR' : q'.IsBlocks R') :
    R = R' := by
  have hsets : {R : Setoid (Fin all.length) | q.Settles R} = {R | q'.Settles R} := by
    ext R
    exact settles_perm h
  rw [IsBlocks, hsets] at hR
  exact hR.unique hR'

/-! ## Components that were merged -/

/-- The components `groups` came out of the components `all` by joins, and `home` says in which of
them each of the others is. -/
structure Merged (q : Query) (all groups : List Component) (home : Fin all.length → GroupId) :
    Prop where
  covers : ∀ g ∈ groups, ∃ i, home i = g.id
  lands : ∀ i, ∃ g ∈ groups, g.id = home i
  mem_vars : ∀ g ∈ groups, ∀ x, x ∈ g.vars ↔ ∃ i, home i = g.id ∧ x ∈ (all.get i).vars
  finest : ∀ R : Setoid (Fin all.length), q.Settles R → ∀ i j, home i = home j → R i j

namespace Merged

variable {all groups groups' : List Component} {home : Fin all.length → GroupId} {e : Expr}

/-- At first every component is where it was. -/
theorem start (h : (all.map Component.id).Nodup) :
    Merged q all all fun i => (all.get i).id := by
  have hinj : ∀ i j, (all.get i).id = (all.get j).id → i = j := by
    intro i j hij
    have hget : all.get i = all.get j :=
      List.inj_on_of_nodup_map h (List.get_mem _ _) (List.get_mem _ _) hij
    exact (List.nodup_iff_injective_get.1 (List.Nodup.of_map _ h)) hget
  refine ⟨?_, ?_, ?_, ?_⟩
  · intro g hg
    obtain ⟨i, rfl⟩ := List.mem_iff_get.1 hg
    exact ⟨i, rfl⟩
  · intro i
    exact ⟨all.get i, List.get_mem _ _, rfl⟩
  · intro g hg x
    obtain ⟨i, rfl⟩ := List.mem_iff_get.1 hg
    constructor
    · intro hx
      exact ⟨i, rfl, hx⟩
    · rintro ⟨j, hj, hx⟩
      rwa [hinj j i hj] at hx
  · intro R _ i j hij
    exact hinj i j hij ▸ R.refl' i

/-- Only the numbers and the variables of the components matter. -/
theorem congr (h : Merged q all groups home)
    (hgroups : ∀ id vars, (∃ g ∈ groups, g.id = id ∧ g.vars = vars) ↔
      ∃ g ∈ groups', g.id = id ∧ g.vars = vars) : Merged q all groups' home where
  covers := by
    intro g' hg'
    obtain ⟨g, hg, hid, -⟩ := (hgroups g'.id g'.vars).2 ⟨g', hg', rfl, rfl⟩
    rw [← hid]
    exact h.covers g hg
  lands := by
    intro i
    obtain ⟨g, hg, hid⟩ := h.lands i
    obtain ⟨g', hg', hid', -⟩ := (hgroups g.id g.vars).1 ⟨g, hg, rfl, rfl⟩
    exact ⟨g', hg', hid'.trans hid⟩
  mem_vars := by
    intro g' hg' x
    obtain ⟨g, hg, hid, hvars⟩ := (hgroups g'.id g'.vars).2 ⟨g', hg', rfl, rfl⟩
    rw [← hid, ← hvars]
    exact h.mem_vars g hg x
  finest := h.finest

/-- A filter has a variable in a component if it has one in a component that was merged into it. -/
theorem touches_iff (h : Merged q all groups home) {g : Component} (hg : g ∈ groups) :
    e.Touches g ↔ ∃ i, home i = g.id ∧ e.Touches (all.get i) := by
  unfold Expr.Touches
  constructor
  · rintro ⟨x, hx, hxg⟩
    obtain ⟨i, hi, hxi⟩ := (h.mem_vars g hg x).1 hxg
    exact ⟨i, hi, x, hx, hxi⟩
  · rintro ⟨i, hi, x, hx, hxi⟩
    exact ⟨x, hx, (h.mem_vars g hg x).2 ⟨i, hi, hxi⟩⟩

/-- What a settled partition has together with one component, if a filter has variables in it and in
another one only. -/
theorem rel_of_touches (h : Merged q all groups home) {left right : Component}
    (hleft : left ∈ groups) (hright : right ∈ groups) (he : e ∈ q.constraints)
    (htouch : ∀ g ∈ groups, e.Touches g ↔ g.id = left.id ∨ g.id = right.id)
    {R : Setoid (Fin all.length)} (hR : q.Settles R) {i j : Fin all.length}
    (hi : home i = left.id) (hj : home j = right.id) : R i j := by
  obtain ⟨i₀, hi₀, hti⟩ := (h.touches_iff hleft).1 ((htouch left hleft).2 (Or.inl rfl))
  obtain ⟨j₀, hj₀, htj⟩ := (h.touches_iff hright).1 ((htouch right hright).2 (Or.inr rfl))
  have hii₀ : R i i₀ := h.finest R hR i i₀ (hi.trans hi₀.symm)
  have hjj₀ : R j j₀ := h.finest R hR j j₀ (hj.trans hj₀.symm)
  have hrel : R i₀ j₀ := by
    by_contra hne
    -- otherwise the filter had variables in exactly these two blocks
    refine hR e he ?_
    have hblocks : e.blocks R = {Quotient.mk R i₀, Quotient.mk R j₀} := by
      ext b
      constructor
      · rintro ⟨k, rfl, hk⟩
        obtain ⟨g, hg, hgk⟩ := h.lands k
        rcases (htouch g hg).1 ((h.touches_iff hg).2 ⟨k, hgk.symm, hk⟩) with hid | hid
        · exact Or.inl (Quotient.sound (h.finest R hR k i₀ (by rw [← hgk, hid, hi₀])))
        · exact Or.inr (Quotient.sound (h.finest R hR k j₀ (by rw [← hgk, hid, hj₀])))
      · rintro (rfl | rfl)
        · exact ⟨i₀, rfl, hti⟩
        · exact ⟨j₀, rfl, htj⟩
    rw [hblocks]
    refine Set.ncard_pair ?_
    intro heq
    exact hne (Quotient.exact heq)
  exact R.trans' hii₀ (R.trans' hrel (R.symm' hjj₀))

/-- A filter with variables in two components joins them. -/
theorem join (h : Merged q all groups home) (hids : (groups.map Component.id).Nodup)
    {left right merged : Component} {rest : List Component}
    (hgroups : groups.Perm (left :: right :: rest)) (hid : merged.id = left.id)
    (hvars : ∀ x, x ∈ merged.vars ↔ x ∈ left.vars ∨ x ∈ right.vars)
    (hgroups' : groups'.Perm (merged :: rest)) (he : e ∈ q.constraints)
    (htouch : ∀ g ∈ groups, e.Touches g ↔ g.id = left.id ∨ g.id = right.id) :
    Merged q all groups' fun i => if home i = right.id then left.id else home i := by
  have hleft : left ∈ groups := hgroups.mem_iff.2 List.mem_cons_self
  have hright : right ∈ groups := hgroups.mem_iff.2 (.tail _ List.mem_cons_self)
  have hrest : ∀ g ∈ rest, g ∈ groups := by
    intro g hg
    exact hgroups.mem_iff.2 (.tail _ (.tail _ hg))
  have hnodup : ((left :: right :: rest).map Component.id).Nodup :=
    (hgroups.map Component.id).nodup_iff.1 hids
  simp only [List.map_cons, List.nodup_cons, List.mem_cons, List.mem_map, not_or, not_exists,
    not_and] at hnodup
  obtain ⟨⟨hne, hneLeft⟩, hneRight, -⟩ := hnodup
  have hhome : ∀ i, (if home i = right.id then left.id else home i) = left.id ↔
      home i = left.id ∨ home i = right.id := by
    intro i
    by_cases hi : home i = right.id
    · simp [hi]
    · simp [hi]
  have hother : ∀ g ∈ rest, ∀ i, (if home i = right.id then left.id else home i) = g.id ↔
      home i = g.id := by
    intro g hg i
    by_cases hi : home i = right.id
    · rw [if_pos hi, hi]
      constructor
      · intro heq
        exact absurd heq.symm (hneLeft g hg)
      · intro heq
        exact absurd heq.symm (hneRight g hg)
    · rw [if_neg hi]
  refine ⟨?_, ?_, ?_, ?_⟩
  · intro g hg
    rcases List.mem_cons.1 (hgroups'.mem_iff.1 hg) with rfl | hg
    · obtain ⟨i, hi⟩ := h.covers left hleft
      exact ⟨i, by rw [hid]; exact (hhome i).2 (Or.inl hi)⟩
    · obtain ⟨i, hi⟩ := h.covers g (hrest g hg)
      exact ⟨i, (hother g hg i).2 hi⟩
  · intro i
    obtain ⟨g, hg, hgi⟩ := h.lands i
    rcases List.mem_cons.1 (hgroups.mem_iff.1 hg) with rfl | hg
    · refine ⟨merged, hgroups'.mem_iff.2 List.mem_cons_self, ?_⟩
      rw [hid]
      exact ((hhome i).2 (Or.inl hgi.symm)).symm
    · rcases List.mem_cons.1 hg with rfl | hg
      · refine ⟨merged, hgroups'.mem_iff.2 List.mem_cons_self, ?_⟩
        rw [hid]
        exact ((hhome i).2 (Or.inr hgi.symm)).symm
      · exact ⟨g, hgroups'.mem_iff.2 (.tail _ hg), ((hother g hg i).2 hgi.symm).symm⟩
  · intro g hg x
    rcases List.mem_cons.1 (hgroups'.mem_iff.1 hg) with rfl | hg
    · rw [hvars, h.mem_vars left hleft, h.mem_vars right hright, hid]
      simp only [hhome, or_and_right, exists_or]
    · rw [h.mem_vars g (hrest g hg)]
      simp only [hother g hg]
  · intro R hR i j hij
    have hcross : ∀ i j, home i = left.id → home j = right.id → R i j := by
      intro i j hi hj
      exact h.rel_of_touches hleft hright he htouch hR hi hj
    by_cases hi : home i = right.id
    · by_cases hj : home j = right.id
      · exact h.finest R hR i j (hi.trans hj.symm)
      · rw [if_pos hi, if_neg hj] at hij
        exact R.symm' (hcross j i hij.symm hi)
    · by_cases hj : home j = right.id
      · rw [if_neg hi, if_pos hj] at hij
        exact hcross i j hij hj
      · rw [if_neg hi, if_neg hj] at hij
        exact h.finest R hR i j hij

/-- There are as many blocks as components that are left. -/
theorem card_quotient (h : Merged q all groups home) (hids : (groups.map Component.id).Nodup) :
    Nat.card (Quotient (Setoid.ker home)) = groups.length := by
  have hrange : Set.range home = ↑(groups.map Component.id).toFinset := by
    ext id
    rw [Finset.mem_coe, List.mem_toFinset, List.mem_map]
    constructor
    · rintro ⟨i, rfl⟩
      exact h.lands i
    · rintro ⟨g, hg, rfl⟩
      exact h.covers g hg
  rw [Nat.card_congr (Setoid.quotientKerEquivRange home), Nat.card_coe_set_eq, hrange,
    Set.ncard_coe_finset, List.toFinset_card_of_nodup hids, List.length_map]

end Merged

/-! ## Filters and components -/

/-- The links of a pending filter are the components in which it has variables. -/
theorem Constraint.Applicable.mem_linked_iff {c : Constraint} {groups : List Component}
    (h : c.Applicable r) (hc : c.Sound groups) (hids : (groups.map Component.id).Nodup)
    {g : Component} (hg : g ∈ groups) : g.id ∈ c.linked ↔ c.expr.Touches g := by
  have htouches : c.touches g = true ↔ c.expr.Touches g := by
    rw [Constraint.touches_iff]
    simp only [h.mem_vars_iff]
    rfl
  rw [hc.mem_linked, ← htouches]
  constructor
  · rintro ⟨g', hg', hid, htouch⟩
    rwa [List.inj_on_of_nodup_map hids hg' hg hid] at htouch
  · intro htouch
    exact ⟨g, hg, rfl, htouch⟩

/-- When no filter joins components any more, the partition is settled. -/
theorem Merged.settles {all groups : List Component} {home : Fin all.length → GroupId}
    {cs : List Constraint} {n : Nat} (h : Merged q all groups home)
    (hp : Progress config q r n groups cs) (happ : ∀ c ∈ cs, c.Applicable r)
    (hnone : pick? PlannerState.links? cs = none) : q.Settles (Setoid.ker home) := by
  intro e he htwo
  obtain ⟨b, b', hne, hblocks⟩ := Set.ncard_eq_two.1 htwo
  obtain ⟨i, rfl, hi⟩ : b ∈ e.blocks (Setoid.ker home) := by simp [hblocks]
  obtain ⟨j, rfl, hj⟩ : b' ∈ e.blocks (Setoid.ker home) := by simp [hblocks]
  have hij : home i ≠ home j := fun heq => hne (Quotient.sound heq)
  obtain ⟨g, hg, hgi⟩ := h.lands i
  obtain ⟨g', hg', hgj⟩ := h.lands j
  have htouch : ∀ k ∈ groups, e.Touches k ↔ k.id = g.id ∨ k.id = g'.id := by
    intro k hk
    rw [h.touches_iff hk]
    constructor
    · rintro ⟨l, hl, hlk⟩
      have hmem : Quotient.mk (Setoid.ker home) l ∈ e.blocks (Setoid.ker home) := ⟨l, rfl, hlk⟩
      rw [hblocks] at hmem
      rcases hmem with hmem | hmem
      · have heq : home l = home i := Quotient.exact hmem
        exact Or.inl (by rw [← hl, heq, hgi])
      · have heq : home l = home j := Quotient.exact hmem
        exact Or.inr (by rw [← hl, heq, hgj])
    · rintro (hid | hid)
      · exact ⟨i, by rw [hid, hgi], hi⟩
      · exact ⟨j, by rw [hid, hgj], hj⟩
  have hid : g.id ≠ g'.id := by rwa [hgi, hgj]
  obtain ⟨used, hplanned, hused⟩ := hp.filters
  rcases List.mem_append.1 (hused.mem_iff.2 he) with he | he
  · -- the filter is in a plan, so that it has all its variables in one component
    obtain ⟨k, hk, hnames⟩ := hplanned.exists_of_mem he
    obtain ⟨x, hx, hxg⟩ := (htouch g hg).2 (Or.inl rfl)
    obtain ⟨y, hy, hyg'⟩ := (htouch g' hg').2 (Or.inr rfl)
    have hgk := Component.eq_of_mem_vars hp.disjoint hg hk hxg (hnames x hx)
    have hgk' := Component.eq_of_mem_vars hp.disjoint hg' hk hyg' (hnames y hy)
    exact hid (by rw [hgk, hgk'])
  · -- the filter is left with two links, and joins the two components
    obtain ⟨c, hc, rfl⟩ := List.mem_map.1 he
    have hsound := hp.sound c hc
    have hlinked : c.linked.Perm [g.id, g'.id] := by
      refine (List.perm_ext_iff_of_nodup hsound.nodup (by simpa using hid)).2 ?_
      intro id
      rw [List.mem_cons, List.mem_singleton]
      constructor
      · intro hmem
        obtain ⟨k, hk, rfl, -⟩ := (hsound.mem_linked id).1 hmem
        exact (htouch k hk).1 (((happ c hc).mem_linked_iff hsound hp.ids hk).1 hmem)
      · rintro (rfl | rfl)
        · exact ((happ c hc).mem_linked_iff hsound hp.ids hg).2 ((htouch g hg).2 (Or.inl rfl))
        · exact ((happ c hc).mem_linked_iff hsound hp.ids hg').2 ((htouch g' hg').2 (Or.inr rfl))
    obtain ⟨left, right, heq⟩ := List.length_eq_two.1 hlinked.length_eq
    have hlinks := pick?_eq_none_iff.1 hnone c hc
    rw [PlannerState.links?, heq] at hlinks
    cases hlinks

/-! ## Joins and products in a plan -/

open PlanNode (products)

/-- The components that have plans, and their trees. -/
theorem PlannedAll.length_roots {groups : List Component} {used : List Expr} {n : Nat}
    (h : PlannedAll config r groups used n) :
    (Component.roots groups).length = groups.length ∧
      groups.length + products (Component.roots groups) ≤ n := by
  induction h with
  | nil => exact ⟨rfl, Nat.le_refl _⟩
  | cons hg _ ih =>
    obtain ⟨p, hplan, hp, -⟩ := hg
    have hcount := hp.count_combinations
    rw [Component.roots_cons hplan]
    rw [List.length_cons, List.length_cons, PlanNode.products_cons]
    omega

/-! ## Along a run -/

namespace Point

variable {a b : Point} {all : List Component}

/-- The trees that are left and the products in them make up the blocks. -/
def Multiplied (q : Query) (all : List Component) (ts : List PlanNode) : Prop :=
  ∃ R : Setoid (Fin all.length), q.IsBlocks R ∧ ts.length + products ts = Nat.card (Quotient R)

/-- What is known about the blocks at a point: up to the last join the components come from those of
the pattern, and from then on the trees are counted. -/
def Blocked (q : Query) (all : List Component) : Point → Prop
  | seeding done todo _ => ∃ home, Merged q all (done ++ todo) home
  | checking d _ _ _ => ∃ home, Merged q all d.groups home
  | growing d _ => ∃ home, Merged q all d.groups home
  | joining groups _ =>
    (∃ home, Merged q all groups home) ∧ products (Component.roots groups) = 0
  | multiplying groups _ => Multiplied q all (Component.roots groups)
  | closing groups _ => Multiplied q all (Component.roots groups)
  | filtering _ p _ => Multiplied q all [p.root]
  | matched p => Multiplied q all [p.root]
  | _ => True

theorem blocked_seeding {done todo : List Component} {cs : List Constraint}
    (hgood : Seeding config q r done todo cs) (h : (seeding done todo cs).Blocked q all)
    (hb : (seeding done todo cs).step config q r = .ok b) : b.Blocked q all := by
  cases todo with
  | nil =>
    cases hb
    obtain ⟨home, hmerged⟩ := h
    rw [List.append_nil] at hmerged
    -- there are as many scans as components, so that nothing was combined yet
    obtain ⟨used, hplanned, -⟩ := hgood.planned
    obtain ⟨-, hcount⟩ := hplanned.length_roots
    exact ⟨⟨home, hmerged⟩, by omega⟩
  | cons g todo =>
    obtain ⟨x, -, hb⟩ := eq_ok_of_atStage_bind_eq_ok hb
    cases hb
    exact h

theorem blocked_checking {d : Draft} {added : List String} {kept waiting : List Constraint}
    (h : (checking d added kept waiting).Blocked q all)
    (hb : (checking d added kept waiting).step config q r = .ok b) : b.Blocked q all := by
  cases waiting with
  | nil =>
    cases hb
    exact h
  | cons c waiting =>
    simp only [Point.step] at hb
    split at hb
    · obtain ⟨x, -, hb⟩ := eq_ok_of_atStage_bind_eq_ok hb
      cases hb
      exact h
    · cases hb
      exact h

theorem blocked_growing {d : Draft} {cs : List Constraint} (h : (growing d cs).Blocked q all)
    (hb : (growing d cs).step config q r = .ok b) : b.Blocked q all := by
  obtain ⟨done, g, todo, p, remaining⟩ := d
  cases remaining with
  | nil =>
    cases hb
    obtain ⟨home, hmerged⟩ := h
    refine ⟨home, hmerged.congr ?_⟩
    intro id vars
    rw [List.append_assoc, List.singleton_append, Component.exists_mem_setPlan Iff.rfl]
    rfl
  | cons conn conns =>
    simp only [Point.step] at hb
    split at hb
    · cases hb
    · obtain ⟨x, -, hb⟩ := eq_ok_of_atStage_bind_eq_ok hb
      cases hb
      exact h

/-- A round of joining merges two components or none. -/
theorem exists_merged_joinStep {groups : List Component} {cs : List Constraint} {n : Nat}
    {s : PlannerState} {home : Fin all.length → GroupId} (h : Merged q all groups home)
    (hp : Progress config q r n groups cs) (happ : ∀ c ∈ cs, c.Applicable r)
    (hs : PlannerState.joinStep config ⟨r, groups, cs⟩ = .ok (some s)) :
    ∃ home', Merged q all s.groups home' := by
  rcases PlannerState.joinStep_cases (s := ⟨r, groups, cs⟩) hp hs with
    ⟨g, p, x, rest, hgroups, -, -, hgroups'⟩ |
    ⟨c, hc, left, right, p, p', x, rest, hlinked, hgroups, -, -, -, hgroups'⟩
  · refine ⟨home, h.congr ?_⟩
    intro id vars
    simp only [hgroups.mem_iff, hgroups'.mem_iff, List.mem_cons, exists_eq_or_imp]
    rfl
  · have htouch : ∀ g ∈ groups, c.expr.Touches g ↔ g.id = left.id ∨ g.id = right.id := by
      intro g hg
      rw [← (happ c hc).mem_linked_iff (hp.sound c hc) hp.ids hg, hlinked, List.mem_cons,
        List.mem_singleton]
    have hid : ((left.setPlan x).absorb { right with plan := none }).id = left.id := rfl
    refine ⟨_, h.join hp.ids hgroups hid ?_ hgroups' (hp.expr_mem hc) htouch⟩
    intro y
    exact Component.mem_vars_absorb

theorem blocked_joining {groups : List Component} {cs : List Constraint} {n : Nat}
    (hp : Progress config q r n groups cs) (happ : ∀ c ∈ cs, c.Applicable r)
    (h : (joining groups cs).Blocked q all)
    (hb : (joining groups cs).step config q r = .ok b) : b.Blocked q all := by
  obtain ⟨⟨home, hmerged⟩, hzero⟩ := h
  obtain ⟨o, ho, hb⟩ := eq_ok_of_atStage_bind_eq_ok hb
  cases o with
  | none =>
    cases hb
    have hnone : pick? PlannerState.links? cs = none := by
      unfold PlannerState.joinStep at ho
      split at ho
      · next hpick => exact hpick
      · obtain ⟨_, -, ho⟩ := eq_ok_of_bind_eq_ok ho
        cases ho
      · obtain ⟨_, -, ho⟩ := eq_ok_of_bind_eq_ok ho
        cases ho
    refine ⟨Setoid.ker home, ⟨hmerged.settles hp happ hnone, ?_⟩, ?_⟩
    · intro R hR i j hij
      exact hmerged.finest R hR i j hij
    · obtain ⟨used, hplanned, -⟩ := hp.filters
      rw [hmerged.card_quotient hp.ids, hzero, hplanned.length_roots.1, Nat.add_zero]
  | some s =>
    cases hb
    refine ⟨exists_merged_joinStep hmerged hp happ ho, ?_⟩
    rcases roots_joinStep (s := ⟨r, groups, cs⟩) hp ho with hgrown | ⟨t, hcombined⟩
    · rw [hgrown.products_eq]
      exact hzero
    · rw [hcombined.products_eq, hzero]
      rfl

theorem blocked_multiplying {groups : List Component} {cs : List Constraint} {n : Nat}
    (hp : Progress config q r n groups cs) (h : (multiplying groups cs).Blocked q all)
    (hb : (multiplying groups cs).step config q r = .ok b) : b.Blocked q all := by
  match groups with
  | [] => exact absurd rfl hp.nonempty
  | [g] =>
    cases hb
    exact h
  | first :: other :: rest =>
    obtain ⟨x, hx, hb⟩ := eq_ok_of_atStage_bind_eq_ok hb
    cases hb
    obtain ⟨R, hR, hcard⟩ := h
    have hcombined := roots_productStep hp hx
    have hlength := hcombined.length_eq
    have hproducts : products _ = 1 + products _ := hcombined.products_eq
    exact ⟨R, hR, by omega⟩

theorem blocked_of_phase (h : 2 ≤ a.phase) : a.Blocked q all := by
  cases a with
  | seeding | checking | growing | joining | multiplying | closing | filtering | matched =>
    simp [phase] at h
  | _ => trivial

/-- One step keeps what is known about the blocks. -/
theorem Blocked.step (hq : q.Acceptable) (hr : ∀ x, r.contains x = true ↔ q.HasName x)
    (hgood : a.Good config q r) (h : a.Blocked q all) (hb : a.step config q r = .ok b) :
    b.Blocked q all := by
  cases hgood with
  | seeding hgood => exact blocked_seeding hgood h hb
  | checking => exact blocked_checking h hb
  | growing => exact blocked_growing h hb
  | joining hp ha =>
    refine blocked_joining hp ?_ h hb
    intro c hc
    exact hq.applicable hr (ha c hc) (hp.expr_mem hc)
  | multiplying hp => exact blocked_multiplying hp h hb
  | @closing g cs n hp =>
    obtain ⟨x, hx, hb⟩ := eq_ok_of_atStage_bind_eq_ok hb
    cases hb
    obtain ⟨_, _, p, hplan, -⟩ := hp.planned (g := g) (by simp)
    rw [Component.takePlan, hplan] at hx
    cases hx
    have hroots : Component.roots [g] = [p.root] := Component.roots_cons hplan
    show Multiplied q all [p.root]
    rw [← hroots]
    exact h
  | @filtering g p cs n hp =>
    cases cs with
    | nil =>
      cases hb
      exact h
    | cons c cs =>
      simp only [Point.step] at hb
      split at hb
      · obtain ⟨x, hx, hb⟩ := eq_ok_of_atStage_bind_eq_ok hb
        cases hb
        obtain ⟨R, hR, hcard⟩ := h
        have hgrown : PlanNode.Grown [p.root] [x.2.root] :=
          .one (.refl _) (Constraint.over_apply hx) (.refl _)
        exact ⟨R, hR, by rw [hgrown.products_eq, hgrown.length_eq, hcard]⟩
      · cases hb
  | matched =>
    cases hb
    trivial
  | keying | collecting | valuing | sorting | ordered | projected | finished =>
    exact blocked_of_phase (phase_le_of_step hb)

/-- What is known about the blocks holds wherever a run comes. -/
theorem blocked_of_visited {s : PlannerState} (hq : q.Acceptable)
    (hs : PlannerState.start q = .ok s) (hr : ∀ x, s.registry.contains x = true ↔ q.HasName x)
    (ha : Visited config q s a) : a.Blocked q s.groups := by
  induction ha with
  | refl =>
    have hseeding : Seeding config q s.registry [] s.groups s.constraints :=
      PlannerState.seeding_start hs
    exact ⟨_, .start hseeding.split.ids⟩
  | tail hvisited hstep ih => exact ih.step hq hr (good_of_visited hs hvisited) hstep

end Point

/-! ## Queries -/

namespace Query

/-- The joins and products in the plan of an acceptable pattern. -/
theorem Acceptable.exists_blocks (hq : q.Acceptable) {p : Plan} {groups : List Component}
    (hpart : Component.partition q .empty = .ok groups r) (h : q.matchPlan config = .ok p) :
    ∃ R : Setoid (Fin groups.length), q.IsBlocks R ∧
      p.root.count Operator.isProduct + 1 = Nat.card (Quotient R) ∧
      p.root.count Operator.isJoin + Nat.card (Quotient R) = groups.length := by
  obtain ⟨s, hs, hr⟩ := PlannerState.exists_start hq
  have hgroups : s.groups = groups := by
    have hstart := eq_ok_of_outcome_eq_ok ((PlannerState.meets_start q).result hs).outcome_eq
    rw [hpart] at hstart
    cases hstart
    rfl
  obtain ⟨R, hR, hcard⟩ := Point.blocked_of_visited hq hs hr (Point.visited_of_matchPlan hs h)
  obtain ⟨groups', r', hp⟩ := (meets_matchPlan config q).result h
  have hgroups' : groups' = groups := by
    have hsplit := eq_ok_of_outcome_eq_ok hp.outcome_eq
    rw [hpart] at hsplit
    cases hsplit
    rfl
  have hcount := hp.derivation.count_combinations
  rw [hgroups'] at hcount
  subst hgroups
  have hproducts : PlanNode.products [p.root] = p.root.count Operator.isProduct :=
    PlanNode.products_cons p.root []
  rw [List.length_singleton, hproducts] at hcard
  exact ⟨R, hR, by omega, by omega⟩

/-- The pattern of an acceptable query has a plan. -/
theorem Acceptable.exists_matchPlan (hq : q.Acceptable) (config : Config) :
    ∃ p, q.matchPlan config = .ok p := by
  have hmatches : Acceptable { q with groupBy := [], projection := [], orderBy := [] } :=
    ⟨hq.pattern, hq.kinds, hq.supported, hq.bound⟩
  obtain ⟨p, hp⟩ := hmatches.exists_plan config rfl rfl rfl
  obtain ⟨p₀, hp₀, -⟩ := eq_ok_of_bind_eq_ok hp
  exact ⟨p₀, hp₀⟩

/-- What is put on top of the plan of a pattern has no joins and products. -/
theorem count_of_finish {p p' : Plan} (h : q.matchPlan config = .ok p)
    (h' : Plan.finish config q p = .ok p') :
    p'.root.count Operator.isJoin = p.root.count Operator.isJoin ∧
      p'.root.count Operator.isProduct = p.root.count Operator.isProduct := by
  obtain ⟨groups, r, hp⟩ := (meets_matchPlan config q).result h
  obtain ⟨f, rfl⟩ := (Plan.meets_finish q hp.derivation.ofPattern.valid).result h'
  exact ⟨f.count_eq fun _ => Operator.isJoin_of_isMatching,
    f.count_eq fun _ => Operator.isProduct_of_isMatching⟩

/-- A plan multiplies blocks and joins what is in them: it has a product for every block but one,
and a join for every component beyond the first of its block. In whatever order the filters are
listed, the pattern has a plan, and every plan has the same numbers of joins and products. -/
theorem plan_multiplies_blocks {config : Config} {q : Query} {p : Plan}
    (h : q.plan config = .ok p) :
    ∃ groups r, Component.partition q .empty = .ok groups r ∧
      ∃ R : Setoid (Fin groups.length), q.IsBlocks R ∧
        p.root.count Operator.isProduct = Nat.card (Quotient R) - 1 ∧
        p.root.count Operator.isJoin = groups.length - Nat.card (Quotient R) ∧
        1 ≤ Nat.card (Quotient R) ∧ Nat.card (Quotient R) ≤ groups.length ∧
        ∀ es, q.constraints.Perm es →
          (∃ p', matchPlan config { q with constraints := es } = .ok p') ∧
          ∀ p', matchPlan config { q with constraints := es } = .ok p' ∨
              plan config { q with constraints := es } = .ok p' →
            p'.root.count Operator.isProduct = p.root.count Operator.isProduct ∧
              p'.root.count Operator.isJoin = p.root.count Operator.isJoin := by
  have hq := acceptable_of_plan h
  obtain ⟨p₀, hp₀, hfinish⟩ := eq_ok_of_bind_eq_ok h
  obtain ⟨hjoins, hproducts⟩ := count_of_finish hp₀ hfinish
  obtain ⟨groups, r, hpart⟩ := Component.partition_isOk_iff.2 ⟨hq.pattern, hq.kinds⟩
  obtain ⟨R, hR, hcard, hrest⟩ := hq.exists_blocks hpart hp₀
  refine ⟨groups, r, hpart, R, hR, by omega, by omega, by omega, by omega, ?_⟩
  intro es hes
  have hq' : Acceptable { q with constraints := es } := hq.perm (.refl _) (.refl _) hes
  refine ⟨hq'.exists_matchPlan config, ?_⟩
  have hmatch : ∀ p', matchPlan config { q with constraints := es } = .ok p' →
      p'.root.count Operator.isProduct = p.root.count Operator.isProduct ∧
        p'.root.count Operator.isJoin = p.root.count Operator.isJoin := by
    intro p' hp'
    obtain ⟨R', hR', hcard', hrest'⟩ := hq'.exists_blocks hpart hp'
    have hsame : R = R' := hR.unique hes hR'
    subst hsame
    exact ⟨by omega, by omega⟩
  rintro p' (hp' | hp')
  · exact hmatch p' hp'
  · obtain ⟨p₁, hp₁, hfinish'⟩ := eq_ok_of_bind_eq_ok hp'
    obtain ⟨hjoins', hproducts'⟩ := count_of_finish hp₁ hfinish'
    rw [hjoins', hproducts']
    exact hmatch p₁ hp₁

/-- Four vertices. The first filter has variables in three of them and joins nothing until the
second one has brought two of these together; the fourth vertex is a block of its own. -/
theorem plan_multiplies_blocks_of_late_join :
    let size := fun x => Expr.prop x "size"
    let q : Query := { Query.empty with
      vertices := [⟨"a", false⟩, ⟨"b", false⟩, ⟨"c", false⟩, ⟨"d", false⟩]
      constraints := [.binary (.compare .lt) (size "a") (.binary .add (size "b") (size "c")),
        .binary (.compare .lt) (size "b") (size "c"), .hasLabel "d" "City"] }
    ∃ p, q.plan Config.default = .ok p ∧
      ∃ groups r, Component.partition q .empty = .ok groups r ∧
        ∃ R : Setoid (Fin groups.length), q.IsBlocks R ∧ Nat.card (Quotient R) = 2 ∧
          ∀ es, q.constraints.Perm es →
            ∃ p', matchPlan Config.default { q with constraints := es } = .ok p' ∧
              p'.root.count Operator.isProduct = 1 ∧ p'.root.count Operator.isJoin = 2 := by
  intro size q
  have hcounts : (q.plan Config.default).toOption.map (fun p =>
      (p.root.count Operator.isProduct, p.root.count Operator.isJoin)) = some (1, 2) := by
    decide +kernel
  obtain ⟨p, hp, hproducts, hjoins⟩ : ∃ p, q.plan Config.default = .ok p ∧
      p.root.count Operator.isProduct = 1 ∧ p.root.count Operator.isJoin = 2 := by
    cases hp : q.plan Config.default with
    | error f =>
      rw [hp] at hcounts
      cases hcounts
    | ok p =>
      rw [hp] at hcounts
      exact ⟨p, rfl, Prod.mk.inj (Option.some.inj hcounts)⟩
  obtain ⟨groups, r, hpart, R, hR, hcard, -, hpos, -, hperm⟩ := plan_multiplies_blocks hp
  refine ⟨p, hp, groups, r, hpart, R, hR, by omega, ?_⟩
  intro es hes
  obtain ⟨⟨p', hp'⟩, hcounts⟩ := hperm es hes
  obtain ⟨hproducts', hjoins'⟩ := hcounts p' (Or.inl hp')
  exact ⟨p', hp', hproducts'.trans hproducts, hjoins'.trans hjoins⟩

end Query

end GraphPlan
