import GraphPlan.Pattern.Component
import Mathlib.Data.List.Basic
import Mathlib.Tactic.Tauto

/-!
# Merging components

Components of single connections are merged until no two of them share a variable. One merge takes
the component `d` out of the list and lets an earlier one absorb it; `mergeAtMost_induction` turns a
property that such a merge keeps into one of the whole loop. The loop keeps all connections and all
variables, leaves the order of the numbers, and every component stays connected; when it ends, the
components are disjoint.
-/

namespace GraphPlan

/-- What is picked and what is left are the whole list. -/
theorem perm_of_pick?_eq_some {α β : Type} {f : α → Option β} {l rest : List α} {a : α} {b : β}
    (h : pick? f l = some (a, b, rest)) : l.Perm (a :: rest) ∧ f a = some b := by
  obtain ⟨before, after, rfl, rfl, ha, -⟩ := pick?_eq_some_iff.1 h
  exact ⟨List.perm_middle, ha⟩

/-- The first element that passes a test, and the others. -/
theorem pick?_test_eq_some {α : Type} {p : α → Bool} {l rest : List α} {a : α} {u : Unit}
    (h : pick? (fun x => if p x then some () else none) l = some (a, u, rest)) :
    ∃ before after, l = before ++ a :: after ∧ rest = before ++ after ∧ p a = true ∧
      ∀ x ∈ before, p x = false := by
  obtain ⟨before, after, hl, hrest, ha, hbefore⟩ := pick?_eq_some_iff.1 h
  refine ⟨before, after, hl, hrest, ?_, fun x hx => ?_⟩
  · by_contra hp
    simp [hp] at ha
  · have := hbefore x hx
    simpa using this

namespace Component

/-! ## One merge -/

/-- A merge lets a component absorb a later one with which it shares a variable. -/
theorem mergeOnce?_eq_some {l l' : List Component} (h : mergeOnce? l = some l') :
    ∃ before c mid d after, l = before ++ c :: (mid ++ d :: after) ∧ c.touches d = true ∧
      l' = before ++ c.absorb d :: (mid ++ after) := by
  induction l generalizing l' with
  | nil => cases h
  | cons c rest ih =>
    unfold mergeOnce? at h
    split at h
    · next d u rest' hpick =>
      obtain ⟨mid, after, hl, hrest, hd, -⟩ := pick?_test_eq_some hpick
      cases h
      exact ⟨[], c, mid, d, after, by rw [hl]; rfl, hd, by rw [hrest]; rfl⟩
    · rw [Option.map_eq_some_iff] at h
      obtain ⟨merged, hmerged, rfl⟩ := h
      obtain ⟨before, c', mid, d, after, hl, hd, hl'⟩ := ih hmerged
      exact ⟨c :: before, c', mid, d, after, by rw [hl]; rfl, hd, by rw [hl']; rfl⟩

/-- There is no merge exactly when no two components share a variable. -/
theorem mergeOnce?_eq_none {l : List Component} (h : mergeOnce? l = none) :
    l.Pairwise fun c d => c.touches d = false := by
  induction l with
  | nil => exact .nil
  | cons c rest ih =>
    unfold mergeOnce? at h
    split at h
    · cases h
    · next hpick =>
      refine .cons (fun d hd => ?_) (ih (Option.map_eq_none_iff.1 h))
      have := pick?_eq_none_iff.1 hpick d hd
      simpa using this

theorem length_of_mergeOnce? {l l' : List Component} (h : mergeOnce? l = some l') :
    l.length = l'.length + 1 := by
  obtain ⟨before, c, mid, d, after, rfl, -, rfl⟩ := mergeOnce?_eq_some h
  simp only [List.length_append, List.length_cons]
  omega

/-! ## The loop -/

/-- A property that one merge keeps holds after all merges. -/
theorem mergeAtMost_induction {P : List Component → Prop}
    (hstep : ∀ before c mid d after, c.touches d = true →
      P (before ++ c :: (mid ++ d :: after)) → P (before ++ c.absorb d :: (mid ++ after)))
    (n : Nat) {l : List Component} (h : P l) : P (mergeAtMost n l) := by
  induction n generalizing l with
  | zero => exact h
  | succ n ih =>
    unfold mergeAtMost
    split
    · next merged hmerged =>
      obtain ⟨before, c, mid, d, after, rfl, hd, rfl⟩ := mergeOnce?_eq_some hmerged
      exact ih (hstep before c mid d after hd h)
    · exact h

/-- With as many merges as components, the loop ends because there is nothing left to merge. -/
theorem pairwise_mergeAtMost {n : Nat} {l : List Component} (h : l.length ≤ n) :
    (mergeAtMost n l).Pairwise fun c d => c.touches d = false := by
  induction n generalizing l with
  | zero =>
    rw [List.length_eq_zero_iff.1 (Nat.le_zero.1 h)]
    exact .nil
  | succ n ih =>
    unfold mergeAtMost
    split
    · next merged hmerged =>
      have := length_of_mergeOnce? hmerged
      exact ih (by omega)
    · next hnone => exact mergeOnce?_eq_none hnone

/-- The numbers that are left stand in the order in which they stood. -/
theorem ids_mergeAtMost (n : Nat) (l : List Component) :
    ((mergeAtMost n l).map Component.id).Sublist (l.map Component.id) := by
  refine mergeAtMost_induction (P := fun m => (m.map Component.id).Sublist (l.map Component.id))
    ?_ n (List.Sublist.refl _)
  intro before c mid d after _ h
  refine List.Sublist.trans ?_ h
  simp only [List.map_append, List.map_cons]
  refine List.Sublist.append (List.Sublist.refl _) (List.Sublist.cons_cons _ ?_)
  exact List.Sublist.append (List.Sublist.refl _) (List.sublist_cons_self _ _)

/-- No connection is lost or taken twice. -/
theorem connections_mergeAtMost (n : Nat) (l : List Component) :
    ((mergeAtMost n l).flatMap Component.connections).Perm (l.flatMap Component.connections) := by
  refine mergeAtMost_induction
    (P := fun m => (m.flatMap Component.connections).Perm (l.flatMap Component.connections))
    ?_ n (List.Perm.refl _)
  intro before c mid d after _ h
  refine List.Perm.trans ?_ h
  simp only [List.flatMap_append, List.flatMap_cons, absorb, List.append_assoc]
  refine List.Perm.append_left _ (List.Perm.append_left _ ?_)
  rw [← List.append_assoc, ← List.append_assoc]
  exact List.Perm.append_right _ List.perm_append_comm

theorem mergeAtMost_ne_nil {n : Nat} {l : List Component} (h : l ≠ []) : mergeAtMost n l ≠ [] := by
  refine mergeAtMost_induction (P := fun m => m ≠ []) ?_ n h
  intro before c mid d after _ _
  simp

/-! ## Connectedness -/

/-- A component that consists of connections, all of which hang together: a set of variables that
meets the component and contains every connection that it meets contains the component. -/
structure Connected (g : Component) : Prop where
  /-- There is a connection. -/
  nonempty : g.connections ≠ []
  /-- The variables are those of the connections. -/
  mem_vars : ∀ x, x ∈ g.vars ↔ ∃ c ∈ g.connections, x ∈ c.names
  /-- What is closed under connections contains all variables or none. -/
  spread : ∀ S : String → Prop, (∃ x ∈ g.vars, S x) →
    (∀ c ∈ g.connections, (∃ x ∈ c.names, S x) → ∀ x ∈ c.names, S x) → ∀ x ∈ g.vars, S x

theorem connected_ofConnection (id : GroupId) (c : Connection) : (ofConnection id c).Connected where
  nonempty := by simp [ofConnection]
  mem_vars := by simp [ofConnection, mem_addNames]
  spread := by
    rintro S ⟨x, hx, hS⟩ hclosed y hy
    simp only [ofConnection, mem_addNames, List.not_mem_nil, false_or] at hx hy
    exact hclosed c (by simp [ofConnection]) ⟨x, hx, hS⟩ y hy

theorem mem_vars_absorb {c d : Component} {x : String} :
    x ∈ (c.absorb d).vars ↔ x ∈ c.vars ∨ x ∈ d.vars := by
  simp [absorb, mem_addNames]

/-- Two connected components that share a variable are connected together. -/
theorem Connected.absorb {c d : Component} (hc : c.Connected) (hd : d.Connected)
    (h : c.touches d = true) : (c.absorb d).Connected where
  nonempty := by simp [Component.absorb, hc.nonempty]
  mem_vars := by
    intro x
    rw [mem_vars_absorb, hc.mem_vars, hd.mem_vars]
    simp only [Component.absorb, List.mem_append]
    constructor
    · rintro (⟨k, hk, hx⟩ | ⟨k, hk, hx⟩)
      · exact ⟨k, Or.inl hk, hx⟩
      · exact ⟨k, Or.inr hk, hx⟩
    · rintro ⟨k, hk | hk, hx⟩
      · exact Or.inl ⟨k, hk, hx⟩
      · exact Or.inr ⟨k, hk, hx⟩
  spread := by
    rintro S ⟨x, hx, hS⟩ hclosed
    obtain ⟨z, hzc, hzd⟩ := touches_iff.1 h
    have hzc : z ∈ c.vars := by simpa [contains] using hzc
    have hzd : z ∈ d.vars := by simpa [contains] using hzd
    have hcc := hc.spread S
    have hdd := hd.spread S
    have hleft : (∃ x ∈ c.vars, S x) → ∀ x ∈ c.vars, S x := fun h =>
      hcc h fun k hk => hclosed k (List.mem_append_left _ hk)
    have hright : (∃ x ∈ d.vars, S x) → ∀ x ∈ d.vars, S x := fun h =>
      hdd h fun k hk => hclosed k (List.mem_append_right _ hk)
    -- whichever side the set meets, it spreads over the shared variable to the other side
    have hboth : (∀ x ∈ c.vars, S x) ∧ ∀ x ∈ d.vars, S x := by
      rcases mem_vars_absorb.1 hx with hx | hx
      · have hall := hleft ⟨x, hx, hS⟩
        exact ⟨hall, hright ⟨z, hzd, hall z hzc⟩⟩
      · have hall := hright ⟨x, hx, hS⟩
        exact ⟨hleft ⟨z, hzc, hall z hzd⟩, hall⟩
    intro y hy
    rcases mem_vars_absorb.1 hy with hy | hy
    · exact hboth.1 y hy
    · exact hboth.2 y hy

/-- Merging keeps every component connected. -/
theorem connected_mergeAtMost (n : Nat) {l : List Component} (h : ∀ g ∈ l, g.Connected) :
    ∀ g ∈ mergeAtMost n l, g.Connected := by
  refine mergeAtMost_induction (P := fun m => ∀ g ∈ m, g.Connected) ?_ n h
  intro before c mid d after htouch hm g hg
  simp only [List.mem_append, List.mem_cons] at hg hm
  rcases hg with hg | rfl | hg | hg
  · exact hm g (by tauto)
  · exact (hm c (by tauto)).absorb (hm d (by tauto)) htouch
  · exact hm g (by tauto)
  · exact hm g (by tauto)

/-! ## Components of connections -/

theorem connected_singletons (n : Nat) (cs : List Connection) :
    ∀ g ∈ singletons n cs, g.Connected := by
  induction cs generalizing n with
  | nil => exact nofun
  | cons c cs ih =>
    intro g hg
    rcases List.mem_cons.1 hg with rfl | hg
    · exact connected_ofConnection _ c
    · exact ih (n + 1) g hg

theorem connections_singletons (n : Nat) (cs : List Connection) :
    (singletons n cs).flatMap Component.connections = cs := by
  induction cs generalizing n with
  | nil => rfl
  | cons c cs ih => rw [singletons, List.flatMap_cons, ih]; rfl

/-- Single connections are numbered in a row. -/
theorem ids_singletons (n : Nat) (cs : List Connection) :
    (singletons n cs).map (·.id.index) = List.range' n cs.length := by
  induction cs generalizing n with
  | nil => rfl
  | cons c cs ih => rw [singletons, List.map_cons, ih, List.length_cons, List.range'_succ]; rfl

theorem length_singletons (n : Nat) (cs : List Connection) :
    (singletons n cs).length = cs.length := by
  induction cs generalizing n with
  | nil => rfl
  | cons c cs ih => rw [singletons, List.length_cons, ih, List.length_cons]

end Component

end GraphPlan
