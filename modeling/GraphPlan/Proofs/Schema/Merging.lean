import GraphPlan.Proofs.Resolve
import GraphPlan.Proofs.Schema.Reachable

/-!
# Columns of two plans as columns of one

The predicate of a join is resolved over two schemas, before their columns are merged: the left one
is asked first, and what only the right one has is moved by the width of the left. In the merged
schema there is one index, in which later columns win, and aliases and aggregates are looked up,
too. As long as no variable, attribute or label has a column on both sides and the left side has no
names of its own, the two ways give the same scalar or the same error
(`Schema.merging_keeps_predicates`).
-/

namespace GraphPlan

/-! ## Scopes in which the same is found -/

/-- Every lookup that resolving makes gives the same position. -/
structure Scope.Agrees (scope scope' : Scope) : Prop where
  var : ∀ x, scope.find? (·.varColumn? x) = scope'.find? (·.varColumn? x)
  attr : ∀ x a, scope.find? (·.attrColumn? x a) = scope'.find? (·.attrColumn? x a)
  label : ∀ x, scope.find? (·.labelColumn? x) = scope'.find? (·.labelColumn? x)
  name : ∀ name, scope.alias? name = scope'.alias? name

/-- Resolving depends on the lookups only. -/
theorem Scope.Agrees.resolve_eq {scope scope' : Scope} (h : scope.Agrees scope') (e : Expr) :
    e.resolve scope = e.resolve scope' := by
  induction e using Expr.resolve.induct with
  | case1 name => rw [Expr.resolve, Expr.resolve, h.var, h.name]
  | case2 var name => rw [Expr.resolve, Expr.resolve, h.attr, h.name]
  | case3 value | case4 value | case5 value | case6 value => rfl
  | case7 | case8 lhs rhs | case15 func args => rfl
  | case9 op lhs rhs hop ihl ihr =>
    rw [Expr.resolve, Expr.resolve, ihl, ihr]
    · exact hop
    · exact hop
  | case10 op operand ih => rw [Expr.resolve, Expr.resolve, ih]
  | case11 kind => rw [Expr.resolve, Expr.resolve, h.name]
  | case12 kind arg => rw [Expr.resolve, Expr.resolve, h.name]
  | case13 var label => rw [Expr.resolve, Expr.resolve, h.label]
  | case14 var => rw [Expr.resolve, Expr.resolve, h.label]

namespace Schema

variable {s t : Schema}

/-! ## The index after merging -/

/-- The last place of a key among the columns at the end is its last place. -/
theorem IsLast.append_left {cs ds : List Content} {key : ColumnKey} {i : Nat}
    (h : IsLast ds key i) : IsLast (cs ++ ds) key (cs.length + i) := by
  obtain ⟨⟨c, hc, hkey⟩, hmax⟩ := h
  refine ⟨⟨c, ?_, hkey⟩, ?_⟩
  · rw [List.getElem?_append_right (Nat.le_add_right _ _), Nat.add_sub_cancel_left, hc]
  · intro j d hd hdk
    rcases Nat.lt_or_ge j cs.length with hj | hj
    · omega
    · rw [List.getElem?_append_right hj] at hd
      have hle := hmax _ d hd hdk
      omega

/-- A key of the new columns is found among them, and any other key where it was. -/
theorem Valid.get?_pushAll_contents (hs : s.Valid) (ht : t.Valid) (key : ColumnKey) :
    (s.pushAll t.contents).keys.get? key =
      ((t.keys.get? key).map (s.width + ·)).or (s.keys.get? key) := by
  cases hkey : t.keys.get? key with
  | some i =>
    have hlast : IsLast (s.contents ++ t.contents) key (s.contents.length + i) :=
      ((ht.key key i).1 hkey).append_left
    rw [← contents_pushAll, length_contents] at hlast
    exact ((hs.pushAll t.contents).key key _).2 hlast
  | none =>
    refine get?_keys_pushAll ?_
    intro c hc hck
    have hsome := ht.isSome_get?.2 ⟨c, hc, hck⟩
    rw [hkey] at hsome
    cases hsome

/-! ## Merging -/

/-- Two schemas whose columns can be looked up in either order: no alias and no aggregate on the
left, nothing computed on the right, and no variable, attribute or label on both sides. -/
structure Joinable (s t : Schema) : Prop where
  alias_none : ∀ name, s.aliasColumn? name = none
  left_role : ∀ c ∈ s.columns, c.content.role ≠ .aggregate
  right_role : ∀ c ∈ t.columns, c.content.role ≠ .computed ∧ c.content.role ≠ .aggregate
  key_ne : ∀ c ∈ s.columns, ∀ d ∈ t.columns,
    c.content.role ∈ [Role.var, Role.attr, Role.label] → c.key ≠ d.key

/-- A key that not both sides have is found in the merged schema where it is found in the two. -/
theorem Valid.find?_pair (hs : s.Valid) (ht : t.Valid) {key : ColumnKey}
    (hkey : ∀ c ∈ s.contents, ∀ d ∈ t.contents, c.key = key → d.key ≠ key) :
    Scope.find? ⟨s, some t⟩ (·.keys.get? key) =
      Scope.find? ⟨s.pushAll t.contents, none⟩ (·.keys.get? key) := by
  simp only [Scope.find?, hs.get?_pushAll_contents ht, Option.bind_some, Option.bind_none]
  cases hleft : s.keys.get? key with
  | none => cases t.keys.get? key <;> rfl
  | some i =>
    have hright : t.keys.get? key = none := by
      obtain ⟨c, hc, hck⟩ := hs.isSome_get?.1 (Option.isSome_of_eq_some hleft)
      rw [← Option.not_isSome_iff_eq_none, ht.isSome_get?]
      rintro ⟨d, hd, hdk⟩
      exact hkey c hc d hd hck hdk
    rw [hright]
    rfl

/-- Over the merged schema every lookup gives what it gives over the two. -/
theorem Joinable.agrees (h : s.Joinable t) (hs : s.Valid) (ht : t.Valid) :
    Scope.Agrees ⟨s, some t⟩ ⟨s.pushAll t.contents, none⟩ := by
  have hkeys : ∀ c ∈ s.contents, ∀ d ∈ t.contents,
      c.role ∈ [Role.var, Role.attr, Role.label] → c.key ≠ d.key := by
    intro c hc d hd hrole
    obtain ⟨column, hcolumn, rfl⟩ := List.mem_map.1 hc
    obtain ⟨column', hcolumn', rfl⟩ := List.mem_map.1 hd
    exact h.key_ne column hcolumn column' hcolumn' hrole
  have hfind : ∀ k : Content, k.role ∈ [Role.var, Role.attr, Role.label] →
      Scope.find? ⟨s, some t⟩ (·.keys.get? k.key) =
        Scope.find? ⟨s.pushAll t.contents, none⟩ (·.keys.get? k.key) := by
    intro k hk
    refine hs.find?_pair ht ?_
    intro c hc d hd hck hdk
    rw [← Content.role_eq_of_key_eq hck] at hk
    exact hkeys c hc d hd hk (hck.trans hdk.symm)
  -- neither side brings an alias or an aggregate into the merged schema
  have hroles : ∀ c ∈ (s.pushAll t.contents).contents, c.role ≠ .aggregate := by
    intro c hc
    rw [contents_pushAll, List.mem_append] at hc
    rcases hc with hc | hc
    · obtain ⟨column, hcolumn, rfl⟩ := List.mem_map.1 hc
      exact h.left_role column hcolumn
    · obtain ⟨column, hcolumn, rfl⟩ := List.mem_map.1 hc
      exact (h.right_role column hcolumn).2
  refine ⟨?_, ?_, ?_, ?_⟩
  · intro x
    exact hfind (.var x) (by simp [Content.role])
  · intro x a
    exact hfind (.attr x a) (by simp [Content.role])
  · intro x
    exact hfind (.label x) (by simp [Content.role])
  · intro name
    have hnone := (hs.pushAll t.contents).aggregateColumn?_eq_none hroles name
    simp only [Scope.alias?, hnone, aliasColumn?, aliases_pushAll, Option.or_none]
    exact (h.alias_none name).symm

/-- A predicate that is resolved over the schemas of two plans is the one that is resolved over the
merged schema: the merging succeeds, and every expression gives the same scalar or the same error. -/
theorem merging_keeps_predicates {m n : Nat} (hs : Reachable m s) (ht : Reachable n t)
    (h : s.Joinable t) :
    ∃ merged, append t s = .ok () merged ∧
      ∀ e : Expr, e.resolve ⟨s, some t⟩ = e.resolve ⟨merged, none⟩ := by
  refine ⟨s.pushAll t.contents, append_eq_ok ?_ s, ?_⟩
  · intro c hc
    obtain ⟨column, hcolumn, rfl⟩ := List.mem_map.1 hc
    obtain ⟨hcomputed, haggregate⟩ := h.right_role column hcolumn
    exact Content.isStructural_of_role hcomputed haggregate
  · exact (h.agrees hs.counted.valid ht.counted.valid).resolve_eq

/-- A computed column on the left, a variable with two columns on the right, and a scratch column
with the same tag on both sides. -/
theorem merging_keeps_predicates_of_repeated_variable :
    let left := stateAfter (Change.addScratch "b").run (stateAfter Change.addComputed.run
      (stateAfter (Change.addAttribute "a" "age").run
        (stateAfter (Change.addVariable "a").run empty)))
    let right := stateAfter (Change.addVariable "b").run (stateAfter (Change.addScratch "b").run
      (stateAfter (Change.addLabel "b").run (stateAfter (Change.addVariable "b").run empty)))
    let test := Expr.binary .and (.hasLabel "b" "Person")
      (.binary (.compare .lt) (.prop "a" "age") (.ref "b"))
    left.Joinable right ∧ test.resolve ⟨left, some right⟩ =
        .ok (.binary .and (.isLabel 5 "Person")
          (.binary (.compare .lt) (.column 1) (.column 7))) ∧
      ∃ merged, append right left = .ok () merged ∧
        ∀ e : Expr, e.resolve ⟨left, some right⟩ = e.resolve ⟨merged, none⟩ := by
  intro left right test
  have hleft : Reachable 1 left :=
    (((Reachable.empty.change (.addVariable "a")).change (.addAttribute "a" "age")).change
      .addComputed).change (.addScratch "b")
  have hright : Reachable 0 right :=
    (((Reachable.empty.change (.addVariable "b")).change (.addLabel "b")).change
      (.addScratch "b")).change (.addVariable "b")
  have hjoinable : left.Joinable right :=
    ⟨fun _ => rfl, by decide, by decide, by decide⟩
  exact ⟨hjoinable, rfl, merging_keeps_predicates hleft hright hjoinable⟩

end Schema

end GraphPlan
