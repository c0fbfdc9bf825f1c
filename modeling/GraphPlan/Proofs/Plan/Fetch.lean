import GraphPlan.Plan.Columns
import GraphPlan.Proofs.Schema.Index
import Mathlib.Logic.Relation

/-!
# Fetching attributes and labels

`Plan.fetch` adds, variable by variable, the attributes and the label that an expression needs. What
it does to a plan is a sequence of single fetches, each of which puts one operator on top of the
tree and adds the columns that the operator produces. `Plan.Fetch` is such a single fetch, and
`fetches_fetch` takes the whole apart into them.
-/

namespace GraphPlan

namespace NameMap

/-- No name is listed twice. -/
theorem nodup_names {α : Type} (m : NameMap α) : m.names.Nodup := by
  refine m.sorted.imp ?_
  rintro x y hlt rfl
  exact String.lt_irrefl _ hlt

/-- An entry is what is found at its name. -/
theorem get?_of_mem_entries {α : Type} {m : NameMap α} {entry : String × α}
    (h : entry ∈ m.entries) : m.get? entry.1 = some entry.2 := by
  obtain ⟨before, after, heq⟩ := List.append_of_mem h
  refine List.lookup_eq_some_iff.2 ⟨before, after, heq, ?_⟩
  intro other hother
  have hsorted := m.sorted
  rw [heq, List.map_append, List.pairwise_append] at hsorted
  have hlt := hsorted.2.2 other.1 (List.mem_map_of_mem hother) entry.1 (by simp)
  rw [bne_iff_ne]
  intro hsame
  rw [hsame] at hlt
  exact String.lt_irrefl _ hlt

end NameMap

namespace Plan

/-- One fetch from the column of a bound variable, of attributes or of the label. -/
inductive Fetch (scope : String) : Plan → Plan → Prop where
  /-- Attributes that have no column yet, all at once. -/
  | attributes {p : Plan} {x : String} {column : Nat} {attrs : List String}
      (hx : p.schema.varColumn? x = some column) (hne : attrs ≠ []) (hnodup : attrs.Nodup)
      (hnew : ∀ a ∈ attrs, p.schema.attrColumn? x a = none) :
      Fetch scope p
        (Plan.wrap { p with schema := p.schema.pushAll (attrs.map (.attr x)) }
          (.getAttributes column scope attrs))
  /-- The label, if it has no column yet. -/
  | label {p : Plan} {x : String} {column : Nat} (hx : p.schema.varColumn? x = some column)
      (hnew : p.schema.labelColumn? x = none) :
      Fetch scope p
        (Plan.wrap { p with schema := p.schema.pushAll [.label x] } (.getType column))

/-- Any number of fetches. -/
abbrev Fetches (scope : String) : Plan → Plan → Prop :=
  Relation.ReflTransGen (Fetch scope)

variable {scope : String} {p : Plan}

/-- The missing attributes of a variable are fetched at once. -/
theorem fetches_fetchAttributes {x : String} {column : Nat} {attrs : List String}
    (hx : p.schema.varColumn? x = some column) (hnodup : attrs.Nodup) :
    Fetches scope p (p.fetchAttributes scope x column attrs) := by
  unfold fetchAttributes
  split
  · exact .refl
  · next missing hne =>
    rw [Schema.foldl_addAttribute]
    refine .single (.attributes hx hne (hnodup.filter _) ?_)
    intro a ha
    have hmissing := (List.mem_filter.1 ha).2
    simpa [Schema.hasAttribute] using hmissing

/-- A missing label is fetched. -/
theorem fetches_fetchLabel {x : String} {column : Nat} (hx : p.schema.varColumn? x = some column) :
    Fetches scope p (p.fetchLabel x column) := by
  unfold fetchLabel
  split
  · exact .refl
  · next h => exact .single (.label hx (by simpa [Schema.hasLabel] using h))

/-- Fetching attributes of a variable leaves the column of the variable where it is. -/
theorem varColumn?_fetchAttributes {x : String} {column : Nat} {attrs : List String} :
    (p.fetchAttributes scope x column attrs).schema.varColumn? x = p.schema.varColumn? x := by
  unfold fetchAttributes
  split
  · rfl
  · rw [Schema.foldl_addAttribute]
    exact Schema.varColumn?_pushAll (by simp)

/-- What is fetched for one variable. -/
theorem fetches_fetchVariable {x : String} {use : VariableUse} :
    Fetches scope p (p.fetchVariable scope x use) := by
  unfold fetchVariable
  split
  · exact .refl
  · next column hx =>
    have hattrs : Fetches scope p _ := fetches_fetchAttributes hx use.attributes.nodup_names
    split
    · exact hattrs.trans (fetches_fetchLabel (varColumn?_fetchAttributes.trans hx))
    · exact hattrs

/-- What is fetched for several variables. -/
theorem fetches_foldl (entries : List (String × VariableUse)) (p : Plan) :
    Fetches scope p (entries.foldl (fun p (x, use) => p.fetchVariable scope x use) p) := by
  induction entries generalizing p with
  | nil => exact .refl
  | cons entry entries ih => exact fetches_fetchVariable.trans (ih _)

/-- Fetching what an expression needs is a sequence of single fetches. -/
theorem fetches_fetch (scope : String) (usage : Usage) (p : Plan) :
    Fetches scope p (p.fetch scope usage) :=
  fetches_foldl usage.vars.entries p

/-! ## What has a column afterwards -/

/-- A fetch loses no column. -/
theorem Fetches.isSome_get? {p' : Plan} (h : Fetches scope p p') {key : ColumnKey}
    (hkey : (p.schema.keys.get? key).isSome = true) : (p'.schema.keys.get? key).isSome = true := by
  induction h with
  | refl => exact hkey
  | tail _ hstep ih =>
    cases hstep with
    | attributes => exact Schema.isSome_get?_pushAll.2 (Or.inl ih)
    | label => exact Schema.isSome_get?_pushAll.2 (Or.inl ih)

end Plan

/-- The schema has columns for all that is needed from a variable. -/
structure Schema.Offers (s : Schema) (x : String) (use : VariableUse) : Prop where
  attributes : ∀ a ∈ use.attributes.names, s.hasAttribute x a = true
  label : use.labelChecked = true → s.hasLabel x = true

namespace Plan

variable {scope : String} {p p' : Plan} {x : String} {use : VariableUse}

theorem Fetches.offers (h : Fetches scope p p') (hp : p.schema.Offers x use) :
    p'.schema.Offers x use :=
  ⟨fun a ha => h.isSome_get? (hp.attributes a ha), fun hlabel => h.isSome_get? (hp.label hlabel)⟩

theorem hasAttribute_fetchAttributes {column : Nat} {attrs : List String} {a : String}
    (ha : a ∈ attrs) : (p.fetchAttributes scope x column attrs).schema.hasAttribute x a = true := by
  by_cases hold : p.schema.hasAttribute x a = true
  · unfold fetchAttributes
    split
    · exact hold
    · rw [Schema.foldl_addAttribute]
      exact Schema.isSome_get?_pushAll.2 (Or.inl hold)
  · have hmissing : a ∈ attrs.filter fun attr => !p.schema.hasAttribute x attr :=
      List.mem_filter.2 ⟨ha, by simpa using hold⟩
    unfold fetchAttributes
    split
    · next hnil =>
      rw [hnil] at hmissing
      cases hmissing
    · rw [Schema.foldl_addAttribute]
      exact Schema.isSome_get?_pushAll.2 (Or.inr ⟨_, List.mem_map_of_mem hmissing, rfl⟩)

theorem hasLabel_fetchLabel {column : Nat} :
    (p.fetchLabel x column).schema.hasLabel x = true := by
  unfold fetchLabel
  split
  · next h => exact h
  · exact Schema.isSome_get?_pushAll.2 (Or.inr ⟨.label x, List.mem_singleton.2 rfl, rfl⟩)

/-- All that is needed from a bound variable is there after fetching it. -/
theorem offers_fetchVariable (hx : p.schema.hasVariable x = true) :
    (p.fetchVariable scope x use).schema.Offers x use := by
  obtain ⟨column, hcolumn⟩ := Option.isSome_iff_exists.1 hx
  have hattrs : ∀ a ∈ use.attributes.names,
      (p.fetchAttributes scope x column use.attributes.names).schema.hasAttribute x a = true :=
    fun a ha => hasAttribute_fetchAttributes ha
  simp only [fetchVariable, hcolumn]
  split
  · refine ⟨fun a ha => ?_, fun _ => hasLabel_fetchLabel⟩
    have hfetches : Fetches scope (p.fetchAttributes scope x column use.attributes.names) _ :=
      fetches_fetchLabel (varColumn?_fetchAttributes.trans hcolumn)
    exact hfetches.isSome_get? (hattrs a ha)
  · next hlabel => exact ⟨hattrs, fun h => absurd h hlabel⟩

/-- Fetching for an expression gives columns to all that it needs from a bound variable. -/
theorem offers_fetch {usage : Usage} (huse : usage.vars.get? x = some use)
    (hx : p.schema.hasVariable x = true) : (p.fetch scope usage).schema.Offers x use := by
  obtain ⟨before, after, hentries, -⟩ := List.lookup_eq_some_iff.1 huse
  unfold fetch
  rw [hentries, List.foldl_append, List.foldl_cons]
  refine (fetches_foldl after _).offers (offers_fetchVariable ?_)
  exact (fetches_foldl before p).isSome_get? hx

end Plan

end GraphPlan
