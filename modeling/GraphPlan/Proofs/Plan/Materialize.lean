import GraphPlan.Proofs.Plan.Fetch
import GraphPlan.Proofs.Resolve

/-!
# Giving values a column

While values are given columns, a plan only ever gains: columns that are fetched or computed, and
names for columns. `Plan.Widen` is one such step. A sequence of them keeps the schema valid and
every position and every name that there was. `meets_materialize` is the specification of
`Plan.materialize` in these terms, and `meets_columns` the one of giving several values a column.
-/

namespace GraphPlan

namespace Plan

/-- Declares a name for a column. -/
def named (p : Plan) (name : String) (column : Nat) : Plan :=
  { p with schema := { p.schema with aliases := p.schema.aliases.insert name column } }

/-- A plan gains columns, or a name for one. -/
inductive Widen (config : Config) : Plan → Plan → Prop where
  /-- Columns are fetched. -/
  | fetch {p p' : Plan} (h : Fetch config.attributeScope p p') : Widen config p p'
  /-- A column is computed from those that there are. -/
  | extend {p : Plan} {value : Scalar} (hcolumns : ∀ i ∈ value.columns, i < p.schema.width)
      (hexplicit : value.explicit = true) :
      Widen config p (p.extend config.extendResultType value)
  /-- A column gets a name. -/
  | named {p : Plan} {name : String} {column : Nat} (h : column < p.schema.width) :
      Widen config p (p.named name column)

/-- Any number of such steps. -/
abbrev Widens (config : Config) : Plan → Plan → Prop :=
  Relation.ReflTransGen (Widen config)

variable {config : Config} {p p' : Plan}

theorem Fetches.widens (h : Fetches config.attributeScope p p') : Widens config p p' :=
  Relation.ReflTransGen.mono (fun _ _ => Widen.fetch) _ _ h

/-- Nothing that there was is lost. -/
structure Keeps (p p' : Plan) : Prop where
  /-- The schema stays valid. -/
  valid : p.schema.Valid → p'.schema.Valid
  /-- Positions stay. -/
  width_le : p.schema.width ≤ p'.schema.width
  /-- Names stay. -/
  isSome_alias : ∀ name, (p.schema.aliasColumn? name).isSome = true →
    (p'.schema.aliasColumn? name).isSome = true

/-- Adding columns loses nothing. -/
theorem keeps_of_pushAll {cs : List Content} (h : p'.schema = p.schema.pushAll cs) :
    Keeps p p' where
  valid := fun hp => by rw [h]; exact hp.pushAll cs
  width_le := by rw [h, Schema.width_pushAll]; omega
  isSome_alias := fun name hname => by rwa [h, Schema.aliasColumn?, Schema.aliases_pushAll]

theorem Widen.keeps (h : Widen config p p') : Keeps p p' := by
  cases h with
  | fetch h =>
    cases h with
    | attributes => exact keeps_of_pushAll rfl
    | label => exact keeps_of_pushAll rfl
  | extend =>
    refine ⟨fun hp => hp.addComputed, ?_, fun name hname => hname⟩
    simp [Plan.extend, Plan.wrap, Schema.addComputed, Schema.width]
  | @named name column h =>
    refine ⟨fun hp => hp.insertAlias name h, Nat.le_refl _, fun other hother => ?_⟩
    simp only [Plan.named, Schema.aliasColumn?, Table.get?_insert] at hother ⊢
    split
    · rfl
    · exact hother

theorem Widens.keeps (h : Widens config p p') : Keeps p p' := by
  induction h with
  | refl => exact ⟨id, Nat.le_refl _, fun _ => id⟩
  | tail _ hstep ih =>
    have hlast := hstep.keeps
    exact ⟨fun hp => hlast.valid (ih.valid hp), Nat.le_trans ih.width_le hlast.width_le,
      fun name hname => hlast.isSome_alias name (ih.isSome_alias name hname)⟩

end Plan

/-- The aggregates that an expression reads have their results in the schema. -/
def Expr.Ready (s : Schema) (e : Expr) : Prop :=
  ∀ text ∈ e.aggregatesRead, (s.aliasColumn? text).isSome = true

theorem Expr.Ready.keeps {p p' : Plan} {e : Expr} (h : e.Ready p.schema) (hkeeps : p.Keeps p') :
    e.Ready p'.schema :=
  fun text htext => hkeeps.isSome_alias text (h text htext)

/-- A column that holds a value already exists. -/
theorem Schema.Valid.existing?_lt {s : Schema} (hs : s.Valid) {e : Expr} {column : Nat}
    (h : s.existing? e = some column) : column < s.width := by
  unfold Schema.existing? at h
  split at h
  · rcases Option.or_eq_some_iff.1 h with h | ⟨-, h⟩
    · exact hs.get?_lt h
    · exact hs.alias_lt _ _ h
  · rcases Option.or_eq_some_iff.1 h with h | ⟨-, h⟩
    · exact hs.get?_lt h
    · exact hs.alias_lt _ _ h
  · exact hs.alias_lt _ _ h

namespace Plan

variable {config : Config} {p : Plan}

/-- A column that exists gets a name. -/
theorem meets_setAlias (config : Config) (name : String) {column : Nat} {bad : PlanError → Prop}
    (h : column < p.schema.width) :
    (PlanM.exec (PlanM.onSchema (Schema.setAlias name column)) p).Meets
      (fun x => Widens config p x.2 ∧ column < x.2.schema.width) bad := by
  rw [PlanM.exec_onSchema]
  simp only [outcome, Schema.setAlias, if_pos h, ok_bind]
  exact ⟨.single (.named h), h⟩

/-- A value gets a column, unless it cannot be resolved. -/
theorem meets_columnOf {info : ExprInfo} (hp : p.schema.Valid) (he : info.expr.Ready p.schema) :
    (PlanM.exec (columnOf config info) p).Meets
      (fun x => Widens config p x.2 ∧ x.1 < x.2.schema.width) PlanError.IsResolution := by
  have hfetch : Widens config p (p.fetch config.attributeScope info.usage) :=
    (fetches_fetch config.attributeScope info.usage p).widens
  generalize hp' : p.fetch config.attributeScope info.usage = p' at hfetch
  have hvalid := hfetch.keeps.valid hp
  have hready := he.keeps hfetch.keeps
  simp only [columnOf, PlanM.exec_bind, PlanM.exec_modify, PlanM.exec_get, ok_bind, hp']
  cases hexisting : p'.schema.existing? info.expr with
  | some column => exact ⟨hfetch, hvalid.existing?_lt hexisting⟩
  | none =>
    simp only [PlanM.exec_bind, PlanM.exec_ofExcept, PlanM.exec_modify, PlanM.exec_pure]
    have hresolve : (info.expr.resolve ⟨p'.schema, none⟩).Meets (Expr.InScope ⟨p'.schema, none⟩)
        PlanError.IsResolution := by
      refine Expr.meets_resolve (Scope.valid_single hvalid) info.expr fun text htext => ?_
      simp [Scope.alias?, hready text htext]
    cases ht : info.expr.resolve ⟨p'.schema, none⟩ with
    | error e => exact hresolve.failure ht
    | ok t =>
      obtain ⟨hcolumns, hexplicit⟩ := hresolve.result ht
      rw [Scope.contents_single, Schema.length_contents] at hcolumns
      refine ⟨hfetch.tail (.extend hcolumns hexplicit), ?_⟩
      simp [Plan.extend, Plan.wrap, Schema.addComputed, Schema.width]

/-- A value gets a column and possibly a name. -/
theorem meets_materialize {info : ExprInfo} (name : Option String) (hp : p.schema.Valid)
    (he : info.expr.Ready p.schema) :
    (PlanM.exec (materialize config info name) p).Meets
      (fun x => Widens config p x.2 ∧ x.1 < x.2.schema.width) PlanError.IsResolution := by
  rw [materialize, PlanM.exec_bind]
  refine (meets_columnOf hp he).bind fun x ⟨hx, hlt⟩ => ?_
  cases name with
  | none => exact ⟨hx, hlt⟩
  | some name =>
    rw [PlanM.exec_bind]
    exact (meets_setAlias config name hlt).bind fun y ⟨hy, hlt'⟩ => ⟨hx.trans hy, hlt'⟩

/-- Values get their columns one after the other. The action `f` gives one value a column, and `g`
does it for a list. -/
theorem meets_columns {α : Type} (expr : α → Expr) {f : α → PlanM Nat}
    {g : List α → PlanM (List Nat)}
    (hcons : ∀ a as, g (a :: as) = f a >>= fun i => g as >>= fun is => pure (i :: is))
    (hnil : g [] = pure [])
    (hf : ∀ (a : α) (p : Plan), p.schema.Valid → (expr a).Ready p.schema →
      (PlanM.exec (f a) p).Meets (fun x => Widens config p x.2 ∧ x.1 < x.2.schema.width)
        PlanError.IsResolution)
    (as : List α) (hp : p.schema.Valid) (hready : ∀ a ∈ as, (expr a).Ready p.schema) :
    (PlanM.exec (g as) p).Meets
      (fun x => Widens config p x.2 ∧ x.1.length = as.length ∧ ∀ i ∈ x.1, i < x.2.schema.width)
      PlanError.IsResolution := by
  induction as generalizing p with
  | nil =>
    rw [hnil]
    exact ⟨.refl, rfl, nofun⟩
  | cons a as ih =>
    rw [hcons, PlanM.exec_bind]
    refine (hf a p hp (hready a (.head _))).bind fun x ⟨hx, hlt⟩ => ?_
    rw [PlanM.exec_bind]
    refine (ih (hx.keeps.valid hp) fun b hb => (hready b (.tail _ hb)).keeps hx.keeps).bind
      fun y ⟨hy, hlen, hys⟩ => ?_
    refine ⟨hx.trans hy, by rw [List.length_cons, List.length_cons, hlen], fun i hi => ?_⟩
    rcases List.mem_cons.1 hi with rfl | hi
    · exact Nat.lt_of_lt_of_le hlt hy.keeps.width_le
    · exact hys i hi

end Plan

end GraphPlan
