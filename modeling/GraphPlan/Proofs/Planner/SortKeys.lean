import GraphPlan.Proofs.Plan.Extension
import GraphPlan.Proofs.Planner.ResultNames

/-!
# What a sort key that is a bare name stands for

A bare name in the order of a query can be the name of a result or that of a variable of the
pattern. A variable that still has a column wins. It has one if the rows are not grouped, or if it
is itself a grouping key (`Query.KeepsVariable`); grouping by anything else drops it. Otherwise the
name is that of the last result that gets it (`Query.plan_sorts_by_named_result`).

That no other grouping key brings a variable through rests on the names that grouping keys leave
behind: a name for the column of a variable was declared by a key that is this variable
(`Plan.NamesVars`).
-/

namespace GraphPlan

namespace Plan

variable {config : Config} {p p' : Plan} {column : Nat} {columns : List Nat}

/-! ## Columns that were there stay -/

theorem Widen.isPrefix_contents (h : Widen config p p') :
    p.schema.contents <+: p'.schema.contents := by
  cases h with
  | fetch h =>
    cases h with
    | attributes | label => exact ⟨_, (Schema.contents_pushAll ..).symm⟩
  | extend => exact ⟨_, (Schema.contents_push ..).symm⟩
  | named => exact List.prefix_rfl

theorem Widens.isPrefix_contents (h : Widens config p p') :
    p.schema.contents <+: p'.schema.contents := by
  induction h with
  | refl => exact List.prefix_rfl
  | tail _ hstep ih => exact ih.trans hstep.isPrefix_contents

theorem getElem?_contents_eq (h : p.schema.contents <+: p'.schema.contents) {i : Nat}
    (hi : i < p.schema.width) : p'.schema.contents[i]? = p.schema.contents[i]? := by
  obtain ⟨rest, hrest⟩ := h
  rw [← hrest, List.getElem?_append_left]
  rwa [Schema.length_contents]

/-! ## Bare names -/

/-- Fetching does not change what a bare name stands for. -/
theorem existing?_ref_fetch (config : Config) (usage : Usage) (p : Plan) (x : String) :
    (p.fetch config.attributeScope usage).schema.existing? (.ref x) =
      p.schema.existing? (.ref x) := by
  have hfetches := fetches_fetch config.attributeScope usage p
  rw [Schema.existing?, Schema.existing?, hfetches.widens.varColumn?, hfetches.aliasColumn?_eq]

/-- Neither does giving a value a column. -/
theorem existing?_ref_columnOf {info : ExprInfo}
    (h : PlanM.exec (columnOf config info) p = .ok (column, p')) (x : String) :
    p'.schema.existing? (.ref x) = p.schema.existing? (.ref x) := by
  rw [← existing?_ref_fetch config info.usage p x]
  rcases columnOf_eq_ok h with ⟨-, rfl⟩ | ⟨-, -, value, rfl⟩
  · rfl
  · generalize p.fetch config.attributeScope info.usage = fetched
    have hvar : (fetched.extend config.extendResultType value).schema.varColumn? x =
        fetched.schema.varColumn? x := by
      show (Schema.addComputed _).keys.get? (.var x) = _
      rw [Schema.addComputed, Schema.get?_keys_push, if_neg (by simp [Content.key])]
      rfl
    rw [Schema.existing?, Schema.existing?, hvar]
    rfl

/-- A bare name that stands for something gets the column that it stands for. -/
theorem columnOf_ref {info : ExprInfo} {x : String} {c : Nat} (href : info.expr = .ref x)
    (hx : p.schema.existing? (.ref x) = some c)
    (h : PlanM.exec (columnOf config info) p = .ok (column, p')) : column = c := by
  rw [← existing?_ref_fetch config info.usage p x, ← href] at hx
  rcases columnOf_eq_ok h with ⟨hfound, -⟩ | ⟨hnone, -⟩
  · exact Option.some.inj (hfound.symm.trans hx)
  · rw [hx] at hnone
    cases hnone

/-! ## Grouping keys that are variables -/

/-- Names for columns of variables are for variables with a given property only. -/
def NamesVars (G : String → Prop) (p : Plan) : Prop :=
  ∀ name c x, p.schema.aliasColumn? name = some c → p.schema.contents[c]? = some (.var x) → G x

variable {G : String → Prop}

theorem NamesVars.extends (h : p.NamesVars G) (hp : p.schema.Valid) (hp' : Extends none p p') :
    p'.NamesVars G := by
  intro name c x hname hc
  have hprefix : p.schema.contents <+: p'.schema.contents := hp'.columns.map Column.content
  rw [hp'.aliasColumn? name (by simp)] at hname
  rw [getElem?_contents_eq hprefix (hp.alias_lt name c hname)] at hc
  exact h name c x hname hc

theorem NamesVars.named (h : p.NamesVars G)
    (hcolumn : ∀ x, p.schema.contents[column]? = some (.var x) → G x) (name : String) :
    (p.named name column).NamesVars G := by
  intro other c x hother hc
  rw [aliasColumn?_named] at hother
  split at hother
  · cases hother
    exact hcolumn x hc
  · exact h other c x hother hc

/-- What is found for an expression is a variable only if the expression is that variable, or if
there is a name for it. -/
theorem var_of_existing? (hp : p.schema.Valid) (h : p.NamesVars G) {e : Expr}
    (he : ∀ x, e = .ref x → G x) (hfound : p.schema.existing? e = some column) {x : String}
    (hx : p.schema.contents[column]? = some (.var x)) : G x := by
  unfold Schema.existing? at hfound
  split at hfound
  · rcases Option.or_eq_some_iff.1 hfound with hattr | ⟨-, hname⟩
    · have hcontent := hp.getElem?_of_attrColumn? hattr
      rw [hx] at hcontent
      cases hcontent
    · exact h _ column x hname hx
  · next name =>
    rcases Option.or_eq_some_iff.1 hfound with hvar | ⟨-, hname⟩
    · have hcontent := hp.getElem?_of_varColumn? hvar
      rw [hx] at hcontent
      cases hcontent
      exact he x rfl
    · exact h name column x hname hx
  · exact h _ column x hfound hx

theorem namesVars_columnOf {info : ExprInfo} (hp : p.schema.Valid) (h : p.NamesVars G)
    (he : ∀ x, info.expr = .ref x → G x)
    (hexec : PlanM.exec (columnOf config info) p = .ok (column, p')) :
    p'.NamesVars G ∧ ∀ x, p'.schema.contents[column]? = some (.var x) → G x := by
  have hafter : stateAfter (columnOf config info) p = p' := by
    rw [PlanM.exec_eq_outcome] at hexec
    exact stateAfter_of_eq_ok (eq_ok_of_outcome_eq_ok hexec)
  have hextends := extends_columnOf none config info p
  rw [hafter] at hextends
  refine ⟨h.extends hp hextends, ?_⟩
  intro x hx
  have hvalid : (p.fetch config.attributeScope info.usage).schema.Valid :=
    (fetches_fetch config.attributeScope info.usage p).widens.keeps.valid hp
  have hfetched := h.extends hp (extends_fetch none config.attributeScope info.usage p)
  rcases columnOf_eq_ok hexec with ⟨hfound, rfl⟩ | ⟨-, rfl, value, rfl⟩
  · exact var_of_existing? hvalid hfetched he hfound hx
  · -- a computed column is no variable
    have hnew : (p.fetch config.attributeScope info.usage).schema.addComputed.contents =
        (p.fetch config.attributeScope info.usage).schema.contents ++ [.computed _] :=
      Schema.contents_push _ _
    have hcontent : (p.fetch config.attributeScope info.usage).schema.addComputed.contents[
        (p.fetch config.attributeScope info.usage).schema.width]? = some (.var x) := hx
    rw [hnew, ← Schema.length_contents, List.getElem?_concat_length] at hcontent
    cases hcontent

/-- The column of a grouping key, and its two names. -/
theorem groupColumn_eq_ok {key : GroupKey}
    (h : PlanM.exec (groupColumn config key) p = .ok (column, p')) :
    ∃ p₁, PlanM.exec (columnOf config (key.expr.analyze .preGroup)) p = .ok (column, p₁) ∧
      p' = (p₁.named key.name column).named key.expr.text column := by
  unfold groupColumn at h
  split at h
  · cases h
  · rw [PlanM.exec_bind] at h
    obtain ⟨⟨c, p₂⟩, hmaterialize, h⟩ := eq_ok_of_bind_eq_ok h
    rw [PlanM.exec_bind] at h
    obtain ⟨⟨⟨⟩, p₃⟩, htext, h⟩ := eq_ok_of_bind_eq_ok h
    have htexted : p₃ = p₂.named key.expr.text c := setAlias_eq_ok htext
    unfold materialize at hmaterialize
    rw [PlanM.exec_bind] at hmaterialize
    obtain ⟨⟨c', p₁⟩, hcolumn, hmaterialize⟩ := eq_ok_of_bind_eq_ok hmaterialize
    dsimp only at hmaterialize
    rw [PlanM.exec_bind] at hmaterialize
    obtain ⟨⟨⟨⟩, p₄⟩, hname, hmaterialize⟩ := eq_ok_of_bind_eq_ok hmaterialize
    have hnamed : p₄ = p₁.named key.name c' := setAlias_eq_ok hname
    cases hmaterialize
    cases h
    exact ⟨p₁, hcolumn, by rw [htexted, hnamed]⟩

theorem namesVars_groupColumn {key : GroupKey} (hp : p.schema.Valid) (h : p.NamesVars G)
    (hkey : ∀ x, key.expr = .ref x → G x)
    (hexec : PlanM.exec (groupColumn config key) p = .ok (column, p')) :
    p'.NamesVars G ∧ ∀ x, p'.schema.contents[column]? = some (.var x) → G x := by
  obtain ⟨p₁, hcolumn, rfl⟩ := groupColumn_eq_ok hexec
  obtain ⟨hnames, hvar⟩ := namesVars_columnOf hp h hkey hcolumn
  exact ⟨(hnames.named hvar key.name).named hvar key.expr.text, hvar⟩

/-- A grouping column holds a variable only if some grouping key is that variable. -/
theorem var_of_mem_groupColumns {keys : List GroupKey} (hp : p.schema.Valid) (h : p.NamesVars G)
    (hkeys : ∀ key ∈ keys, ∀ x, key.expr = .ref x → G x)
    (hexec : PlanM.exec (groupColumns config keys) p = .ok (columns, p')) (hcolumn : column ∈ columns)
    {x : String} (hx : p'.schema.contents[column]? = some (.var x)) : G x := by
  induction keys generalizing p columns with
  | nil =>
    cases hexec
    cases hcolumn
  | cons key keys ih =>
    obtain ⟨c, p₁, cs, hfirst, hrest, rfl⟩ := columns_cons_eq_ok groupColumns_cons hexec
    obtain ⟨hwidens, hlt⟩ := (meets_groupColumn key hp).result hfirst
    have hvalid := hwidens.keeps.valid hp
    obtain ⟨hnames, hvar⟩ :=
      namesVars_groupColumn hp h (hkeys key List.mem_cons_self) hfirst
    rcases List.mem_cons.1 hcolumn with rfl | hcolumn
    · obtain ⟨hwidens', -⟩ := (meets_groupColumns keys hvalid).result hrest
      rw [getElem?_contents_eq (Widens.isPrefix_contents hwidens') hlt] at hx
      exact hvar x hx
    · exact ih hvalid hnames (fun k hk => hkeys k (List.mem_cons_of_mem key hk)) hrest hcolumn

/-- A grouping key that is a variable is grouped by in the column of the variable. -/
theorem mem_groupColumns_of_ref {keys : List GroupKey} (hp : p.schema.Valid)
    (hexec : PlanM.exec (groupColumns config keys) p = .ok (columns, p')) {key : GroupKey}
    (hkey : key ∈ keys) {x : String} (href : key.expr = .ref x)
    (hx : p.schema.varColumn? x = some column) : column ∈ columns := by
  induction keys generalizing p columns with
  | nil => cases hkey
  | cons first keys ih =>
    obtain ⟨c, p₁, cs, hfirst, hrest, rfl⟩ := columns_cons_eq_ok groupColumns_cons hexec
    rcases List.mem_cons.1 hkey with rfl | hkey
    · obtain ⟨p₂, hcolumn, -⟩ := groupColumn_eq_ok hfirst
      have hfound : p.schema.existing? (.ref x) = some column := by
        rw [Schema.existing?, hx, Option.some_or]
      rw [columnOf_ref href hfound hcolumn]
      exact List.mem_cons_self
    · obtain ⟨hwidens, -⟩ := (meets_groupColumn first hp).result hfirst
      refine List.mem_cons_of_mem c (ih (hwidens.keeps.valid hp) hrest hkey ?_)
      rw [Widens.varColumn? hwidens, hx]

/-- Before grouping, the columns of the grouping keys were added, and then those of the arguments of
aggregates. -/
theorem exists_keyed_of_gather {q : Query} {x : Extraction} (hp : p.schema.Valid)
    (h : gather config q p = .ok (columns, x)) :
    ∃ keyed, PlanM.exec (groupColumns config q.groupBy) p = .ok (columns, keyed) ∧
      Widens config p keyed ∧ Widens config keyed x.plan := by
  obtain ⟨⟨cs, keyed⟩, hkeyed, h⟩ := eq_ok_of_atStage_bind_eq_ok h
  obtain ⟨y, hy, h⟩ := eq_ok_of_bind_eq_ok h
  obtain ⟨z, hz, h⟩ := eq_ok_of_bind_eq_ok h
  cases h
  obtain ⟨hwidens, -⟩ := (meets_groupColumns q.groupBy hp).result hkeyed
  have hvalid := hwidens.keeps.valid hp
  have hresults := (meets_extractAt (by simp) _ hvalid).result hy
  have hvalid' := hresults.widens.keeps.valid hvalid
  have hsort := (meets_extractAt (by simp) _ hvalid').result hz
  exact ⟨keyed, hkeyed, hwidens, hresults.widens.trans hsort.widens⟩

end Plan

/-! ## Variables after grouping -/

namespace Schema

variable {s : Schema} {keep : List Nat}

/-- A variable is kept exactly if one of the listed columns holds it. -/
theorem var_mem_contents_reduced (h : ∀ p ∈ keep, p < s.width) {x : String} :
    Content.var x ∈ (s.reduced keep).contents ↔ ∃ p ∈ keep, s.contents[p]? = some (.var x) := by
  constructor
  · intro hx
    obtain ⟨i, hi⟩ := List.mem_iff_getElem?.1 hx
    have hlt : i < keep.length := by
      rw [← width_reduced h, ← length_contents]
      exact (List.getElem?_eq_some_iff.1 hi).1
    have hp : keep[i] < s.contents.length := by
      rw [length_contents]
      exact h _ (List.getElem_mem hlt)
    have hmoved :=
      getElem?_contents_reduced h (List.getElem?_eq_getElem hlt) (List.getElem?_eq_getElem hp)
    rw [hi, Option.some.injEq] at hmoved
    refine ⟨keep[i], List.getElem_mem hlt, ?_⟩
    split at hmoved
    · rw [List.getElem?_eq_getElem hp, hmoved]
    · cases hmoved
  · rintro ⟨p, hp, hx⟩
    obtain ⟨i, hi⟩ : ∃ i, keep.idxOf? p = some i := by
      rw [← Option.isSome_iff_exists, List.isSome_idxOf?]
      exact hp
    obtain ⟨hlt, hip, -⟩ := List.idxOf?_eq_some_iff.1 hi
    have hlisted : keep[i]? = some p := by rw [List.getElem?_eq_getElem hlt, hip]
    have hmoved := getElem?_contents_reduced h hlisted hx
    rw [if_pos hi] at hmoved
    exact List.mem_of_getElem? hmoved

theorem varColumn?_withAggregates (s : Schema) (aggregates : List AggregateInfo) (x : String) :
    (s.withAggregates aggregates).varColumn? x = s.varColumn? x := by
  induction aggregates generalizing s with
  | nil => rfl
  | cons a as ih =>
    rw [withAggregates_cons, ih]
    show (s.push (.aggregate a.kind a.source)).keys.get? (.var x) = _
    rw [get?_keys_push, if_neg (by simp [Content.key])]
    rfl

end Schema

/-- A variable of the pattern that has a column when rows are put in order: either the rows are not
grouped, or they are grouped by the variable itself. -/
def Query.KeepsVariable (q : Query) (x : String) : Prop :=
  q.HasName x ∧ (q.asksFor .group = false ∨ ∃ key ∈ q.groupBy, key.expr = .ref x)

namespace Query.Staged

variable {config : Config} {q : Query} {x : String}

/-- The variables of the plan that finds the matches are those of the pattern. -/
theorem hasVariable_found (st : q.Staged config) :
    st.found.schema.OfPattern ∧ (st.found.schema.hasVariable x = true ↔ q.HasName x) := by
  have hregistry : st.state.registry.contains x = true ↔ q.HasName x :=
    Component.contains_iff_hasName
      (eq_ok_of_outcome_eq_ok ((PlannerState.meets_start q).result st.start_eq).outcome_eq)
  cases Point.good_of_visited st.start_eq st.visited_found with
  | matched hpattern hvars => exact ⟨hpattern.ofPattern, (hvars x).trans hregistry⟩

/-- A grouping column holds a variable exactly if the variable is a grouping key. -/
theorem exists_var_groupBy_iff (st : q.Staged config) :
    (∃ c ∈ st.groupBy, st.gathered.plan.schema.contents[c]? = some (.var x)) ↔
      q.HasName x ∧ ∃ key ∈ q.groupBy, key.expr = .ref x := by
  obtain ⟨hpattern, hfound⟩ := st.hasVariable_found (x := x)
  have hvalid := hpattern.valid
  obtain ⟨keyed, hkeyed, hwidens, hwidens'⟩ := Plan.exists_keyed_of_gather hvalid st.gather_eq
  obtain ⟨-, -, hlt⟩ := (Plan.meets_groupColumns q.groupBy hvalid).result hkeyed
  have hgathered := hwidens'.keeps.valid (hwidens.keeps.valid hvalid)
  constructor
  · rintro ⟨c, hc, hx⟩
    rw [Plan.getElem?_contents_eq hwidens'.isPrefix_contents (hlt c hc)] at hx
    constructor
    · have hbound : keyed.schema.hasVariable x = true :=
        (hwidens.keeps.valid hvalid).hasVariable_iff.2 (List.mem_of_getElem? hx)
      rw [← hfound, Schema.hasVariable, ← hwidens.varColumn?]
      exact hbound
    · have hnames : st.found.NamesVars fun y => ∃ key ∈ q.groupBy, key.expr = .ref y := by
        intro name c' y hname
        rw [hpattern.alias_none] at hname
        cases hname
      exact Plan.var_of_mem_groupColumns hvalid hnames (fun key hkey y hy => ⟨key, hkey, hy⟩)
        hkeyed hc hx
  · rintro ⟨hname, key, hkey, href⟩
    obtain ⟨c, hc⟩ := Option.isSome_iff_exists.1 (hfound.2 hname)
    refine ⟨c, Plan.mem_groupColumns_of_ref hvalid hkeyed hkey href hc, ?_⟩
    rw [← hwidens.varColumn?, ← hwidens'.varColumn?] at hc
    exact hgathered.getElem?_of_varColumn? hc

/-- When rows are put in order, a variable has a column exactly if it was kept. -/
theorem hasVariable_keyed_iff (st : q.Staged config) :
    st.keyed.schema.hasVariable x = true ↔ q.KeepsVariable x := by
  obtain ⟨hpattern, hfound⟩ := st.hasVariable_found (x := x)
  have hgroup := q.asksFor_group_eq st.before.length_eq st.before.nil_iff
  have hsame : st.keyed.schema.varColumn? x =
      (st.gathered.plan.grouped st.groupBy st.gathered.aggregates).schema.varColumn? x := by
    rw [st.widens_keyed.varColumn?, st.widens_valued.varColumn?]
  rw [Schema.hasVariable, hsame, KeepsVariable]
  unfold Plan.grouped
  split
  · next hempty =>
    have hnot : q.asksFor .group = false := by
      rw [← hgroup, hempty.1, hempty.2]
      rfl
    rw [st.before.widens.varColumn?, ← Schema.hasVariable, hfound]
    simp [hnot]
  · next hne =>
    have hasks : q.asksFor .group = true := by
      rw [← hgroup]
      by_contra hcon
      refine hne ?_
      simpa using hcon
    have hreduced := Schema.valid_reduced st.before.groupBy_lt
    show (Schema.varColumn? (Schema.withAggregates _ _) x).isSome = true ↔ _
    rw [Schema.varColumn?_withAggregates, ← Schema.hasVariable, hreduced.hasVariable_iff,
      Schema.var_mem_contents_reduced st.before.groupBy_lt, st.exists_var_groupBy_iff]
    simp [hasks]

end Query.Staged

/-! ## Sort keys -/

namespace Plan

variable {config : Config} {p p' : Plan} {columns : List Nat}

/-- A sort key that is a bare name gets the column that the name stands for before any of the sort
keys gets one. -/
theorem getElem?_orderColumns_of_ref {elems : List OrderElem} {x : String} {c : Nat}
    (hexec : PlanM.exec (orderColumns config elems) p = .ok (columns, p'))
    (hx : p.schema.existing? (.ref x) = some c) {i : Nat} {elem : OrderElem}
    (hi : elems[i]? = some elem) (href : elem.expr = .ref x) : columns[i]? = some c := by
  induction elems generalizing p columns i with
  | nil => cases hi
  | cons first elems ih =>
    obtain ⟨column, p₁, rest, hfirst, hrest, rfl⟩ := columns_cons_eq_ok orderColumns_cons hexec
    have hcolumn : PlanM.exec (columnOf config (first.expr.analyze .postGroup)) p =
        .ok (column, p₁) := by
      unfold orderColumn at hfirst
      split at hfirst
      · cases hfirst
      · rwa [materialize_none] at hfirst
    cases i with
    | zero =>
      cases hi
      rw [List.getElem?_cons_zero, columnOf_ref href hx hcolumn]
    | succ i =>
      rw [List.getElem?_cons_succ] at hi ⊢
      refine ih hrest ?_ hi
      rw [existing?_ref_columnOf hcolumn, hx]

end Plan

namespace Query

variable {config : Config} {q : Query} {p : Plan}

/-- The run of planning comes to the rows in order. -/
theorem Staged.visited_ordered (st : q.Staged config) :
    Point.Visited config q st.state (.ordered st.projection (st.keyed.sorted st.orderBy)) := by
  have hgroup : (Point.collecting st.groupBy [] st.gathered).step config q st.state.registry =
      .ok (.valuing [] q.projection
        (st.gathered.plan.grouped st.groupBy st.gathered.aggregates)) := by
    simp only [Point.step, Plan.exec_group st.gathered.aggregates st.before.groupBy_lt, atStage_ok,
      ok_bind]
    rfl
  have hvalue := @Point.leads_columns config q st.state.registry _ .projection
    (Plan.projectionColumn config) (Plan.projectionColumns config) .valuing
    (fun columns p => .sorting columns [] q.orderBy p) Plan.projectionColumns_cons rfl
    (fun _ _ _ _ => rfl) (fun _ _ => rfl) [] q.projection
    (st.gathered.plan.grouped st.groupBy st.gathered.aggregates)
  have horder := @Point.leads_columns config q st.state.registry _ .orderBy
    (Plan.orderColumn config) (Plan.orderColumns config) (.sorting st.projection)
    (fun columns p => .ordered st.projection (p.sorted columns)) Plan.orderColumns_cons rfl
    (fun _ _ _ _ => rfl) (fun _ _ => rfl) [] q.orderBy st.valued
  rw [st.project_eq] at hvalue
  rw [st.order_eq] at horder
  exact ((st.visited_gathered.tail hgroup).trans hvalue).trans horder

/-- What a name that a result gets stands for once all results have their columns: a variable that
has one, or else the last result that gets the name. -/
theorem Staged.existing?_of_setter (st : q.Staged config) {name : String} {j column : Nat}
    (hj : IsGreatest (ProjectionElem.setters q.projection name) j)
    (hcolumn : st.projection[j]? = some column) :
    st.valued.schema.existing? (.ref name) =
      some ((st.keyed.schema.varColumn? name).getD column) := by
  have hvar : st.valued.schema.varColumn? name = st.keyed.schema.varColumn? name :=
    (st.widens_keyed.varColumn? name).symm
  have hnamed : st.valued.schema.aliasColumn? name = some column := by
    rw [(Plan.aliasColumn?_projectionColumns st.project_eq name).1 j hj, hcolumn]
  rw [Schema.existing?, hvar, hnamed]
  cases st.keyed.schema.varColumn? name <;> rfl

/-- A sort key that is the declared name of a result. If a variable of the pattern has this name and
still has a column, the rows are put in order by the variable. Otherwise they are put in order by
the column that is projected for the last result that gets the name, as its text or because it is
declared. -/
theorem plan_sorts_by_named_result (h : q.plan config = .ok p) {i : Nat} {key : OrderElem}
    {name : String} (hkey : q.orderBy[i]? = some key) (href : key.expr = .ref name)
    (hname : ∃ elem ∈ q.projection, elem.name = some name) :
    ∃ s projection orderBy input j column, PlannerState.start q = .ok s ∧
      Point.Visited config q s (.ordered projection input) ∧
      (p.root.layers .project).map PlanNode.op = [.project projection] ∧
      (p.root.layers .sort).map PlanNode.op = [.sort orderBy] ∧ input.root.op = .sort orderBy ∧
      IsGreatest (ProjectionElem.setters q.projection name) j ∧ orderBy[i]? = some column ∧
      (q.KeepsVariable name → input.schema.varColumn? name = some column) ∧
      (¬ q.KeepsVariable name → projection[j]? = some column) := by
  obtain ⟨st, rfl⟩ := exists_staged h
  obtain ⟨elem, helem, hdeclared⟩ := hname
  have hresults : q.projection ≠ [] := List.ne_nil_of_mem helem
  have hkeys : q.orderBy ≠ [] := List.ne_nil_of_mem (List.mem_of_getElem? hkey)
  have hcolumns : st.orderBy ≠ [] := by
    rw [← List.length_pos_iff, st.length_orderBy]
    exact List.length_pos_iff.2 hkeys
  obtain ⟨j, hj⟩ := ProjectionElem.exists_isGreatest_setters ⟨elem, helem, Or.inl hdeclared⟩
  have hlt : j < st.projection.length := by
    rw [st.length_projection]
    exact ProjectionElem.lt_length_of_mem_setters hj.1
  obtain ⟨column, hcolumn⟩ : ∃ column, st.projection[j]? = some column :=
    ⟨_, List.getElem?_eq_getElem hlt⟩
  have hstands := st.existing?_of_setter hj hcolumn
  refine ⟨st.state, st.projection, st.orderBy, st.keyed.sorted st.orderBy, j, _, st.start_eq,
    st.visited_ordered, ?_, ?_, ?_, hj,
    Plan.getElem?_orderColumns_of_ref st.order_eq hstands hkey href, ?_, ?_⟩
  · rw [st.layers_project hresults]
    rfl
  · rw [st.layers_sort hkeys]
    rfl
  · rw [Plan.sorted, if_neg hcolumns]
    rfl
  · intro hkeeps
    obtain ⟨c, hc⟩ := Option.isSome_iff_exists.1 (st.hasVariable_keyed_iff.2 hkeeps)
    rw [Plan.schema_sorted, hc]
    rfl
  · intro hdrops
    have hnone : st.keyed.schema.varColumn? name = none := by
      rw [← Option.not_isSome_iff_eq_none]
      exact mt st.hasVariable_keyed_iff.1 hdrops
    rw [hnone, Option.getD_none, hcolumn]

/-- A count with the name of a variable that the rows are not grouped by. -/
theorem plan_sorts_by_named_result_of_dropped_variable :
    let q : Query := { Query.empty with
      vertices := [⟨"n", false⟩]
      groupBy := [⟨.prop "n" "age", "a"⟩]
      projection := [⟨.ref "a", none⟩, ⟨.aggregateAll .count, some "n"⟩]
      orderBy := [⟨.ref "n", true⟩] }
    q.HasName "n" ∧ ¬ q.KeepsVariable "n" ∧ (∃ elem ∈ q.projection, elem.name = some "n") ∧
    ∃ p s projection orderBy input j column, q.plan Config.default = .ok p ∧
      PlannerState.start q = .ok s ∧
      Point.Visited Config.default q s (.ordered projection input) ∧
      (p.root.layers .project).map PlanNode.op = [.project projection] ∧
      (p.root.layers .sort).map PlanNode.op = [.sort orderBy] ∧ input.root.op = .sort orderBy ∧
      IsGreatest (ProjectionElem.setters q.projection "n") j ∧ orderBy[0]? = some column ∧
      projection[j]? = some column := by
  intro q
  have hname : q.HasName "n" := by simp [q, HasName]
  have hdrops : ¬ q.KeepsVariable "n" := by
    rintro ⟨-, hnot | ⟨key, hkey, href⟩⟩
    · simp [q, asksFor] at hnot
    · cases List.mem_singleton.1 hkey
      cases href
  have hdeclared : ∃ elem ∈ q.projection, elem.name = some "n" := ⟨_, .tail _ (.head _), rfl⟩
  obtain ⟨p, hp⟩ : ∃ p, q.plan Config.default = .ok p := ⟨_, rfl⟩
  obtain ⟨s, projection, orderBy, input, j, column, hs, hvisited, hproject, hsort, hinput, hj,
    horder, -, hcolumn⟩ := plan_sorts_by_named_result hp (i := 0) rfl rfl hdeclared
  exact ⟨hname, hdrops, hdeclared, p, s, projection, orderBy, input, j, column, hp, hs, hvisited,
    hproject, hsort, hinput, hj, horder, hcolumn hdrops⟩

/-- An age that is declared under the name of the variable, and one that is declared under the text
of another result. The rows are put in order by the variable, and by the other result. -/
theorem plan_sorts_by_variable_or_text_of_same_name :
    let byVariable : Query := { Query.empty with
      vertices := [⟨"n", false⟩]
      projection := [⟨.prop "n" "age", some "n"⟩]
      orderBy := [⟨.ref "n", true⟩] }
    let byText : Query := { Query.empty with
      vertices := [⟨"n", false⟩]
      projection := [⟨.prop "n" "age", some "n.name"⟩, ⟨.prop "n" "name", none⟩]
      orderBy := [⟨.ref "n.name", true⟩] }
    (∃ p, byVariable.plan Config.default = .ok p ∧
      (p.root.layers .project).map PlanNode.op = [.project [1]] ∧
      (p.root.layers .sort).map PlanNode.op = [.sort [0]]) ∧
    ∃ p, byText.plan Config.default = .ok p ∧
      (p.root.layers .project).map PlanNode.op = [.project [1, 2]] ∧
      (p.root.layers .sort).map PlanNode.op = [.sort [2]] := by
  intro byVariable byText
  exact ⟨⟨_, rfl, rfl, rfl⟩, _, rfl, rfl, rfl⟩

end Query

end GraphPlan
