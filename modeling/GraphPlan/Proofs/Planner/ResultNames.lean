import GraphPlan.Proofs.Planner.AggregateReads
import GraphPlan.Proofs.Schema.Renumbering
import Mathlib.Order.Bounds.Basic

/-!
# Names of results

Every result of a query has its text as a name, and the name that is declared for it. A name that
several results get belongs to the last of them (`aliasColumn?_projectionColumns`). Sort keys add
columns behind those of the results, and at the end the columns are renumbered. The names go along
(`Query.plan_names_results`).

`Query.Staged` takes a successful planning apart: it holds the plans and the columns that the stages
gave, with what is known about them.
-/

namespace GraphPlan

/-! ## Who gets a name -/

namespace ProjectionElem

/-- A result gets a name: as its text, or because it is declared. -/
def Sets (elem : ProjectionElem) (name : String) : Prop :=
  elem.name = some name ∨ elem.expr.text = name

/-- The places of the results that get a name. -/
def setters (elems : List ProjectionElem) (name : String) : Set Nat :=
  {i | ∃ elem, elems[i]? = some elem ∧ elem.Sets name}

variable {elem : ProjectionElem} {elems : List ProjectionElem} {name : String} {i : Nat}

theorem zero_mem_setters : 0 ∈ setters (elem :: elems) name ↔ elem.Sets name := by
  simp [setters]

theorem succ_mem_setters : i + 1 ∈ setters (elem :: elems) name ↔ i ∈ setters elems name :=
  Iff.rfl

theorem lt_length_of_mem_setters (h : i ∈ setters elems name) : i < elems.length := by
  obtain ⟨elem, helem, -⟩ := h
  exact (List.getElem?_eq_some_iff.1 helem).1

/-- The last result that gets a name is the first one of a list, and the others do not get it, or it
is the last one among the others. -/
theorem isGreatest_setters_cons (h : IsGreatest (setters (elem :: elems) name) i) :
    (i = 0 ∧ elem.Sets name ∧ ∀ e ∈ elems, ¬ e.Sets name) ∨
      ∃ k, i = k + 1 ∧ IsGreatest (setters elems name) k := by
  obtain ⟨hmem, hmax⟩ := h
  cases i with
  | zero =>
    refine Or.inl ⟨rfl, zero_mem_setters.1 hmem, ?_⟩
    intro e he hsets
    obtain ⟨k, hk⟩ := List.mem_iff_getElem?.1 he
    have hle : k + 1 ≤ 0 := hmax (succ_mem_setters.2 ⟨e, hk, hsets⟩)
    omega
  | succ k =>
    refine Or.inr ⟨k, rfl, succ_mem_setters.1 hmem, ?_⟩
    intro m hm
    have hle : m + 1 ≤ k + 1 := hmax (succ_mem_setters.2 hm)
    omega

theorem exists_isGreatest_setters (h : ∃ elem ∈ elems, elem.Sets name) :
    ∃ i, IsGreatest (setters elems name) i := by
  induction elems with
  | nil =>
    obtain ⟨elem, helem, -⟩ := h
    cases helem
  | cons elem elems ih =>
    by_cases hrest : ∃ e ∈ elems, e.Sets name
    · obtain ⟨k, hmem, hmax⟩ := ih hrest
      refine ⟨k + 1, succ_mem_setters.2 hmem, ?_⟩
      intro m hm
      cases m with
      | zero => omega
      | succ m =>
        have hle : m ≤ k := hmax (succ_mem_setters.1 hm)
        omega
    · have hfirst : elem.Sets name := by
        obtain ⟨e, he, hsets⟩ := h
        rcases List.mem_cons.1 he with rfl | he
        · exact hsets
        · exact absurd ⟨e, he, hsets⟩ hrest
      refine ⟨0, zero_mem_setters.2 hfirst, ?_⟩
      intro m hm
      cases m with
      | zero => omega
      | succ m =>
        obtain ⟨e, he, hsets⟩ := succ_mem_setters.1 hm
        exact absurd ⟨e, List.mem_of_getElem? he, hsets⟩ hrest

end ProjectionElem

/-! ## Columns one by one -/

namespace Plan

variable {config : Config} {p p' : Plan} {columns : List Nat}

/-- The first of several columns, and the others. -/
theorem columns_cons_eq_ok {α : Type} {f : α → PlanM Nat} {g : List α → PlanM (List Nat)}
    (hcons : ∀ a as, g (a :: as) = f a >>= fun i => g as >>= fun is => pure (i :: is)) {a : α}
    {as : List α} (h : PlanM.exec (g (a :: as)) p = .ok (columns, p')) :
    ∃ i p₁ is, PlanM.exec (f a) p = .ok (i, p₁) ∧ PlanM.exec (g as) p₁ = .ok (is, p') ∧
      columns = i :: is := by
  rw [hcons, PlanM.exec_bind] at h
  obtain ⟨⟨i, p₁⟩, hfirst, h⟩ := eq_ok_of_bind_eq_ok h
  rw [PlanM.exec_bind] at h
  obtain ⟨⟨is, p₂⟩, hrest, h⟩ := eq_ok_of_bind_eq_ok h
  cases h
  exact ⟨i, p₁, is, hfirst, hrest, rfl⟩

/-- A name stands for the column of the last result that gets it, and for what it stood for if there
is none. -/
theorem aliasColumn?_projectionColumns {elems : List ProjectionElem}
    (h : PlanM.exec (projectionColumns config elems) p = .ok (columns, p')) (name : String) :
    (∀ i, IsGreatest (ProjectionElem.setters elems name) i →
        p'.schema.aliasColumn? name = columns[i]?) ∧
      ((∀ elem ∈ elems, ¬ elem.Sets name) →
        p'.schema.aliasColumn? name = p.schema.aliasColumn? name) := by
  induction elems generalizing p columns with
  | nil =>
    cases h
    refine ⟨?_, fun _ => rfl⟩
    intro i hi
    have hlt := ProjectionElem.lt_length_of_mem_setters hi.1
    simp at hlt
  | cons elem elems ih =>
    obtain ⟨c, p₁, cs, hfirst, hrest, rfl⟩ := columns_cons_eq_ok projectionColumns_cons h
    obtain ⟨hlast, hnone⟩ := ih hrest
    have hname := (projectionColumn_eq_ok hfirst).1 name
    constructor
    · intro i hi
      rcases ProjectionElem.isGreatest_setters_cons hi with ⟨rfl, hsets, hothers⟩ | ⟨k, rfl, hk⟩
      · have hsets : elem.name = some name ∨ elem.expr.text = name := hsets
        rw [hnone hothers, hname, if_pos hsets, List.getElem?_cons_zero]
      · rw [hlast k hk, List.getElem?_cons_succ]
    · intro hothers
      have hfirst : ¬ (elem.name = some name ∨ elem.expr.text = name) :=
        hothers elem List.mem_cons_self
      rw [hnone fun e he => hothers e (List.mem_cons_of_mem elem he), hname, if_neg hfirst]

/-- Sort keys declare no names. -/
theorem aliasColumn?_orderColumns {elems : List OrderElem}
    (h : PlanM.exec (orderColumns config elems) p = .ok (columns, p')) (name : String) :
    p'.schema.aliasColumn? name = p.schema.aliasColumn? name := by
  induction elems generalizing p columns with
  | nil =>
    cases h
    rfl
  | cons elem elems ih =>
    obtain ⟨c, p₁, cs, hfirst, hrest, rfl⟩ := columns_cons_eq_ok orderColumns_cons h
    rw [ih hrest]
    unfold orderColumn at hfirst
    split at hfirst
    · cases hfirst
    · exact (materialize_eq_ok hfirst).1 name

@[simp]
theorem schema_slice (p : Plan) (offset limit : Option UInt64) :
    (p.slice offset limit).schema = p.schema := by
  unfold slice
  split <;> rfl

end Plan

/-! ## The stages of planning -/

/-- What the stages of planning a query give. -/
structure Query.Staged (config : Config) (q : Query) where
  /-- The pattern, split into components. -/
  state : PlannerState
  start_eq : PlannerState.start q = .ok state
  /-- The plan that finds the matches. -/
  found : Plan
  visited_found : Point.Visited config q state (.matched found)
  /-- The columns of the grouping keys. -/
  groupBy : List Nat
  /-- The plan before grouping, with the aggregates. -/
  gathered : Extraction
  gather_eq : Plan.gather config q found = .ok (groupBy, gathered)
  before : Plan.Gathered config q found groupBy gathered
  visited_gathered : Point.Visited config q state (.collecting groupBy [] gathered)
  /-- The columns of the results. -/
  projection : List Nat
  /-- The plan with these columns. -/
  valued : Plan
  project_eq : PlanM.exec (Plan.projectionColumns config q.projection)
    (gathered.plan.grouped groupBy gathered.aggregates) = .ok (projection, valued)
  widens_valued :
    Plan.Widens config (gathered.plan.grouped groupBy gathered.aggregates) valued
  length_projection : projection.length = q.projection.length
  /-- The columns of the sort keys. -/
  orderBy : List Nat
  /-- The plan with these columns, too. -/
  keyed : Plan
  order_eq : PlanM.exec (Plan.orderColumns config q.orderBy) valued = .ok (orderBy, keyed)
  widens_keyed : Plan.Widens config valued keyed
  length_orderBy : orderBy.length = q.orderBy.length
  valid_keyed : keyed.schema.Valid
  projection_lt : ∀ i ∈ projection, i < keyed.schema.width

/-- The plan that comes out. -/
def Query.Staged.result {config : Config} {q : Query} (st : q.Staged config) : Plan :=
  ((st.keyed.sorted st.orderBy).projected st.projection).slice q.offset q.limit

theorem Query.exists_staged {config : Config} {q : Query} {p : Plan} (h : q.plan config = .ok p) :
    ∃ st : q.Staged config, p = st.result := by
  obtain ⟨s, m, groupBy, x, hs, hm, hgather, hmatched, hgathered, -⟩ := exists_visited h
  have hvalid : m.schema.Valid := by
    cases Point.good_of_visited hs hmatched with
    | matched hpattern => exact hpattern.ofPattern.valid
  have hbefore := (Plan.meets_gather q hvalid).result hgather
  have hgrouped := Plan.valid_grouped x.aggregates (hbefore.widens.keeps.valid hvalid)
    hbefore.groupBy_lt
  have hpresent : Plan.present config q groupBy x = .ok p := by
    have hfinish : q.matchPlan config >>= Plan.finish config q = .ok p := h
    rw [hm, ok_bind, Plan.finish_eq, hgather] at hfinish
    exact hfinish
  unfold Plan.present at hpresent
  rw [Plan.exec_group x.aggregates hbefore.groupBy_lt] at hpresent
  simp only [atStage_ok, ok_bind] at hpresent
  obtain ⟨⟨projection, p₁⟩, hproject, hpresent⟩ := eq_ok_of_atStage_bind_eq_ok hpresent
  obtain ⟨⟨u, p₂⟩, hsort, hpresent⟩ := eq_ok_of_atStage_bind_eq_ok hpresent
  rw [Plan.exec_order] at hsort
  obtain ⟨⟨orderBy, p₃⟩, horder, hsorted⟩ := eq_ok_of_bind_eq_ok hsort
  cases hsorted
  obtain ⟨hwidens, hlength, hlt⟩ := (Plan.meets_projectionColumns q.projection hgrouped
    fun elem helem => Plan.ready_grouped (hbefore.projection elem helem)).result hproject
  have hready : ∀ elem ∈ q.orderBy, elem.expr.Ready p₁.schema := by
    intro elem helem
    exact (Plan.ready_grouped (hbefore.orderBy elem helem)).keeps hwidens.keeps
  obtain ⟨hwidens', hlength', -⟩ := (Plan.meets_orderColumns q.orderBy
    (hwidens.keeps.valid hgrouped) hready).result horder
  have hlt' : ∀ i ∈ projection, i < p₃.schema.width := by
    intro i hi
    exact Nat.lt_of_lt_of_le (hlt i hi) hwidens'.keeps.width_le
  rw [Plan.exec_project (by rwa [Plan.schema_sorted])] at hpresent
  cases hpresent
  exact ⟨{
    state := s, start_eq := hs, found := m, visited_found := hmatched, groupBy := groupBy
    gathered := x, gather_eq := hgather, before := hbefore, visited_gathered := hgathered
    projection := projection, valued := p₁, project_eq := hproject, widens_valued := hwidens
    length_projection := hlength, orderBy := orderBy, keyed := p₃, order_eq := horder
    widens_keyed := hwidens', length_orderBy := hlength'
    valid_keyed := hwidens'.keeps.valid (hwidens.keeps.valid hgrouped)
    projection_lt := hlt' }, rfl⟩

namespace Query.Staged

variable {config : Config} {q : Query}

/-- Until the results get columns, the only layer is the one of grouping. -/
theorem layers_keyed (st : q.Staged config) {l : Layer} (hl : Layer.group ≠ l) :
    st.keyed.root.layers l = [] := by
  have hfound : st.found.root.layers l = [] := by
    cases Point.good_of_visited st.start_eq st.visited_found with
    | matched hpattern => exact PlanNode.layers_eq_nil hpattern.accounts.layer? l
  rw [st.widens_keyed.layers_eq, st.widens_valued.layers_eq, (Plan.puts_grouped ..).layers_eq hl,
    st.before.widens.layers_eq, hfound]

/-- The projection of a plan keeps the columns of the results. -/
theorem layers_project (st : q.Staged config) (hne : q.projection ≠ []) :
    st.result.root.layers .project =
      [.node (.project st.projection) [(st.keyed.sorted st.orderBy).root]] := by
  have hcolumns : st.projection ≠ [] := by
    rw [← List.length_pos_iff, st.length_projection]
    exact List.length_pos_iff.2 hne
  have hsorted : (st.keyed.sorted st.orderBy).root.layers .project = [] := by
    rw [(Plan.puts_sorted ..).layers_eq (by simp), st.layers_keyed (by simp)]
  rw [result, (Plan.puts_slice ..).layers_eq (by simp), Plan.projected, if_neg hcolumns]
  exact (PlanNode.layers_unary ..).trans (by rw [hsorted]; rfl)

/-- The rows of a plan are put in order by the columns of the sort keys. -/
theorem layers_sort (st : q.Staged config) (hne : q.orderBy ≠ []) :
    st.result.root.layers .sort = [.node (.sort st.orderBy) [st.keyed.root]] := by
  have hcolumns : st.orderBy ≠ [] := by
    rw [← List.length_pos_iff, st.length_orderBy]
    exact List.length_pos_iff.2 hne
  rw [result, (Plan.puts_slice ..).layers_eq (by simp),
    (Plan.puts_projected ..).layers_eq (by simp), Plan.sorted, if_neg hcolumns]
  exact (PlanNode.layers_unary ..).trans (by rw [st.layers_keyed (by simp)]; rfl)

/-- Projected columns are renumbered. -/
theorem schema_eq (st : q.Staged config) (hne : q.projection ≠ []) :
    st.result.schema = st.keyed.schema.reduced st.projection := by
  have hcolumns : st.projection ≠ [] := by
    rw [← List.length_pos_iff, st.length_projection]
    exact List.length_pos_iff.2 hne
  rw [result, Plan.schema_slice, Plan.projected, if_neg hcolumns]
  show (st.keyed.sorted st.orderBy).schema.reduced st.projection = _
  rw [Plan.schema_sorted]

/-- Before that, a name stands for the column of the last result that gets it. -/
theorem aliasColumn?_keyed (st : q.Staged config) {name : String} {i : Nat}
    (hi : IsGreatest (ProjectionElem.setters q.projection name) i) :
    st.keyed.schema.aliasColumn? name = st.projection[i]? := by
  rw [Plan.aliasColumn?_orderColumns st.order_eq]
  exact (Plan.aliasColumn?_projectionColumns st.project_eq name).1 i hi

end Query.Staged

/-! ## The names at the end -/

/-- The first place at which a position is listed. -/
theorem isLeast_of_idxOf? {columns : List Nat} {i j c : Nat} (hi : columns[i]? = some c)
    (hj : columns.idxOf? c = some j) : IsLeast {k | columns[k]? = columns[i]?} j := by
  obtain ⟨hlt, heq, hbefore⟩ := List.idxOf?_eq_some_iff.1 hj
  constructor
  · show columns[j]? = columns[i]?
    rw [hi, List.getElem?_eq_getElem hlt, heq]
  · intro k hk
    by_contra hkj
    have hk : columns[k]? = some c := hk.trans hi
    obtain ⟨hklt, hkc⟩ := List.getElem?_eq_some_iff.1 hk
    exact absurd hkc (hbefore k (by omega))

namespace Query

variable {config : Config} {q : Query} {p : Plan}

/-- A plan with a projection has one column for each result. A name that some result gets, as its
text or because it is declared, belongs to the last result that gets it, and stands for the first
column that is the one of this result. No other name stands for a column that does not exist. -/
theorem plan_names_results (h : q.plan config = .ok p) (hne : q.projection ≠ []) :
    ∃ columns, (p.root.layers .project).map PlanNode.op = [.project columns] ∧
      columns.length = q.projection.length ∧ p.schema.columns.length = columns.length ∧
      (∀ name, (∃ elem ∈ q.projection, elem.Sets name) →
        ∃ i j, IsGreatest (ProjectionElem.setters q.projection name) i ∧
          p.schema.aliasColumn? name = some j ∧
          IsLeast {k | columns[k]? = columns[i]?} j) ∧
      ∀ name j, p.schema.aliasColumn? name = some j → j < columns.length := by
  obtain ⟨st, rfl⟩ := exists_staged h
  have hschema := st.schema_eq hne
  have hrenumbers := st.valid_keyed.renumbers_reduced st.projection_lt
  have hwidth : st.result.schema.columns.length = st.projection.length := by
    rw [hschema]
    exact hrenumbers.length_columns
  refine ⟨st.projection, ?_, st.length_projection, hwidth, ?_, ?_⟩
  · rw [st.layers_project hne]
    rfl
  · intro name hname
    obtain ⟨i, hi⟩ := ProjectionElem.exists_isGreatest_setters hname
    have hlt : i < st.projection.length := by
      rw [st.length_projection]
      exact ProjectionElem.lt_length_of_mem_setters hi.1
    have hcolumn : st.projection[i]? = some st.projection[i] := List.getElem?_eq_getElem hlt
    -- the column of the result is projected, so its name is kept
    obtain ⟨j, hj⟩ : ∃ j, st.projection.idxOf? st.projection[i] = some j := by
      rw [← Option.isSome_iff_exists, List.isSome_idxOf?]
      exact List.getElem_mem hlt
    refine ⟨i, j, hi, ?_, isLeast_of_idxOf? hcolumn hj⟩
    rw [hschema, hrenumbers.aliasColumn?_eq, st.aliasColumn?_keyed hi, hcolumn, Option.bind_some,
      hrenumbers.get?_remap, hj]
  · intro name j hj
    rw [hschema] at hj
    have hlt := (Schema.valid_reduced st.projection_lt).alias_lt name j hj
    rwa [Schema.width_reduced st.projection_lt] at hlt

/-- A result that is repeated, a name that is declared twice, and a sort key with a column of its
own. -/
theorem plan_names_results_of_repeated_result :
    let q : Query := { Query.empty with
      vertices := [⟨"n", false⟩]
      projection := [⟨.prop "n" "age", some "x"⟩, ⟨.prop "n" "name", some "x"⟩,
        ⟨.prop "n" "age", none⟩]
      orderBy := [⟨.binary .add (.prop "n" "age") (.int 1), true⟩] }
    q.projection ≠ [] ∧
    ∃ p, q.plan Config.default = .ok p ∧ p.schema.aliasColumn? "x" = some 1 ∧
      p.schema.aliasColumn? "n.age" = some 0 ∧
      ∃ columns, (p.root.layers .project).map PlanNode.op = [.project columns] ∧
        columns.length = q.projection.length ∧ p.schema.columns.length = columns.length ∧
        (∀ name, (∃ elem ∈ q.projection, elem.Sets name) →
          ∃ i j, IsGreatest (ProjectionElem.setters q.projection name) i ∧
            p.schema.aliasColumn? name = some j ∧
            IsLeast {k | columns[k]? = columns[i]?} j) ∧
        ∀ name j, p.schema.aliasColumn? name = some j → j < columns.length := by
  intro q
  have hnames : (q.plan Config.default).toOption.map
      (fun p => (p.schema.aliasColumn? "x", p.schema.aliasColumn? "n.age")) =
        some (some 1, some 0) := by
    decide +kernel
  have hne : q.projection ≠ [] := by simp [q]
  refine ⟨hne, ?_⟩
  cases hp : q.plan Config.default with
  | error f =>
    rw [hp] at hnames
    cases hnames
  | ok p =>
    rw [hp] at hnames
    obtain ⟨hx, hage⟩ := Prod.mk.inj (Option.some.inj hnames)
    exact ⟨p, rfl, hx, hage, plan_names_results hp hne⟩

end Query

end GraphPlan
