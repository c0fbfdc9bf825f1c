import GraphPlan.Planner.Basic
import GraphPlan.Proofs.Json.Decoding
import GraphPlan.Proofs.Planner.Similar

/-!
# Queries are decoded from their texts

Every part of a query is read back from what is written for it. For an expression this is an
induction over its parts, each of which stands one level further in; a decimal has to be finite,
since the others have no numeral and are written as `null`. Together with the spelling of documents
it follows that a query is decoded from its text if the document does not nest too deep.
-/

namespace GraphPlan

open Json

/-! ## Names of operators and functions -/

@[simp]
theorem BinaryOp.lookup_jsonName (op : BinaryOp) : jsonNames.lookup op.jsonName = some op := by
  cases op with
  | compare c => cases c <;> rfl
  | _ => rfl

@[simp]
theorem UnaryOp.lookup_jsonName (op : UnaryOp) : jsonNames.lookup op.jsonName = some op := by
  cases op <;> rfl

@[simp]
theorem AggregateKind.lookup_jsonName (kind : AggregateKind) :
    jsonNames.lookup kind.jsonName = some kind := by
  cases kind <;> rfl

@[simp]
theorem Builtin.lookup_jsonName (func : Builtin) :
    jsonNames.lookup func.jsonName = some func := by
  cases func <;> rfl

/-! ## Expressions -/

namespace Expr

variable {inner : Bool} {depth : Nat}

section Tagged

variable {tag : String} {kind : Kind} {fields : List (String × Json)} {e : Expr}

theorem tagged_ofFields (hkind : kindNames.lookup tag = some kind)
    (hnames : ((("kind", ofString tag) :: fields).map Prod.fst).Nodup) :
    tagged inner (ofFields (("kind", ofString tag) :: fields)) =
      some (kind, ofFields (("kind", ofString tag) :: fields)) := by
  have htag : kindOfTag inner (ofString tag) = some kind := by
    show (ofString tag).text?.bind _ = _
    rw [text?_ofString, Option.bind_some, hkind]
  rw [ofFields, tagged, namedFields_ofFields, Option.bind_eq_bind, Option.bind_some,
    slot_eq_lookup hnames, List.lookup_cons_self]
  show (kindOfTag inner (ofString tag)).bind _ = _
  rw [htag]
  rfl

/-- An object with a tag is read as an expression of the kind that the tag names. -/
theorem read_ofFields (hkind : kindNames.lookup tag = some kind)
    (hnames : ((("kind", ofString tag) :: fields).map Prod.fst).Nodup)
    (hparts : readParts depth (read depth true) (readList depth) kind
      (ofFields (("kind", ofString tag) :: fields)) = some e) :
    read (depth + 1) inner (ofFields (("kind", ofString tag) :: fields)) = some e := by
  rw [read, tagged_ofFields hkind hnames]
  exact hparts

end Tagged

/-- An expression is written as an object. -/
theorem exists_toJson_eq (e : Expr) : ∃ fields, e.toJson = ofFields fields := by
  cases e <;> exact ⟨_, by rw [toJson]⟩

theorem listToJson_eq_map (es : List Expr) : listToJson es = es.map toJson := by
  induction es with
  | nil => rw [listToJson, List.map_nil]
  | cons e es ih => rw [listToJson, ih, List.map_cons]

mutual

/-- An expression whose decimals are finite is read back, wherever it stands. -/
theorem decodes_read (inner : Bool) (e : Expr)
    (h : ∀ v, Datum.decimal v ∈ e.data → v.isFinite = true) :
    Decodes (fun depth => read depth inner) e.toJson e := by
  intro depth hdepth
  obtain ⟨fields, hfields⟩ := e.exists_toJson_eq
  obtain ⟨depth, rfl, -⟩ := exists_depth_ofFields (hfields ▸ hdepth)
  dsimp only
  cases e with
  | ref | prop | int | str | bool | null | aggregateAll | hasLabel | labelOf =>
    rw [toJson]
    refine read_ofFields rfl (by simp) ?_
    rw [readParts]
    simp [List.lookup_cons]
  | decimal value =>
    have hfinite : value.isFinite = true := h value (by simp [data, parts, datum?])
    rw [toJson]
    refine read_ofFields rfl (by simp) ?_
    rw [readParts]
    simp [List.lookup_cons, Reader.binary64_ofBinary64, hfinite]
  | binary op lhs rhs =>
    rw [data_binary] at h
    simp only [toJson, nesting_ofFields_le_succ, List.forall_mem_cons] at hdepth
    obtain ⟨-, -, hlhs, hrhs, -⟩ := hdepth
    have hl := decodes_read true lhs (fun v hv => h v (List.mem_append_left _ hv)) depth hlhs
    have hr := decodes_read true rhs (fun v hv => h v (List.mem_append_right _ hv)) depth hrhs
    rw [toJson]
    refine read_ofFields rfl (by simp) ?_
    rw [readParts]
    simp [List.lookup_cons, hl, hr]
  | unary op operand =>
    rw [data_unary] at h
    simp only [toJson, nesting_ofFields_le_succ, List.forall_mem_cons] at hdepth
    obtain ⟨-, -, hoperand, -⟩ := hdepth
    have hread := decodes_read true operand h depth hoperand
    rw [toJson]
    refine read_ofFields rfl (by simp) ?_
    rw [readParts]
    simp [List.lookup_cons, hread]
  | aggregate kind arg =>
    rw [data_aggregate] at h
    simp only [toJson, nesting_ofFields_le_succ, List.forall_mem_cons] at hdepth
    obtain ⟨-, -, harg, -⟩ := hdepth
    have hread := decodes_read true arg h depth harg
    -- an argument is an object and thus not the `null` of a missing one
    obtain ⟨parts, hparts⟩ := arg.exists_toJson_eq
    obtain ⟨fields, hobj⟩ : ∃ fields, arg.toJson = .obj fields := ⟨_, hparts⟩
    rw [hobj] at hread
    rw [toJson, hobj]
    refine read_ofFields rfl (by simp) ?_
    rw [readParts]
    simp [List.lookup_cons, hread]
  | call func args =>
    rw [data_call] at h
    simp only [toJson, nesting_ofFields_le_succ, List.forall_mem_cons] at hdepth
    obtain ⟨-, -, hargs, -⟩ := hdepth
    rw [listToJson_eq_map] at hargs
    obtain ⟨depth, rfl, hitems⟩ := exists_depth_arr hargs
    have hread : readList (depth + 1) (.arr (listToJson args)) = some args := by
      rw [listToJson_eq_map, readList]
      exact mapM_map_eq_some fun arg harg =>
        decodes_readList args h arg harg depth (hitems _ (List.mem_map_of_mem harg))
    rw [toJson]
    refine read_ofFields rfl (by simp) ?_
    rw [readParts]
    simp [List.lookup_cons, hread]

theorem decodes_readList (es : List Expr)
    (h : ∀ v, Datum.decimal v ∈ (partsList es).filterMap datum? → v.isFinite = true) :
    ∀ e ∈ es, Decodes (fun depth => read depth true) e.toJson e := by
  cases es with
  | nil => simp
  | cons e es =>
    rw [partsList, List.filterMap_append] at h
    exact List.forall_mem_cons.2
      ⟨decodes_read true e fun v hv => h v (List.mem_append_left _ hv),
        decodes_readList es fun v hv => h v (List.mem_append_right _ hv)⟩

end

mutual

theorem spelled_toJson (e : Expr) : e.toJson.Spelled := by
  cases e with
  | ref | prop | int | decimal | str | bool | null | aggregateAll | hasLabel | labelOf =>
    rw [toJson]
    exact spelled_ofFields (by simp)
  | binary op lhs rhs =>
    rw [toJson]
    exact spelled_ofFields (by simp [spelled_toJson lhs, spelled_toJson rhs])
  | unary op operand =>
    rw [toJson]
    exact spelled_ofFields (by simp [spelled_toJson operand])
  | aggregate kind arg =>
    rw [toJson]
    exact spelled_ofFields (by simp [spelled_toJson arg])
  | call func args =>
    have hargs : (Json.arr (listToJson args)).Spelled := .arr (spelled_listToJson args)
    rw [toJson]
    exact spelled_ofFields (by simp [hargs])

theorem spelled_listToJson (es : List Expr) : ∀ j ∈ listToJson es, j.Spelled := by
  cases es with
  | nil => simp [listToJson]
  | cons e es =>
    rw [listToJson]
    exact List.forall_mem_cons.2 ⟨spelled_toJson e, spelled_listToJson es⟩

end

/-- An expression whose decimals are finite is decoded from its document. -/
theorem decodes_toJson {e : Expr} (h : ∀ v, Datum.decimal v ∈ e.data → v.isFinite = true) :
    Decodes reader e.toJson e := by
  intro depth hdepth
  rw [reader, if_pos (e.spelled_toJson.readable hdepth)]
  exact decodes_read false e h depth hdepth

theorem exists_reader_eq {e : Expr} (h : ∀ v, Datum.decimal v ∈ e.data → v.isFinite = true)
    {fields : List (String × Json)}
    (hdepth : (ofFields (("expr", e.toJson) :: fields)).nesting ≤ depth) :
    ∃ d, depth = d + 1 ∧ reader d e.toJson = some e := by
  obtain ⟨d, rfl, hfields⟩ := exists_depth_ofFields hdepth
  exact ⟨d, rfl, decodes_toJson h d (List.forall_mem_cons.1 hfields).1⟩

end Expr

/-! ## Parts of a query -/

namespace PatternVar

@[simp]
theorem spelled_toJson (v : PatternVar) : v.toJson.Spelled :=
  spelled_ofFields (by simp)

theorem decodes_toJson (v : PatternVar) : Decodes reader v.toJson v := by
  intro depth hdepth
  obtain ⟨depth, rfl, -⟩ := exists_depth_ofFields hdepth
  rw [reader, toJson]
  simp [List.lookup_cons]

end PatternVar

namespace Connection

theorem spelled_toJson (c : Connection) : c.toJson.Spelled :=
  spelled_ofFields (by simp)

theorem decodes_toJson (c : Connection) : Decodes reader c.toJson c := by
  intro depth hdepth
  obtain ⟨depth, rfl, hfields⟩ := exists_depth_ofFields hdepth
  simp only [List.forall_mem_cons] at hfields
  obtain ⟨hsrc, hdst, hedge, -⟩ := hfields
  rw [reader, toJson]
  simp [List.lookup_cons, c.src.decodes_toJson depth hsrc, c.dst.decodes_toJson depth hdst,
    c.edge.decodes_toJson depth hedge]

end Connection

namespace GroupKey

theorem spelled_toJson (k : GroupKey) : k.toJson.Spelled :=
  spelled_ofFields (by simp [k.expr.spelled_toJson])

theorem decodes_toJson {k : GroupKey}
    (h : ∀ v, Datum.decimal v ∈ k.expr.data → v.isFinite = true) : Decodes reader k.toJson k := by
  intro depth hdepth
  obtain ⟨depth, rfl, hexpr⟩ := Expr.exists_reader_eq h hdepth
  rw [reader, toJson]
  simp [List.lookup_cons, hexpr]

end GroupKey

namespace ProjectionElem

theorem spelled_toJson (e : ProjectionElem) : e.toJson.Spelled :=
  spelled_ofFields (by simp [e.expr.spelled_toJson, spelled_ofOption])

theorem decodes_toJson {e : ProjectionElem}
    (h : ∀ v, Datum.decimal v ∈ e.expr.data → v.isFinite = true) : Decodes reader e.toJson e := by
  intro depth hdepth
  obtain ⟨depth, rfl, hexpr⟩ := Expr.exists_reader_eq h hdepth
  rw [reader, toJson]
  simp [List.lookup_cons, hexpr]

end ProjectionElem

namespace OrderElem

theorem spelled_toJson (e : OrderElem) : e.toJson.Spelled :=
  spelled_ofFields (by simp [e.expr.spelled_toJson])

theorem decodes_toJson {e : OrderElem}
    (h : ∀ v, Datum.decimal v ∈ e.expr.data → v.isFinite = true) : Decodes reader e.toJson e := by
  intro depth hdepth
  obtain ⟨depth, rfl, hexpr⟩ := Expr.exists_reader_eq h hdepth
  rw [reader, toJson]
  simp [List.lookup_cons, hexpr]

end OrderElem

/-! ## Queries -/

namespace Query

variable {q : Query}

theorem spelled_toJson (q : Query) : q.toJson.Spelled := by
  have hvertices := spelled_arr_map fun v (_ : v ∈ q.vertices) => v.spelled_toJson
  have hconnections := spelled_arr_map fun c (_ : c ∈ q.connections) => c.spelled_toJson
  have hconstraints := spelled_arr_map fun e (_ : e ∈ q.constraints) => e.spelled_toJson
  have hkeys := spelled_arr_map fun k (_ : k ∈ q.groupBy) => k.spelled_toJson
  have hresults := spelled_arr_map fun e (_ : e ∈ q.projection) => e.spelled_toJson
  have horder := spelled_arr_map fun e (_ : e ∈ q.orderBy) => e.spelled_toJson
  refine spelled_ofFields ?_
  simp only [List.forall_mem_cons]
  exact ⟨hvertices, hconnections, hconstraints, hkeys, hresults, horder,
    spelled_ofOption spelled_uint64 _, spelled_ofOption spelled_uint64 _, by simp⟩

/-- A query whose decimals are finite is decoded from its document. -/
theorem decodes_toJson (h : ∀ v, Datum.decimal v ∈ q.data → v.isFinite = true) :
    Decodes reader q.toJson q := by
  have hexprs : ∀ e ∈ q.exprs, ∀ v, Datum.decimal v ∈ e.data → v.isFinite = true :=
    fun e he v hv => h v (List.mem_flatMap.2 ⟨e, he, hv⟩)
  simp only [exprs, List.forall_mem_append, List.forall_mem_map] at hexprs
  obtain ⟨hconstraints, hkeys, hresults, horder⟩ := hexprs
  intro depth hdepth
  obtain ⟨depth, rfl, hfields⟩ := exists_depth_ofFields hdepth
  simp only [List.forall_mem_cons] at hfields
  obtain ⟨hv, hc, he, hk, hp, ho, -⟩ := hfields
  have hvertices := decodes_list (fun v _ => v.decodes_toJson) depth hv
  have hconnections := decodes_list (fun c _ => c.decodes_toJson) depth hc
  have hconstraints := decodes_list (fun e he => Expr.decodes_toJson (hconstraints e he)) depth he
  have hkeys := decodes_list (fun k hk => GroupKey.decodes_toJson (hkeys k hk)) depth hk
  have hresults := decodes_list (fun e he => ProjectionElem.decodes_toJson (hresults e he)) depth hp
  have horder := decodes_list (fun e he => OrderElem.decodes_toJson (horder e he)) depth ho
  rw [reader, toJson]
  simp [fieldNames, List.lookup_cons, hvertices, hconnections, hconstraints, hkeys, hresults,
    horder]

end Query

end GraphPlan
