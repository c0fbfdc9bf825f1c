import GraphPlan.Proofs.Planner.Match
import GraphPlan.Proofs.Planner.Positions
import GraphPlan.Proofs.Semantics.Models
import Mathlib.Order.Fin.Basic

/-!
# The plan of a pattern yields its matches

Every plan that a derivation builds yields the rows of exactly those assignments that are matches of
what went into it (`PatternPlan.denotes`). The proof is by induction on the derivation, with one
lemma for each of its steps. For a query that asks for nothing but the matches of its pattern, this
says what the plan of the query yields.
-/

namespace GraphPlan

/-- Kinds are given for the columns of variables. -/
def Schema.HasKinds (r : Registry) (kindAt : Nat → Option VariableKind) (s : Schema) : Prop :=
  ∀ i x, s.contents[i]? = some (.var x) → kindAt i = r.kind? x

theorem Schema.HasKinds.left {r : Registry} {kindAt : Nat → Option VariableKind} {s : Schema}
    {cs : List Content} (h : (s.pushAll cs).HasKinds r kindAt) : s.HasKinds r kindAt := by
  intro i x hi
  refine h i x ?_
  rw [contents_pushAll, List.getElem?_append_left (List.getElem?_eq_some_iff.1 hi).1, hi]

theorem Schema.HasKinds.right {r : Registry} {kindAt : Nat → Option VariableKind} {s t : Schema}
    (h : (s.pushAll t.contents).HasKinds r kindAt) :
    t.HasKinds r fun i => kindAt (s.width + i) := by
  intro i x hi
  refine h (s.width + i) x ?_
  rw [contents_pushAll, ← length_contents, List.getElem?_append_right (Nat.le_add_right _ _),
    Nat.add_sub_cancel_left, hi]

variable {Node Edge Atom : Type} [DecidableEq Node] [DecidableEq Edge] [DecidableEq Atom]

/-- A plan yields the rows of the matches of what went into it. -/
def Plan.Denotes (G : PropertyGraph Node Edge Atom) (scope : String) (r : Registry)
    (cs : List Connection) (es : List Expr) (p : Plan) : Prop :=
  ∀ kindAt, p.schema.HasKinds r kindAt → ∀ row, row ∈ p.root.rows G kindAt ↔
    ∃ σ, Models G scope r p.schema cs es σ ∧ row = p.schema.row G scope σ

/-! ## Steps -/

variable {config : Config} {G : PropertyGraph Node Edge Atom} {scope : String} {r : Registry}
  {cs cs' : List Connection} {es es' : List Expr} {n n' : Nat} {p p' : Plan}

namespace Plan

/-- A scan yields the objects that it finds. -/
theorem denotes_scan {op : Operator} {x : String}
    (hop : ∀ σ : String → Object Node Edge, σ x ∈ op.scanned G (r.kind? x) ↔
      r.kind? x = some (σ x).kind ∧
        ∀ e ∈ es, e.eval G scope (fun y => some (σ y)) = some (.bool true)) :
    Denotes G scope r [] es { seed op with schema := Schema.empty.addVariable x } := by
  intro kindAt hkinds row
  have hvar : ∀ y, (Schema.empty.addVariable x).hasVariable y = true ↔ y = x :=
    fun y => PlannerState.hasVariable_addVariable_empty y x
  have hmodels : ∀ σ : String → Object Node Edge,
      Models G scope r (Schema.empty.addVariable x) [] es σ ↔ σ x ∈ op.scanned G (r.kind? x) := by
    intro σ
    rw [hop]
    constructor
    · exact fun hσ => ⟨hσ.kind x ((hvar x).2 rfl), hσ.holds⟩
    · rintro ⟨hkind, hholds⟩
      refine ⟨fun y hy => ?_, nofun, hholds⟩
      rw [(hvar y).1 hy, hkind]
  show row ∈ (PlanNode.leaf op).rows G kindAt ↔ _
  rw [PlanNode.mem_rows_leaf, hkinds 0 x rfl]
  constructor
  · rintro ⟨o, ho, rfl⟩
    exact ⟨fun _ => o, (hmodels _).2 ho, rfl⟩
  · rintro ⟨σ, hσ, rfl⟩
    exact ⟨σ x, (hmodels σ).1 hσ, rfl⟩

/-- An operator that keeps the rows of the assignments with a condition, and may extend them. -/
theorem Denotes.unary (h : p.Denotes G scope r cs es) {op : Operator} {s : Schema}
    {C : (String → Object Node Edge) → Prop}
    (hkinds : ∀ kindAt, s.HasKinds r kindAt → p.schema.HasKinds r kindAt)
    (hexpand : ∀ σ row, row ∈ op.expand G (p.schema.row G scope σ) ↔
      C σ ∧ row = s.row G scope σ)
    (hmodels : ∀ σ, Models G scope r s cs es' σ ↔ Models G scope r p.schema cs es σ ∧ C σ) :
    Denotes G scope r cs es' ⟨.node op [p.root], s⟩ := by
  intro kindAt hk row
  rw [PlanNode.mem_rows_unary]
  constructor
  · rintro ⟨input, hinput, hrow⟩
    obtain ⟨σ, hσ, rfl⟩ := (h kindAt (hkinds kindAt hk) input).1 hinput
    obtain ⟨hC, rfl⟩ := (hexpand σ row).1 hrow
    exact ⟨σ, (hmodels σ).2 ⟨hσ, hC⟩, rfl⟩
  · rintro ⟨σ, hσ, rfl⟩
    obtain ⟨hσ, hC⟩ := (hmodels σ).1 hσ
    exact ⟨_, (h kindAt (hkinds kindAt hk) _).2 ⟨σ, hσ, rfl⟩, (hexpand σ _).2 ⟨hC, rfl⟩⟩

theorem Denotes.fetch (h : p.Denotes G scope r cs es) (hp : p.schema.Valid)
    (hf : Fetch scope p p') : p'.Denotes G scope r cs es := by
  have hvars := hf.hasVariable_iff hp
  have hmodels : ∀ σ : String → Object Node Edge, Models G scope r p'.schema cs es σ ↔
      Models G scope r p.schema cs es σ ∧ True := by
    intro σ
    rw [and_true]
    exact ⟨fun hσ => ⟨fun x hx => hσ.kind x ((hvars x).2 hx), hσ.runs, hσ.holds⟩,
      fun hσ => ⟨fun x hx => hσ.kind x ((hvars x).1 hx), hσ.runs, hσ.holds⟩⟩
  cases hf with
  | attributes hx =>
    refine h.unary (C := fun _ => True) (fun kindAt hk => hk.left) (fun σ row => ?_) hmodels
    rw [Operator.expand, Schema.getElem?_row (hp.getElem?_of_varColumn? hx), Schema.row_pushAll,
      List.map_map, true_and]
    exact List.mem_singleton
  | label hx =>
    refine h.unary (C := fun _ => True) (fun kindAt hk => hk.left) (fun σ row => ?_) hmodels
    rw [Operator.expand, Schema.getElem?_row (hp.getElem?_of_varColumn? hx), Schema.row_pushAll,
      true_and]
    exact List.mem_singleton

theorem Denotes.select (h : p.Denotes G scope r cs es) (hp : p.schema.OfPattern) {e : Expr}
    {t : Scalar} (hdec : e.hasDecimal = false) (ht : e.resolve ⟨p.schema, none⟩ = .ok t) :
    (p.wrap (.select t)).Denotes G scope r cs (e :: es) := by
  refine h.unary (fun kindAt hk => hk) (fun σ row => ?_) fun σ => models_cons_iff
  have heval : t.eval G (p.schema.row G scope σ) = _ := (hp.reads ht).eval_eq hdec
  rw [Operator.expand, heval]
  split
  · next he => simp [he]
  · next he => simp [he]

theorem mem_rows_matchPairs {pairs : List (Nat × Nat)} {kindAt : Nat → Option VariableKind}
    {row : Row Node Edge Atom} :
    row ∈ (p.matchPairs pairs).root.rows G kindAt ↔
      row ∈ p.root.rows G kindAt ∧ ∀ pair ∈ pairs, row[pair.1]? = row[pair.2]? := by
  unfold matchPairs
  split
  · next hempty =>
    rw [List.isEmpty_iff.1 hempty]
    simp
  · show row ∈ (PlanNode.node _ [p.root]).rows G kindAt ↔ _
    simp only [PlanNode.mem_rows_unary, Operator.expand, List.mem_ite_nil_right, List.all_eq_true,
      beq_iff_eq, List.mem_singleton]
    constructor
    · rintro ⟨input, hinput, hpairs, rfl⟩
      exact ⟨hinput, hpairs⟩
    · rintro ⟨hrow, hpairs⟩
      exact ⟨row, hrow, hpairs, rfl⟩

/-- Following a connection keeps the assignments in which the connection runs along an edge. -/
theorem Denotes.follow (h : p.Denotes G scope r cs es) (hp : PatternPlan config r cs es n p)
    {c : Connection} (hc : c.Typed r) {step : Traversal} {column : Nat}
    (hstart : p.schema.varColumn? (step.start c) = some column) :
    (p.follow c step column).Denotes G scope r (c :: cs) es := by
  have hs := hp.ofPattern
  have hstartRow : ∀ σ : String → Object Node Edge,
      (p.schema.row G scope σ)[column]? = some (.object (σ (step.start c))) := fun σ =>
    Schema.getElem?_row (hs.valid.getElem?_of_varColumn? hstart)
  intro kindAt hkinds row
  rw [schema_follow] at hkinds
  simp only [models_follow_iff hp hc hstart]
  rw [schema_follow, Plan.follow, mem_rows_matchPairs]
  show (row ∈ (PlanNode.node _ [p.root]).rows G kindAt ∧ _) ↔ _
  rw [PlanNode.mem_rows_unary]
  constructor
  · rintro ⟨⟨input, hinput, hrow⟩, hpairs⟩
    obtain ⟨σ, hσ, rfl⟩ := (h kindAt hkinds.left input).1 hinput
    obtain ⟨e, he, rfl⟩ := step.mem_expand.1 hrow
    rw [hstartRow, Option.some.injEq, Value.object.injEq] at he
    -- the assignment is extended to the new variables; the old ones agree by the equal columns
    obtain ⟨τ, hτ, hmap⟩ := hs.exists_assignment (step.length_producedObjects c e) hpairs
    have hbound := Schema.hasVariable_of_varColumn? hstart
    refine ⟨τ, ⟨hσ.congr hp hτ, (step.runsIn_iff c).2 ⟨e, (hτ _ hbound).trans he, hmap⟩⟩, ?_⟩
    rw [Schema.row_pushAll, Schema.map_value_produced, hs.row_congr hτ, ← hmap, List.map_map]
    rfl
  · rintro ⟨σ, ⟨hσ, hruns⟩, rfl⟩
    obtain ⟨e, he, hmap⟩ := (step.runsIn_iff c).1 hruns
    refine ⟨⟨p.schema.row G scope σ, (h kindAt hkinds.left _).2 ⟨σ, hσ, rfl⟩, ?_⟩, ?_⟩
    · refine step.mem_expand.2 ⟨e, by rw [hstartRow, he], ?_⟩
      rw [Schema.row_pushAll, Schema.map_value_produced, ← hmap, List.map_map]
      rfl
    · rintro ⟨known, position⟩ hpair
      obtain ⟨x, hknown, hposition⟩ := Schema.contents_of_mem_bindProduced hs.valid hpair
      rw [← Schema.contents_pushAll] at hknown hposition
      rw [Schema.getElem?_row hknown, Schema.getElem?_row hposition]
      rfl

/-- Two plans beside each other yield the rows of the assignments that are matches of both. -/
theorem Denotes.beside (h : p.Denotes G scope r cs es) (h' : p'.Denotes G scope r cs' es')
    (hp : PatternPlan config r cs es n p) (hp' : PatternPlan config r cs' es' n' p')
    (hdisj : ∀ x, p.schema.hasVariable x = true → p'.schema.hasVariable x = false)
    {op : Operator} {C : (String → Object Node Edge) → Prop}
    (haccepts : ∀ σ, op.accepts G (p.schema.row G scope σ ++ p'.schema.row G scope σ) = true ↔ C σ)
    {es'' : List Expr} (hmodels : ∀ σ, Models G scope r (p.beside p' op).schema (cs ++ cs') es'' σ ↔
      Models G scope r (p.beside p' op).schema (cs ++ cs') (es ++ es') σ ∧ C σ) :
    (p.beside p' op).Denotes G scope r (cs ++ cs') es'' := by
  intro kindAt hkinds row
  have hright : p'.schema.HasKinds r fun i => kindAt (p.root.width + i) := by
    rw [hp.positional.width_eq]
    exact hkinds.right
  show row ∈ (PlanNode.node op [p.root, p'.root]).rows G kindAt ↔ _
  simp only [hmodels, models_beside_iff hp hp']
  rw [PlanNode.mem_rows_binary]
  constructor
  · rintro ⟨left, hleft, right, hright', hop, rfl⟩
    obtain ⟨σ, hσ, rfl⟩ := (h kindAt hkinds.left left).1 hleft
    obtain ⟨σ', hσ', rfl⟩ := (h' _ hright right).1 hright'
    -- no variable is bound on both sides, so one assignment serves both
    let τ : String → Object Node Edge := fun x => if p.schema.hasVariable x then σ x else σ' x
    have hτ : ∀ x, p.schema.hasVariable x = true → τ x = σ x := fun x hx => if_pos hx
    have hτ' : ∀ x, p'.schema.hasVariable x = true → τ x = σ' x := by
      intro x hx
      refine if_neg fun hx' => ?_
      rw [hdisj x hx'] at hx
      cases hx
    have hrow : p.schema.row G scope τ = p.schema.row G scope σ := hp.ofPattern.row_congr hτ
    have hrow' : p'.schema.row G scope τ = p'.schema.row G scope σ' := hp'.ofPattern.row_congr hτ'
    rw [← hrow, ← hrow'] at hop ⊢
    exact ⟨τ, ⟨⟨hσ.congr hp hτ, hσ'.congr hp' hτ'⟩, (haccepts τ).1 hop⟩,
      (Schema.row_pushAll _ _).symm⟩
  · rintro ⟨σ, ⟨⟨hσ, hσ'⟩, hC⟩, rfl⟩
    refine ⟨_, (h kindAt hkinds.left _).2 ⟨σ, hσ, rfl⟩, _, (h' _ hright _).2 ⟨σ, hσ', rfl⟩,
      (haccepts σ).2 hC, ?_⟩
    exact Schema.row_pushAll _ _

end Plan

/-! ## Derivations -/

/-- The plan of a pattern yields the rows of the matches of what went into it. -/
theorem PatternPlan.denotes (G : PropertyGraph Node Edge Atom) (hjoin : config.joinType = "Inner")
    (h : PatternPlan config r cs es n p) (hdec : ∀ e ∈ es, e.hasDecimal = false) :
    p.Denotes G config.attributeScope r cs es := by
  induction h with
  | scan hx =>
    refine Plan.denotes_scan fun σ => ?_
    rw [Operator.scanned, G.mem_objects, hx]
    exact ⟨fun h => ⟨h.symm, fun e he => absurd he List.not_mem_nil⟩, fun h => h.1.symm⟩
  | seed hx hscan =>
    refine Plan.denotes_scan fun σ => ?_
    rw [List.forall_mem_singleton]
    cases hscan with
    | label x l =>
      rw [Operator.scanned, List.mem_filter, G.mem_objects, eq_comm, Expr.eval]
      simp
    | comparison x a c hvalue =>
      rw [Operator.scanned, List.mem_filter, G.mem_objects, eq_comm, Expr.eval,
        Expr.eval_of_scanValue? hvalue, Expr.eval]
      simp
  | fetch h hf ih => exact (ih hdec).fetch h.ofPattern.valid hf
  | follow h hc hstart ih => exact (ih hdec).follow h hc hstart
  | select h ht ih =>
    obtain ⟨he, hes⟩ := List.forall_mem_cons.1 hdec
    exact (ih hes).select h.ofPattern he ht
  | join h h' hdisj ht ih ih' =>
    obtain ⟨he, hes⟩ := List.forall_mem_cons.1 hdec
    have hreads := h.ofPattern.reads_pair h'.ofPattern ht
    refine Plan.Denotes.beside (ih fun e he => hes e (List.mem_append_left _ he))
      (ih' fun e he => hes e (List.mem_append_right _ he)) h h' hdisj (fun σ => ?_)
      fun σ => models_cons_iff
    rw [Operator.accepts, hjoin, Schema.row, Schema.row, ← List.map_append, hreads.eval_eq he]
    simp
  | product h h' hdisj ih ih' =>
    refine Plan.Denotes.beside (C := fun _ => True)
      (ih fun e he => hdec e (List.mem_append_left _ he))
      (ih' fun e he => hdec e (List.mem_append_right _ he)) h h' hdisj (fun σ => ?_) fun σ => ?_
    · simp [Operator.accepts]
    · rw [and_true]
  | perm h hcs hes ih =>
    intro kindAt hkinds row
    rw [ih (fun e he => hdec e (hes.mem_iff.1 he)) kindAt hkinds row]
    refine exists_congr fun σ => and_congr_left fun _ => ?_
    exact ⟨fun hσ => ⟨hσ.kind, fun c hc => hσ.runs c (hcs.mem_iff.2 hc),
        fun e he => hσ.holds e (hes.mem_iff.2 he)⟩,
      fun hσ => ⟨hσ.kind, fun c hc => hσ.runs c (hcs.mem_iff.1 hc),
        fun e he => hσ.holds e (hes.mem_iff.1 he)⟩⟩

/-! ## Bindings -/

/-- The kind of object that a column is for. -/
def Plan.kindAt (r : Registry) (p : Plan) (i : Nat) : Option VariableKind :=
  match p.schema.contents[i]? with
  | some (.var x) => r.kind? x
  | _ => none

theorem Plan.hasKinds_kindAt (r : Registry) (p : Plan) : p.schema.HasKinds r (p.kindAt r) := by
  intro i x hi
  rw [kindAt, hi]

namespace Schema

variable {s : Schema}

/-- The objects that a row holds in the columns of variables. -/
def binding (s : Schema) (row : Row Node Edge Atom) (x : String) : Option (Object Node Edge) :=
  match (s.varColumn? x).bind fun i => row[i]? with
  | some (.object o) => some o
  | _ => none

/-- An assignment to the variables of a schema only. -/
def restrict (s : Schema) (σ : String → Object Node Edge) (x : String) :
    Option (Object Node Edge) :=
  if s.hasVariable x then some (σ x) else none

omit [DecidableEq Node] [DecidableEq Edge] in
theorem restrict_of_hasVariable {σ : String → Object Node Edge} {x : String}
    (h : s.hasVariable x = true) : s.restrict σ x = some (σ x) :=
  if_pos h

omit [DecidableEq Node] [DecidableEq Edge] [DecidableEq Atom] in
/-- The row of an assignment holds its objects. -/
theorem Valid.binding_row (hs : s.Valid) (σ : String → Object Node Edge) :
    s.binding (s.row G scope σ) = s.restrict σ := by
  funext x
  rw [binding, restrict, hasVariable]
  cases hx : s.varColumn? x with
  | none => rfl
  | some i =>
    rw [Option.bind_some, getElem?_row (hs.getElem?_of_varColumn? hx)]
    rfl

end Schema

namespace Query.Planned

variable {q : Query} {groups : List Component}

omit [DecidableEq Node] [DecidableEq Edge] [DecidableEq Atom] in
/-- The matches of the pattern are those of what went into its plan. -/
theorem isMatch_restrict_iff (hp : q.Planned config groups r p) (σ : String → Object Node Edge) :
    q.IsMatch G scope r (p.schema.restrict σ) ↔
      Models G scope r p.schema q.connections q.constraints σ := by
  have hnames : ∀ c ∈ q.connections, ∀ x ∈ c.names, p.schema.restrict σ x = some (σ x) :=
    fun c hc x hx => Schema.restrict_of_hasVariable (hp.derivation.hasVariable_of_mem_names hc hx)
  have hruns : ∀ c ∈ q.connections, (c.RunsIn G σ ↔
      ∃ e, p.schema.restrict σ c.edge.name = some (.edge e) ∧
        p.schema.restrict σ c.src.name = some (.node (G.src e)) ∧
        p.schema.restrict σ c.dst.name = some (.node (G.dst e))) := by
    intro c hc
    have hname := hnames c hc
    simp only [Connection.names, List.forall_mem_cons] at hname
    simp only [hname.1, hname.2.1, hname.2.2.1, Option.some.injEq]
    rfl
  have heval : ∀ e ∈ q.constraints, e.eval G scope (p.schema.restrict σ) =
      e.eval G scope fun x => some (σ x) := fun e he =>
    e.eval_congr fun x hx =>
      Schema.restrict_of_hasVariable (hp.derivation.hasVariable_of_mem_exprNames he hx)
  constructor
  · intro h
    refine ⟨fun x hx => ?_, fun c hc => (hruns c hc).2 (h.runs c hc), fun e he => ?_⟩
    · rw [← h.kind x, Schema.restrict_of_hasVariable hx, Option.map_some]
    · rw [← heval e he, h.holds e he]
  · intro h
    refine ⟨fun x => ?_, fun c hc => (hruns c hc).1 (h.runs c hc), fun e he => ?_⟩
    · rw [Schema.restrict]
      split
      · next hx => rw [h.kind x hx, Option.map_some]
      · next hx =>
        rw [hp.hasVariable_iff, Registry.contains_iff_kind?, not_exists] at hx
        exact (Option.eq_none_iff_forall_ne_some.2 hx).symm
    · rw [heval e he, h.holds e he]

omit [DecidableEq Node] [DecidableEq Edge] [DecidableEq Atom] in
/-- A match assigns objects to the variables of the plan and to no others. -/
theorem exists_restrict_eq (hp : q.Planned config groups r p)
    {β : String → Option (Object Node Edge)} (h : q.IsMatch G scope r β) :
    ∃ σ, p.schema.restrict σ = β := by
  -- some variable is registered, so the graph has an object for all other names
  obtain ⟨g, hg⟩ := List.exists_mem_of_ne_nil _ hp.partitioned.nonempty
  have htyped : ∀ c ∈ g.connections, c.Typed r := fun c hc =>
    hp.partitioned.typed c (hp.partitioned.connections.mem_iff.1 (List.mem_flatMap.2 ⟨g, hg, hc⟩))
  obtain ⟨x₀, -, hx₀⟩ := Component.Linked.exists_node (hp.partitioned.linked g hg) htyped
  obtain ⟨o₀, -, -⟩ := Option.map_eq_some_iff.1 ((h.kind x₀).trans hx₀)
  refine ⟨fun x => (β x).getD o₀, funext fun x => ?_⟩
  have hkind := h.kind x
  rw [Schema.restrict]
  split
  · next hx =>
    obtain ⟨k, hk⟩ := Registry.contains_iff_kind?.1 ((hp.hasVariable_iff x).1 hx)
    obtain ⟨o, ho, -⟩ := Option.map_eq_some_iff.1 (hkind.trans hk)
    rw [ho, Option.getD_some]
  · next hx =>
    rw [hp.hasVariable_iff, Registry.contains_iff_kind?, not_exists] at hx
    rw [Option.eq_none_iff_forall_ne_some.2 hx, Option.map_eq_none_iff] at hkind
    exact hkind.symm

/-- The rows of the plan, seen through its schema, are the matches. -/
theorem mem_bindings_iff (hp : q.Planned config groups r p) (hjoin : config.joinType = "Inner")
    (hdec : ∀ e ∈ q.constraints, e.hasDecimal = false) (β : String → Option (Object Node Edge)) :
    β ∈ (p.root.rows G (p.kindAt r)).map p.schema.binding ↔
      q.IsMatch G config.attributeScope r β := by
  have hdenotes := hp.derivation.denotes G hjoin hdec _ (p.hasKinds_kindAt r)
  have hvalid := hp.derivation.ofPattern.valid
  rw [List.mem_map]
  constructor
  · rintro ⟨row, hrow, rfl⟩
    obtain ⟨σ, hσ, rfl⟩ := (hdenotes row).1 hrow
    rw [hvalid.binding_row]
    exact (hp.isMatch_restrict_iff σ).2 hσ
  · intro h
    obtain ⟨σ, rfl⟩ := hp.exists_restrict_eq h
    exact ⟨_, (hdenotes _).2 ⟨σ, (hp.isMatch_restrict_iff σ).1 h, rfl⟩, hvalid.binding_row σ⟩

/-- No match is found twice. -/
theorem nodup_bindings (hp : q.Planned config groups r p) (hjoin : config.joinType = "Inner")
    (hdec : ∀ e ∈ q.constraints, e.hasDecimal = false) (G : PropertyGraph Node Edge Atom) :
    ((p.root.rows G (p.kindAt r)).map p.schema.binding).Nodup := by
  have hdenotes := hp.derivation.denotes G hjoin hdec _ (p.hasKinds_kindAt r)
  have hs := hp.derivation.ofPattern
  refine (PlanNode.regular_rows G _ p.root).nodup.map_on fun row hrow row' hrow' heq => ?_
  obtain ⟨σ, -, rfl⟩ := (hdenotes row).1 hrow
  obtain ⟨τ, -, rfl⟩ := (hdenotes row').1 hrow'
  rw [hs.valid.binding_row, hs.valid.binding_row] at heq
  refine hs.row_congr fun x hx => ?_
  have hx' := congrFun heq x
  rwa [Schema.restrict_of_hasVariable hx, Schema.restrict_of_hasVariable hx,
    Option.some.injEq] at hx'

end Query.Planned

/-! ## Queries -/

/-- A query that asks for nothing but the matches of its pattern. -/
structure Query.PatternOnly (q : Query) : Prop where
  /-- Nothing is grouped. -/
  groupBy : q.groupBy = []
  /-- Nothing is projected. -/
  projection : q.projection = []
  /-- There is no order. -/
  orderBy : q.orderBy = []
  /-- All rows are kept. -/
  limit : q.limit = none
  /-- No row is skipped. -/
  offset : q.offset = none

/-- Then nothing is put on top of the plan of the pattern. -/
theorem Plan.finish_of_patternOnly (config : Config) {q : Query} (h : q.PatternOnly) (p : Plan) :
    Plan.finish config q p = .ok p := by
  rw [Plan.finish, h.groupBy, h.projection, h.orderBy, h.limit, h.offset]
  rfl

/-- The plan of a query that asks for the matches of its pattern yields each of them once and
nothing else, in every property graph and under every interpretation of the operators. -/
theorem Query.plan_yields_matches (G : PropertyGraph Node Edge Atom) {config : Config} {q : Query}
    {p : Plan} (hjoin : config.joinType = "Inner") (hq : q.PatternOnly)
    (hdec : ∀ e ∈ q.constraints, e.hasDecimal = false) (h : q.plan config = .ok p) :
    ∃ groups r, Component.partition q .empty = .ok groups r ∧
      ((p.root.rows G (p.kindAt r)).map p.schema.binding).Nodup ∧
      ∀ β, β ∈ (p.root.rows G (p.kindAt r)).map p.schema.binding ↔
        q.IsMatch G config.attributeScope r β := by
  obtain ⟨p₀, hp₀, hfinish⟩ := eq_ok_of_bind_eq_ok h
  cases (Plan.finish_of_patternOnly config hq p₀).symm.trans hfinish
  obtain ⟨groups, r, hp⟩ := (meets_matchPlan config q).result hp₀
  exact ⟨groups, r, eq_ok_of_outcome_eq_ok hp.outcome_eq, hp.nodup_bindings hjoin hdec G,
    hp.mem_bindings_iff hjoin hdec⟩

/-- An edge to a city, and a third vertex that a filter compares with its source. -/
theorem Query.plan_yields_matches_of_joined_components :
    let G : PropertyGraph (Fin 2) (Fin 1) Empty :=
      { nodes := [0, 1], nodup_nodes := by decide, mem_nodes := by decide
        edges := [0], nodup_edges := by decide, mem_edges := by decide
        src := fun _ => 0, dst := fun _ => 1
        label := fun o => if o = .node 1 then "City" else "Village"
        attr := fun _ o _ => .bool (o = .node 1)
        binary := fun _ v w => .bool (v ≠ w), unary := fun _ v => v
        decimal := fun _ => .int 0, hundredths := fun _ => .int 0 }
    let q : Query := { Query.empty with
      vertices := [⟨"c", false⟩]
      connections := [⟨⟨"a", false⟩, ⟨"b", false⟩, ⟨"e", false⟩⟩]
      constraints :=
        [.binary (.compare .lt) (.prop "a" "x") (.prop "c" "x"), .hasLabel "b" "City"] }
    ∃ p, q.plan Config.default = .ok p ∧ q.PatternOnly ∧
      (∀ e ∈ q.constraints, e.hasDecimal = false) ∧
      ∃ groups r, Component.partition q .empty = .ok groups r ∧
        ((p.root.rows G (p.kindAt r)).map p.schema.binding).Nodup ∧
        ∀ β, β ∈ (p.root.rows G (p.kindAt r)).map p.schema.binding ↔
          q.IsMatch G Config.default.attributeScope r β := by
  intro G q
  have hq : q.PatternOnly := ⟨rfl, rfl, rfl, rfl, rfl⟩
  have hdec : ∀ e ∈ q.constraints, e.hasDecimal = false := by
    simp [q, Expr.hasDecimal]
  obtain ⟨p, hp⟩ : ∃ p, q.plan Config.default = .ok p := ⟨_, rfl⟩
  exact ⟨p, hp, hq, hdec, plan_yields_matches G rfl hq hdec hp⟩

end GraphPlan
