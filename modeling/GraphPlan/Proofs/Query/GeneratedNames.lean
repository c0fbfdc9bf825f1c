import GraphPlan.Proofs.Query.Construction
import GraphPlan.Proofs.Text.Reading

/-!
# Generated names

Vertices and edges without a name get one from a counter. Different counts give different names, and
no vertex gets the name of an edge, so generated names never collide with each other. They are not
compared with the names that the caller chose: whoever names the first vertex of a chain `b` shares
it with the second one. `Builder.Named` says where the names of a query under construction come from,
which leaves the caller as the only source of a collision
(`Builder.generated_names_fresh_unless_chosen`).
-/

namespace GraphPlan

open Text

/-- The name that the caller chose for a vertex. -/
def Target.chosen? : Target → Option String
  | .labelled _ => none
  | .named name _ => some name

namespace Builder

/-! ## Names from counters -/

variable {n m : Nat}

/-- The digits of a generated name of a vertex. -/
def round (n : Nat) : List Char :=
  if n < 26 then [] else (Nat.repr (n / 26)).toList

theorem toList_vertexName (n : Nat) :
    (vertexName n).toList = Char.ofNat (97 + n % 26) :: round n := by
  unfold vertexName round
  dsimp only
  split
  · exact String.toList_singleton _
  · rw [String.toList_append, String.toList_singleton]
    rfl

theorem isDigit_of_mem_round {c : Char} (h : c ∈ round n) : c.isDigit = true := by
  unfold round at h
  split at h
  · cases h
  · exact isDigit_of_mem_repr h

theorem round_injective (h : round n = round m) : n / 26 = m / 26 := by
  unfold round at h
  split at h
  · split at h
    · omega
    · exact absurd h.symm (repr_ne_nil _)
  · split at h
    · exact absurd h (repr_ne_nil _)
    · exact repr_injective h

theorem vertexName_injective (h : vertexName n = vertexName m) : n = m := by
  have hletter : ∀ i < 26, ∀ j < 26, Char.ofNat (97 + i) = Char.ofNat (97 + j) → i = j := by decide
  have hchars := congrArg String.toList h
  rw [toList_vertexName, toList_vertexName, List.cons.injEq] at hchars
  have hmod := hletter (n % 26) (by omega) (m % 26) (by omega) hchars.1
  have hdiv := round_injective hchars.2
  omega

theorem edgeName_injective (h : edgeName n = edgeName m) : n = m := by
  have hchars := congrArg String.toList h
  simp only [edgeName, String.toList_append] at hchars
  exact repr_injective (List.append_cancel_left hchars)

/-- After the first letter, the name of a vertex has digits where that of an edge has letters. -/
theorem vertexName_ne_edgeName (n m : Nat) : vertexName n ≠ edgeName m := by
  intro h
  have hchars := congrArg String.toList h
  rw [toList_vertexName, edgeName, String.toList_append] at hchars
  have hround : round n = 'n' :: _ := (List.cons.inj hchars).2
  have hmem : 'n' ∈ round n := by
    rw [hround]
    exact List.mem_cons_self
  cases isDigit_of_mem_round hmem

/-! ## Where names come from -/

/-- The vertex that a call adds. -/
def Call.target? : Call → Option Target
  | .matchVertex target => some target
  | .whereEdge _ target => some target
  | _ => none

/-- The edge that a call adds. -/
def Call.edge? : Call → Option EdgeSpec
  | .whereEdge edge _ => some edge
  | _ => none

variable {b : Builder} {x : String}

/-- The names that the caller chose for the vertex and the edge of a call. -/
def Call.chosen (call : Call) : List String :=
  (call.target?.bind Target.chosen?).toList ++ (call.edge?.bind EdgeSpec.name).toList

/-- The names that the caller chose in some calls. -/
def chosen (calls : List Call) : List String :=
  calls.flatMap Call.chosen

/-- The names of the vertices and edges that there are. -/
def names (b : Builder) : List String :=
  b.query.vertices.map PatternVar.name ++ b.query.connections.map fun c => c.edge.name

/-- Every name was chosen by the caller or generated for an earlier count. -/
structure Named (b : Builder) (chosen : List String) : Prop where
  vertices : ∀ x ∈ b.query.vertices.map PatternVar.name,
    x ∈ chosen ∨ ∃ n < b.vertexCount, x = vertexName n
  edges : ∀ c ∈ b.query.connections,
    c.edge.name ∈ chosen ∨ ∃ n < b.edgeCount, c.edge.name = edgeName n

theorem named_empty : empty.Named [] where
  vertices := by simp [empty, Query.empty]
  edges := by simp [empty, Query.empty]

variable {xs ys : List String} {call : Call} {target : Target} {edge : EdgeSpec}

theorem Named.mono (h : b.Named xs) (hsub : xs ⊆ ys) : b.Named ys where
  vertices := fun x hx => (h.vertices x hx).imp_left (@hsub x)
  edges := fun c hc => (h.edges c hc).imp_left (@hsub _)

/-- The vertex of a target is named by the caller or by the counter. -/
theorem name_target (target : Target) (n : Nat) :
    target.name (vertexName n) ∈ target.chosen?.toList ∨
      target.name (vertexName n) = vertexName n := by
  cases target with
  | labelled label => exact Or.inr rfl
  | named name label => exact Or.inl List.mem_cons_self

/-- An edge is named by the caller, or by the counter, which goes on. -/
theorem name_nameEdge (b : Builder) (edge : EdgeSpec) :
    (b.nameEdge edge).2.name ∈ edge.name.toList ∧ (b.nameEdge edge).1.edgeCount = b.edgeCount ∨
      (b.nameEdge edge).2.name = edgeName b.edgeCount ∧
        (b.nameEdge edge).1.edgeCount = b.edgeCount + 1 := by
  unfold nameEdge
  cases edge.name with
  | some name => exact Or.inl ⟨List.mem_cons_self, rfl⟩
  | none => exact Or.inr ⟨rfl, rfl⟩

@[simp]
theorem edge_connect (direction : Direction) (start x : String) (edge : PatternVar) :
    (connect direction start x edge).edge = edge := by
  cases direction <;> rfl

theorem Named.addTarget (h : b.Named xs) (target : Target) :
    (b.addTarget target).Named (xs ++ target.chosen?.toList) := by
  obtain ⟨constraints, heq⟩ := b.addTarget_eq target
  rw [heq]
  refine ⟨fun x hx => ?_, fun c hc => ?_⟩
  · dsimp only at hx ⊢
    rcases mem_listing.1 hx with hold | rfl
    · rcases h.vertices x hold with hchosen | ⟨n, hn, hx⟩
      · exact Or.inl (List.mem_append_left _ hchosen)
      · exact Or.inr ⟨n, by omega, hx⟩
    · rcases name_target target b.vertexCount with hchosen | hx
      · exact Or.inl (List.mem_append_right _ hchosen)
      · exact Or.inr ⟨b.vertexCount, by omega, hx⟩
  · exact (h.edges c hc).imp_left (List.mem_append_left _)

theorem Named.addEdge (h : b.Named xs) (start : String) (edge : EdgeSpec) (target : Target) :
    (b.addEdge start edge target).Named (xs ++ (target.chosen?.toList ++ edge.name.toList)) := by
  obtain ⟨constraints, heq⟩ := b.addEdge_eq start edge target
  obtain ⟨constraints', htarget⟩ := b.addTarget_eq target
  have hvertices := (h.addTarget target).vertices
  rw [htarget] at hvertices
  rw [heq, ← List.append_assoc]
  refine ⟨fun x hx => ?_, fun c hc => ?_⟩
  · exact (hvertices x hx).imp_left (List.mem_append_left _)
  · dsimp only at hc ⊢
    rcases List.mem_append.1 hc with hold | hnew
    · have hle : b.edgeCount ≤ (b.nameEdge edge).1.edgeCount := by
        rcases b.name_nameEdge edge with ⟨-, hcount⟩ | ⟨-, hcount⟩ <;> omega
      rcases h.edges c hold with hchosen | ⟨n, hn, hname⟩
      · exact Or.inl (List.mem_append_left _ (List.mem_append_left _ hchosen))
      · exact Or.inr ⟨n, by omega, hname⟩
    · rw [List.mem_singleton.1 hnew, edge_connect]
      rcases b.name_nameEdge edge with ⟨hchosen, -⟩ | ⟨hname, hcount⟩
      · exact Or.inl (List.mem_append_right _ hchosen)
      · exact Or.inr ⟨b.edgeCount, by omega, hname⟩

/-- What a call does to names and counters: nothing, or it adds its vertex, or its vertex and its
edge. -/
theorem step_cases (b : Builder) (call : Call) :
    (b.step call).query.vertices = b.query.vertices ∧
        (b.step call).query.connections = b.query.connections ∧
        (b.step call).vertexCount = b.vertexCount ∧ (b.step call).edgeCount = b.edgeCount ∨
      (∃ target, call = .matchVertex target ∧ b.step call = b.addTarget target) ∨
      ∃ start edge target, call = .whereEdge edge target ∧
        b.step call = b.addEdge start edge target := by
  cases call with
  | matchVertex target =>
    rw [Builder.step]
    split
    · exact Or.inl ⟨rfl, rfl, rfl, rfl⟩
    · exact Or.inr (Or.inl ⟨target, rfl, rfl⟩)
  | whereEdge edge target =>
    rw [Builder.step]
    split
    · exact Or.inl ⟨rfl, rfl, rfl, rfl⟩
    · -- without a vertex to start from, the call only records its mistake
      split
      · exact Or.inl ⟨rfl, rfl, rfl, rfl⟩
      · next start hstart => exact Or.inr (Or.inr ⟨start, edge, target, rfl, rfl⟩)
  | whereVar var predicates =>
    rw [Builder.step]
    split
    · exact Or.inl ⟨rfl, rfl, rfl, rfl⟩
    · unfold addPredicates
      split <;> exact Or.inl ⟨rfl, rfl, rfl, rfl⟩
  | _ => exact Or.inl ⟨rfl, rfl, rfl, rfl⟩

theorem Named.step (h : b.Named xs) (call : Call) : (b.step call).Named (xs ++ call.chosen) := by
  rcases b.step_cases call with ⟨hvertices, hconnections, hcount, hedges⟩ |
    ⟨target, rfl, heq⟩ | ⟨start, edge, target, rfl, heq⟩
  · have hstay : b.Named (xs ++ call.chosen) := h.mono (List.subset_append_left _ _)
    refine ⟨?_, ?_⟩
    · rw [hvertices, hcount]
      exact hstay.vertices
    · rw [hconnections, hedges]
      exact hstay.edges
  · rw [heq]
    exact (h.addTarget target).mono (by simp [Call.chosen, Call.target?, Call.edge?])
  · rw [heq]
    exact h.addEdge start edge target

theorem named_run (calls : List Call) : (run calls).Named (chosen calls) := by
  have hrun : ∀ (calls : List Call) (b : Builder) (xs : List String), b.Named xs →
      (calls.foldl Builder.step b).Named (xs ++ chosen calls) := by
    intro calls
    induction calls with
    | nil => exact fun b xs hb => hb.mono (List.subset_append_left _ _)
    | cons call calls ih =>
      intro b xs hb
      have hrest := ih (b.step call) (xs ++ call.chosen) (hb.step call)
      rwa [List.append_assoc] at hrest
  exact hrun calls empty [] named_empty

/-! ## Names that nobody has -/

theorem mem_names : x ∈ b.names ↔
    x ∈ b.query.vertices.map PatternVar.name ∨ ∃ c ∈ b.query.connections, c.edge.name = x := by
  simp only [names, List.mem_append, List.mem_map]

/-- The next name for a vertex is taken only if the caller took it. -/
theorem Named.vertexName_mem (h : b.Named xs) (hx : vertexName b.vertexCount ∈ b.names) :
    vertexName b.vertexCount ∈ xs := by
  rcases mem_names.1 hx with hvertex | ⟨c, hc, hname⟩
  · rcases h.vertices _ hvertex with hchosen | ⟨n, hn, heq⟩
    · exact hchosen
    · -- every generated name has an earlier count
      have hcount := vertexName_injective heq
      omega
  · rcases h.edges c hc with hchosen | ⟨n, hn, heq⟩
    · exact hname ▸ hchosen
    · exact absurd (hname.symm.trans heq) (vertexName_ne_edgeName _ _)

/-- The next name for an edge is taken only if the caller took it. -/
theorem Named.edgeName_mem (h : b.Named xs) (hx : edgeName b.edgeCount ∈ b.names) :
    edgeName b.edgeCount ∈ xs := by
  rcases mem_names.1 hx with hvertex | ⟨c, hc, hname⟩
  · rcases h.vertices _ hvertex with hchosen | ⟨n, hn, heq⟩
    · exact hchosen
    · exact absurd heq.symm (vertexName_ne_edgeName _ _)
  · rcases h.edges c hc with hchosen | ⟨n, hn, heq⟩
    · exact hname ▸ hchosen
    · have hcount := edgeName_injective (hname.symm.trans heq)
      omega

/-! ## Calls that are carried out -/

theorem run_append (calls calls' : List Call) :
    run (calls ++ calls') = calls'.foldl Builder.step (run calls) :=
  List.foldl_append

theorem run_concat (calls : List Call) (call : Call) :
    run (calls ++ [call]) = (run calls).step call :=
  run_append calls [call]

theorem error_run_iff {calls : List Call} :
    (run calls).error = none ↔ firstMistake? false calls = none := by
  have herror : (run calls).error = firstMistake? false calls := (error_foldl calls rfl).1
  rw [herror]

/-- Without a mistake there was none before. -/
theorem error_run_of_append {calls calls' : List Call} (h : (run (calls ++ calls')).error = none) :
    (run calls).error = none := by
  cases herror : (run calls).error with
  | none => rfl
  | some e =>
    rw [run_append, error_foldl_of_some calls' herror] at h
    cases h

/-- A call that makes no mistake adds its vertex, or its vertex and its edge. -/
theorem step_eq_of_target (hb : b.error = none) (h : (b.step call).error = none)
    (htarget : call.target? = some target) :
    call.edge? = none ∧ b.step call = b.addTarget target ∨
      ∃ start edge, call.edge? = some edge ∧ b.step call = b.addEdge start edge target := by
  have hmistake := (error_step_of_none hb call).symm.trans h
  cases call with
  | matchVertex target' =>
    cases htarget
    rw [Builder.step, hb, Option.isSome_none, if_neg (by decide)]
    exact Or.inl ⟨rfl, rfl⟩
  | whereEdge edge target' =>
    cases htarget
    cases hlast : b.last with
    | none =>
      rw [hlast] at hmistake
      cases hmistake
    | some start =>
      rw [Builder.step, hb, hlast, Option.isSome_none, if_neg (by decide)]
      exact Or.inr ⟨start, edge, rfl, rfl⟩
  | _ => cases htarget

/-- A target is listed under its name and becomes the last vertex. -/
theorem step_of_target (hb : b.error = none) (h : (b.step call).error = none)
    (htarget : call.target? = some target) :
    (b.step call).last = some (target.name (vertexName b.vertexCount)) ∧
      (b.step call).query.vertices =
        listing b.query (target.name (vertexName b.vertexCount)) ∧
      (b.step call).vertexCount = b.vertexCount + 1 := by
  rcases step_eq_of_target hb h htarget with ⟨-, hstep⟩ | ⟨start, edge, -, hstep⟩
  · obtain ⟨constraints, heq⟩ := b.addTarget_eq target
    rw [hstep, heq]
    exact ⟨rfl, rfl, rfl⟩
  · obtain ⟨constraints, heq⟩ := b.addEdge_eq start edge target
    rw [hstep, heq]
    exact ⟨rfl, rfl, rfl⟩

/-- An edge becomes the last connection. -/
theorem step_of_edge (hb : b.error = none) (h : (b.step call).error = none)
    (hedge : call.edge? = some edge) :
    ∃ c, (b.step call).query.connections = b.query.connections ++ [c] ∧
      c.edge = (b.nameEdge edge).2 := by
  obtain ⟨target, htarget⟩ : ∃ target, call.target? = some target := by
    cases call with
    | whereEdge edge' target => exact ⟨target, rfl⟩
    | _ => cases hedge
  rcases step_eq_of_target hb h htarget with ⟨hnone, -⟩ | ⟨start, edge', hedge', hstep⟩
  · cases hnone.symm.trans hedge
  · cases hedge'.symm.trans hedge
    obtain ⟨constraints, heq⟩ := b.addEdge_eq start edge target
    rw [hstep, heq]
    exact ⟨_, rfl, edge_connect _ _ _ _⟩

theorem vertexCount_le_step (b : Builder) (call : Call) :
    b.vertexCount ≤ (b.step call).vertexCount := by
  rcases b.step_cases call with ⟨-, -, hcount, -⟩ | ⟨target, -, hstep⟩ |
    ⟨start, edge, target, -, hstep⟩
  · exact Nat.le_of_eq hcount.symm
  · obtain ⟨constraints, heq⟩ := b.addTarget_eq target
    rw [hstep, heq]
    exact Nat.le_succ _
  · obtain ⟨constraints, heq⟩ := b.addEdge_eq start edge target
    rw [hstep, heq]
    exact Nat.le_succ _

theorem vertexCount_le_foldl (calls : List Call) (b : Builder) :
    b.vertexCount ≤ (calls.foldl Builder.step b).vertexCount := by
  induction calls generalizing b with
  | nil => exact Nat.le_refl _
  | cons call calls ih => exact Nat.le_trans (b.vertexCount_le_step call) (ih (b.step call))

/-- A later target has a greater count, so the two share a vertex only if a name was chosen. -/
theorem chosen?_of_last_eq {first : Call} {later : List Call} {target' : Target}
    (hb : b.error = none) (hfirst : (b.step first).error = none)
    (hlater : (later.foldl Builder.step (b.step first)).error = none)
    (hcall : ((later.foldl Builder.step (b.step first)).step call).error = none)
    (htarget : first.target? = some target) (htarget' : call.target? = some target')
    (hlast : (b.step first).last = ((later.foldl Builder.step (b.step first)).step call).last) :
    target.chosen? ≠ none ∨ target'.chosen? ≠ none := by
  obtain ⟨hlast₁, -, hcount⟩ := step_of_target hb hfirst htarget
  obtain ⟨hlast₂, -, -⟩ := step_of_target hlater hcall htarget'
  have hle := vertexCount_le_foldl later (b.step first)
  cases target with
  | named name label => exact Or.inl (Option.some_ne_none name)
  | labelled label =>
    cases target' with
    | named name label' => exact Or.inr (Option.some_ne_none name)
    | labelled label' =>
      -- both names are generated, and the counter has moved on in between
      rw [hlast₁, hlast₂, Option.some.injEq] at hlast
      have heq := vertexName_injective hlast
      omega

/-- After any calls without a mistake, a target without a name denotes a vertex that is new, and an
edge without a name gets one that no vertex and no edge has, unless the caller chose that name in an
earlier call. Two targets denote one vertex only if the caller named one of them. -/
theorem generated_names_fresh_unless_chosen (before : List Call) (call : Call)
    (hcalls : firstMistake? false (before ++ [call]) = none) :
    (∀ label, call.target? = some (.labelled label) →
      ∃ x, (run (before ++ [call])).last = some x ∧
        (x ∉ chosen before → x ∉ (run before).names ∧
          (run (before ++ [call])).query.vertices = (run before).query.vertices ++ [⟨x, false⟩])) ∧
    (∀ edge, call.edge? = some edge → edge.name = none →
      ∃ c, (run (before ++ [call])).query.connections = (run before).query.connections ++ [c] ∧
        (c.edge.name ∉ chosen before → c.edge.name ∉ (run before).names)) ∧
    ∀ earlier first later target target', before = earlier ++ first :: later →
      first.target? = some target → call.target? = some target' →
      (run (earlier ++ [first])).last = (run (before ++ [call])).last →
      target.chosen? ≠ none ∨ target'.chosen? ≠ none := by
  have hdone : (run (before ++ [call])).error = none := error_run_iff.2 hcalls
  have hbefore : (run before).error = none := error_run_of_append hdone
  have hnamed := named_run before
  rw [run_concat] at hdone ⊢
  refine ⟨fun label htarget => ?_, fun edge hedge hname => ?_, ?_⟩
  · -- a name that no vertex and no edge has is not listed, so it is added to the list
    obtain ⟨hlast, hvertices, -⟩ := step_of_target hbefore hdone htarget
    refine ⟨_, hlast, fun hchosen => ?_⟩
    have hfresh : vertexName (run before).vertexCount ∉ (run before).names :=
      fun hmem => hchosen (hnamed.vertexName_mem hmem)
    have hlisted : ¬ hasVertex (run before).query (vertexName (run before).vertexCount) = true :=
      fun hhas => hfresh (mem_names.2 (Or.inl (hasVertex_iff.1 hhas)))
    refine ⟨hfresh, hvertices.trans ?_⟩
    exact if_neg hlisted
  · obtain ⟨c, hconnections, hvar⟩ := step_of_edge hbefore hdone hedge
    have hc : c.edge.name = edgeName (run before).edgeCount := by
      rw [hvar, nameEdge, hname]
    refine ⟨c, hconnections, fun hchosen hmem => ?_⟩
    rw [hc] at hchosen hmem
    exact hchosen (hnamed.edgeName_mem hmem)
  · intro earlier first later target target' hsplit htarget htarget' hlast
    subst hsplit
    have hfirst : (run (earlier ++ [first])).error = none := by
      rw [List.append_cons] at hbefore
      exact error_run_of_append hbefore
    have hearlier : (run earlier).error = none := error_run_of_append hfirst
    rw [run_concat] at hfirst hlast
    rw [run_append] at hbefore hdone hlast
    exact chosen?_of_last_eq hearlier hfirst hbefore hdone htarget htarget' hlast

/-- A third target is called `c` and a first edge without a name `anon_edge0`, whatever the caller
called the rest. -/
theorem generated_names_fresh_of_third_target :
    let before : List Call :=
      [.matchVertex (.named "start" none), .whereEdge ⟨some "c1", none⟩ (.labelled "User"),
        .direction .ingoing]
    let call : Call := .whereEdge ⟨none, some "KNOWS"⟩ (.labelled "User")
    firstMistake? false (before ++ [call]) = none ∧
      "c" ∉ (run before).names ∧
      (run (before ++ [call])).query.vertices = [⟨"start", false⟩, ⟨"b", false⟩, ⟨"c", false⟩] ∧
      "anon_edge0" ∉ (run before).names ∧
      (run (before.take 2)).last ≠ (run (before ++ [call])).last := by
  intro before call
  have hcalls : firstMistake? false (before ++ [call]) = none := rfl
  have hlast : (run (before ++ [call])).last = some "c" := by decide +kernel
  have hconnection : (run (before ++ [call])).query.connections =
      (run before).query.connections ++ [⟨⟨"c", false⟩, ⟨"b", false⟩, ⟨"anon_edge0", true⟩⟩] := by
    decide +kernel
  obtain ⟨hvertex, hedge, hpair⟩ := generated_names_fresh_unless_chosen before call hcalls
  obtain ⟨x, hx, hfresh⟩ := hvertex "User" rfl
  cases hlast.symm.trans hx
  obtain ⟨hnames, hvertices⟩ := hfresh (by decide +kernel)
  obtain ⟨c, hc, hedgeName⟩ := hedge ⟨none, some "KNOWS"⟩ rfl rfl
  cases (List.cons.inj (List.append_cancel_left (hconnection.symm.trans hc))).1
  refine ⟨hcalls, hnames, hvertices, hedgeName (by decide +kernel), fun heq => ?_⟩
  rcases hpair (before.take 1) _ _ _ _ rfl rfl rfl heq with hchosen | hchosen <;>
    exact hchosen rfl

/-- Names that the caller chose are not avoided: the second target is the vertex `b` that there is,
the edge without a name gets the name of the edge that there is, and a target that is called `a` is
the first one, which nobody named. -/
theorem generated_names_shared_with_caller :
    (let before : List Call := [.matchVertex (.named "b" none)]
      let call : Call := .matchVertex (.labelled "User")
      firstMistake? false (before ++ [call]) = none ∧
        (run (before ++ [call])).last = (run before).last ∧
        (run (before ++ [call])).query.vertices = (run before).query.vertices) ∧
    (let before : List Call :=
        [.matchVertex (.named "x" none), .whereEdge ⟨some "anon_edge0", none⟩ (.named "y" none)]
      let call : Call := .whereEdge ⟨none, none⟩ (.named "z" none)
      firstMistake? false (before ++ [call]) = none ∧
        (run before).query.connections.map (fun c => c.edge.name) = ["anon_edge0"] ∧
        (run (before ++ [call])).query.connections.map (fun c => c.edge.name) =
          ["anon_edge0", "anon_edge0"]) ∧
    (let before : List Call := [.matchVertex (.labelled "User")]
      let call : Call := .matchVertex (.named "a" none)
      firstMistake? false (before ++ [call]) = none ∧
        (run (before ++ [call])).last = (run before).last) := by
  refine ⟨⟨rfl, ?_, ?_⟩, ⟨rfl, ?_, ?_⟩, ⟨rfl, ?_⟩⟩ <;> decide +kernel

end Builder

end GraphPlan
