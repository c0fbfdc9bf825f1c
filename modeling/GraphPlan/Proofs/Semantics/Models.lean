import GraphPlan.Proofs.Planner.Derivation
import GraphPlan.Proofs.Semantics.Assignment

/-!
# Matches along a derivation

`Models` says that an assignment is a match as far as a plan has come: of the connections that were
followed and the filters that were applied. It depends only on the variables that the plan binds
(`Models.congr`), and each step of a derivation adds one condition to it.
-/

namespace GraphPlan

variable {Node Edge Atom : Type}

/-- An assignment is a match as far as a plan has come. -/
structure Models (G : PropertyGraph Node Edge Atom) (scope : String) (r : Registry) (s : Schema)
    (cs : List Connection) (es : List Expr) (σ : String → Object Node Edge) : Prop where
  /-- The variables of the schema stand for objects of their kind. -/
  kind : ∀ x, s.hasVariable x = true → r.kind? x = some (σ x).kind
  /-- The connections run along edges. -/
  runs : ∀ c ∈ cs, c.RunsIn G σ
  /-- The filters are true. -/
  holds : ∀ e ∈ es, e.eval G scope (fun x => some (σ x)) = some (.bool true)

variable {config : Config} {G : PropertyGraph Node Edge Atom} {scope : String} {r : Registry}
  {cs cs' : List Connection} {es es' : List Expr} {n n' : Nat} {p p' : Plan}
  {σ τ : String → Object Node Edge}

/-- Names that a plan does not bind make no difference. -/
theorem Models.congr (hσ : Models G scope r p.schema cs es σ) (h : PatternPlan config r cs es n p)
    (hτ : ∀ x, p.schema.hasVariable x = true → τ x = σ x) :
    Models G scope r p.schema cs es τ where
  kind x hx := by rw [hτ x hx, hσ.kind x hx]
  runs c hc := by
    have hname : ∀ x ∈ c.names, τ x = σ x := fun x hx => hτ x (h.hasVariable_of_mem_names hc hx)
    simp only [Connection.names, List.forall_mem_cons] at hname
    rw [Connection.RunsIn, hname.1, hname.2.1, hname.2.2.1]
    exact hσ.runs c hc
  holds e he := by
    rw [← hσ.holds e he]
    refine e.eval_congr fun x hx => ?_
    rw [hτ x (h.hasVariable_of_mem_exprNames he hx)]

/-- A connection that runs along an edge has objects of the right kinds. -/
theorem Connection.Typed.kind_of_runsIn {c : Connection} (hc : c.Typed r) (h : c.RunsIn G σ)
    {x : String} (hx : x ∈ c.names) : r.kind? x = some (σ x).kind := by
  obtain ⟨e, hedge, hsrc, hdst⟩ := h
  simp only [Connection.names, List.mem_cons, List.not_mem_nil, or_false] at hx
  rcases hx with rfl | rfl | rfl
  · rw [hsrc, hc.src]; rfl
  · rw [hdst, hc.dst]; rfl
  · rw [hedge, hc.edge]; rfl

theorem models_follow_iff (h : PatternPlan config r cs es n p) {c : Connection} (hc : c.Typed r)
    {step : Traversal} {column : Nat} (hstart : p.schema.varColumn? (step.start c) = some column) :
    Models G scope r (p.follow c step column).schema (c :: cs) es σ ↔
      Models G scope r p.schema cs es σ ∧ c.RunsIn G σ := by
  constructor
  · intro hσ
    refine ⟨⟨fun x hx => ?_, fun d hd => hσ.runs d (List.mem_cons_of_mem _ hd), hσ.holds⟩,
      hσ.runs c List.mem_cons_self⟩
    exact hσ.kind x ((h.hasVariable_follow hstart x).2 (Or.inl hx))
  · rintro ⟨hσ, hruns⟩
    refine ⟨fun x hx => ?_, List.forall_mem_cons.2 ⟨hruns, hσ.runs⟩, hσ.holds⟩
    rcases (h.hasVariable_follow hstart x).1 hx with hx | hx
    · exact hσ.kind x hx
    · exact hc.kind_of_runsIn hruns hx

theorem models_beside_iff (h : PatternPlan config r cs es n p)
    (h' : PatternPlan config r cs' es' n' p') (op : Operator) :
    Models G scope r (p.beside p' op).schema (cs ++ cs') (es ++ es') σ ↔
      Models G scope r p.schema cs es σ ∧ Models G scope r p'.schema cs' es' σ := by
  constructor
  · intro hσ
    refine ⟨⟨fun x hx => ?_, fun c hc => ?_, fun e he => ?_⟩, fun x hx => ?_, fun c hc => ?_,
      fun e he => ?_⟩
    · exact hσ.kind x ((h.hasVariable_beside h' op x).2 (Or.inl hx))
    · exact hσ.runs c (List.mem_append_left _ hc)
    · exact hσ.holds e (List.mem_append_left _ he)
    · exact hσ.kind x ((h.hasVariable_beside h' op x).2 (Or.inr hx))
    · exact hσ.runs c (List.mem_append_right _ hc)
    · exact hσ.holds e (List.mem_append_right _ he)
  · rintro ⟨hσ, hσ'⟩
    refine ⟨fun x hx => ?_, fun c hc => ?_, fun e he => ?_⟩
    · exact ((h.hasVariable_beside h' op x).1 hx).elim (hσ.kind x) (hσ'.kind x)
    · exact (List.mem_append.1 hc).elim (hσ.runs c) (hσ'.runs c)
    · exact (List.mem_append.1 he).elim (hσ.holds e) (hσ'.holds e)

/-- One more filter. -/
theorem models_cons_iff {s : Schema} {e : Expr} :
    Models G scope r s cs (e :: es) σ ↔
      Models G scope r s cs es σ ∧ e.eval G scope (fun x => some (σ x)) = some (.bool true) := by
  constructor
  · intro hσ
    have hholds := List.forall_mem_cons.1 hσ.holds
    exact ⟨⟨hσ.kind, hσ.runs, hholds.2⟩, hholds.1⟩
  · rintro ⟨hσ, he⟩
    exact ⟨hσ.kind, hσ.runs, List.forall_mem_cons.2 ⟨he, hσ.holds⟩⟩

end GraphPlan
