import GraphPlan.Proofs.Plan.Fetch
import GraphPlan.Proofs.Schema.Reachable

/-!
# What fetching adds

`Plan.fetch` goes through the variables of an expression and looks at the plan as it is by then.
What it adds can be told from the plan before: `Schema.missing` lists the columns and
`Schema.fetchers` the operators, and neither looks at a plan that is half done. This is so because
what is fetched for one variable is never about another one (`Schema.missingOf_pushAll`,
`Schema.fetchersOf_pushAll`). So nothing is fetched twice, and fetching again does nothing
(`Plan.fetch_adds_missing_once`).
-/

namespace GraphPlan

/-- The variable that a column is looked up for. -/
def Content.subject? : Content → Option String
  | .var x => some x
  | .attr x _ => some x
  | .label x => some x
  | _ => none

/-- A tree with operators on top of it, the last one outermost. -/
def PlanNode.stack (root : PlanNode) (ops : List Operator) : PlanNode :=
  ops.foldl (fun tree op => .node op [tree]) root

/-- Elements that contribute nothing may be left out. -/
theorem flatMap_filter_of_nil {α β : Type} {f : α → List β} {keep : α → Bool} {l : List α}
    (h : ∀ a ∈ l, keep a = false → f a = []) : (l.filter keep).flatMap f = l.flatMap f := by
  induction l with
  | nil => rfl
  | cons a l ih =>
    have htail := ih fun b hb => h b (List.mem_cons_of_mem a hb)
    cases hkeep : keep a with
    | true => rw [List.filter_cons_of_pos hkeep, List.flatMap_cons, List.flatMap_cons, htail]
    | false =>
      rw [List.filter_cons_of_neg (by simp [hkeep]), List.flatMap_cons, htail,
        h a List.mem_cons_self hkeep, List.nil_append]

namespace Schema

/-! ## What is missing -/

/-- The attributes that are needed from a variable and have no column, by name. -/
def missingAttributes (s : Schema) (x : String) (use : VariableUse) : List String :=
  use.attributes.names.filter fun a => decide (Content.attr x a ∉ s.contents)

/-- Whether the label of a variable is needed and has no column. -/
def missesLabel (s : Schema) (x : String) (use : VariableUse) : Bool :=
  use.labelChecked && decide (Content.label x ∉ s.contents)

/-- The columns that are needed from a variable and missing: attributes before the label, and none
if the variable itself has no column. -/
def missingOf (s : Schema) (x : String) (use : VariableUse) : List Content :=
  if Content.var x ∈ s.contents then
    (s.missingAttributes x use).map (.attr x) ++ if s.missesLabel x use then [.label x] else []
  else []

/-- The operators that produce these columns: one for all attributes and one for the label, each
over the column of the variable. -/
def fetchersOf (scope : String) (s : Schema) (x : String) (use : VariableUse) : List Operator :=
  match s.varColumn? x with
  | none => []
  | some column =>
    (if s.missingAttributes x use = [] then []
      else [.getAttributes column scope (s.missingAttributes x use)]) ++
    if s.missesLabel x use then [.getType column] else []

/-- The columns that an expression needs and that are missing, by variable. -/
def missing (s : Schema) (usage : Usage) : List Content :=
  usage.vars.entries.flatMap fun entry => s.missingOf entry.1 entry.2

/-- The operators that produce them. -/
def fetchers (scope : String) (s : Schema) (usage : Usage) : List Operator :=
  usage.vars.entries.flatMap fun entry => s.fetchersOf scope entry.1 entry.2

variable {s : Schema} {scope x : String} {use : VariableUse} {cs : List Content} {c : Content}

theorem mem_missingOf (h : c ∈ s.missingOf x use) :
    (∃ a, c = .attr x a) ∨ c = .label x := by
  unfold missingOf at h
  split at h
  · rcases List.mem_append.1 h with h | h
    · obtain ⟨a, -, rfl⟩ := List.mem_map.1 h
      exact Or.inl ⟨a, rfl⟩
    · split at h
      · exact Or.inr (List.mem_singleton.1 h)
      · cases h
  · cases h

theorem subject?_of_mem_missingOf (h : c ∈ s.missingOf x use) : c.subject? = some x := by
  rcases mem_missingOf h with ⟨a, rfl⟩ | rfl <;> rfl

theorem var_notMem_missing {usage : Usage} : Content.var x ∉ s.missing usage := by
  intro h
  obtain ⟨entry, -, hmem⟩ := List.mem_flatMap.1 h
  rcases mem_missingOf hmem with ⟨a, hc⟩ | hc <;> cases hc

/-! ## Columns that are about other variables -/

theorem missesLabel_pushAll (h : Content.label x ∉ cs) :
    (s.pushAll cs).missesLabel x use = s.missesLabel x use := by
  simp [missesLabel, h]

theorem missingAttributes_pushAll (h : ∀ a, Content.attr x a ∉ cs) :
    (s.pushAll cs).missingAttributes x use = s.missingAttributes x use := by
  simp [missingAttributes, h]

/-- Columns about other variables hold nothing about this one. -/
theorem notMem_of_subject? (h : ∀ c ∈ cs, c.subject? ≠ some x) (hc : c.subject? = some x) :
    c ∉ cs :=
  fun hmem => h c hmem hc

theorem missingOf_pushAll (h : ∀ c ∈ cs, c.subject? ≠ some x) :
    (s.pushAll cs).missingOf x use = s.missingOf x use := by
  have hvar : Content.var x ∉ cs := notMem_of_subject? h rfl
  have hlabel : Content.label x ∉ cs := notMem_of_subject? h rfl
  have hattr : ∀ a, Content.attr x a ∉ cs := fun a => notMem_of_subject? h rfl
  unfold missingOf
  rw [missingAttributes_pushAll hattr, missesLabel_pushAll hlabel, contents_pushAll]
  simp [hvar]

theorem fetchersOf_pushAll (h : ∀ c ∈ cs, c.subject? ≠ some x) :
    (s.pushAll cs).fetchersOf scope x use = s.fetchersOf scope x use := by
  have hlabel : Content.label x ∉ cs := notMem_of_subject? h rfl
  have hattr : ∀ a, Content.attr x a ∉ cs := fun a => notMem_of_subject? h rfl
  unfold fetchersOf
  rw [varColumn?_pushAll (notMem_of_subject? h rfl), missingAttributes_pushAll hattr,
    missesLabel_pushAll hlabel]

/-! ## Nothing is missing twice, or without a variable -/

theorem nodup_missingOf (s : Schema) (x : String) (use : VariableUse) :
    (s.missingOf x use).Nodup := by
  unfold missingOf
  split
  · have hattrs : ((s.missingAttributes x use).map (Content.attr x)).Nodup := by
      refine (use.attributes.nodup_names.filter _).map ?_
      intro a b hab
      cases hab
      rfl
    refine List.nodup_append.2 ⟨hattrs, ?_, ?_⟩
    · split <;> simp
    · intro c hc d hd
      obtain ⟨a, -, rfl⟩ := List.mem_map.1 hc
      split at hd
      · simp [List.mem_singleton.1 hd]
      · cases hd
  · exact List.nodup_nil

theorem nodup_missing (s : Schema) (usage : Usage) : (s.missing usage).Nodup := by
  refine List.nodup_flatMap.2 ⟨fun entry _ => s.nodup_missingOf entry.1 entry.2, ?_⟩
  refine (List.pairwise_map.1 usage.vars.nodup_names).imp ?_
  intro entry entry' hne c hc hc'
  have hsubject := (subject?_of_mem_missingOf hc).symm.trans (subject?_of_mem_missingOf hc')
  exact hne (Option.some.inj hsubject)

theorem missingOf_eq_nil (h : Content.var x ∉ s.contents) : s.missingOf x use = [] :=
  if_neg h

theorem Valid.fetchersOf_eq_nil (hs : s.Valid) (h : Content.var x ∉ s.contents) :
    s.fetchersOf scope x use = [] := by
  have hnone : s.varColumn? x = none := by
    rw [← hs.hasVariable_iff, hasVariable] at h
    exact Option.not_isSome_iff_eq_none.1 h
  unfold fetchersOf
  rw [hnone]

/-! ## Nothing is missing from what is offered -/

theorem Valid.missingAttributes_of_offers (hs : s.Valid) (h : s.Offers x use) :
    s.missingAttributes x use = [] := by
  refine List.filter_eq_nil_iff.2 ?_
  intro a ha
  simp [hs.hasAttribute_iff.1 (h.attributes a ha)]

theorem Valid.missesLabel_of_offers (hs : s.Valid) (h : s.Offers x use) :
    s.missesLabel x use = false := by
  unfold missesLabel
  cases hchecked : use.labelChecked with
  | false => rfl
  | true => simp [hs.hasLabel_iff.1 (h.label hchecked)]

theorem Valid.missingOf_of_offers (hs : s.Valid) (h : s.Offers x use) :
    s.missingOf x use = [] := by
  unfold missingOf
  rw [hs.missingAttributes_of_offers h, hs.missesLabel_of_offers h]
  simp

theorem Valid.fetchersOf_of_offers (hs : s.Valid) (h : s.Offers x use) :
    s.fetchersOf scope x use = [] := by
  unfold fetchersOf
  rw [hs.missingAttributes_of_offers h, hs.missesLabel_of_offers h]
  split <;> rfl

end Schema

namespace Plan

variable {p : Plan} {scope x : String} {use : VariableUse}

/-! ## The plan after fetching -/

/-- A plan with operators on top of its tree and columns after its own. -/
def grown (p : Plan) (ops : List Operator) (cs : List Content) : Plan :=
  ⟨p.root.stack ops, p.schema.pushAll cs⟩

theorem grown_nil (p : Plan) : p.grown [] [] = p :=
  rfl

theorem grown_grown (p : Plan) (ops ops' : List Operator) (cs cs' : List Content) :
    (p.grown ops cs).grown ops' cs' = p.grown (ops ++ ops') (cs ++ cs') := by
  simp only [grown, PlanNode.stack, List.foldl_append, Schema.pushAll_append]

/-- All missing attributes are added by one operator, in the order in which it lists them. -/
theorem fetchAttributes_eq_grown (hp : p.schema.Valid) (column : Nat) :
    p.fetchAttributes scope x column use.attributes.names =
      p.grown (if p.schema.missingAttributes x use = [] then []
          else [.getAttributes column scope (p.schema.missingAttributes x use)])
        ((p.schema.missingAttributes x use).map (.attr x)) := by
  have hmissing : (use.attributes.names.filter fun a => !p.schema.hasAttribute x a) =
      p.schema.missingAttributes x use := by
    refine List.filter_congr ?_
    intro a _
    rw [Bool.eq_iff_iff, Bool.not_eq_true', decide_eq_true_iff, ← hp.hasAttribute_iff,
      Bool.not_eq_true]
  unfold fetchAttributes
  rw [hmissing]
  split
  · next hnil =>
    rw [if_pos hnil, hnil]
    rfl
  · next hne =>
    rw [if_neg hne, Schema.foldl_addAttribute]
    rfl

theorem fetchLabel_eq_grown (hp : p.schema.Valid) (column : Nat) :
    (if use.labelChecked then p.fetchLabel x column else p) =
      p.grown (if p.schema.missesLabel x use then [.getType column] else [])
        (if p.schema.missesLabel x use then [.label x] else []) := by
  have hlabel : p.schema.missesLabel x use = (use.labelChecked && !p.schema.hasLabel x) := by
    rw [Schema.missesLabel, Bool.eq_iff_iff]
    simp [← hp.hasLabel_iff]
  rw [hlabel]
  unfold fetchLabel
  cases use.labelChecked <;> cases p.schema.hasLabel x <;> rfl

/-- What is fetched for one variable. -/
theorem fetchVariable_eq_grown (hp : p.schema.Valid) :
    p.fetchVariable scope x use =
      p.grown (p.schema.fetchersOf scope x use) (p.schema.missingOf x use) := by
  cases hx : p.schema.varColumn? x with
  | none =>
    have hunbound : Content.var x ∉ p.schema.contents := by
      rw [← hp.hasVariable_iff, Schema.hasVariable, hx]
      simp
    rw [Schema.missingOf_eq_nil hunbound, hp.fetchersOf_eq_nil hunbound, grown_nil, fetchVariable,
      hx]
  | some column =>
    have hbound : Content.var x ∈ p.schema.contents :=
      hp.hasVariable_iff.1 (Schema.hasVariable_of_varColumn? hx)
    simp only [fetchVariable, Schema.fetchersOf, Schema.missingOf, hx, if_pos hbound]
    rw [fetchAttributes_eq_grown hp, fetchLabel_eq_grown (hp.pushAll _), grown_grown]
    -- the attributes just added do not change whether the label is missing
    have hlabel : Content.label x ∉ (p.schema.missingAttributes x use).map (.attr x) := by simp
    simp only [grown, Schema.missesLabel_pushAll hlabel]

/-- What is fetched for several variables does not depend on what was fetched for those before. -/
theorem foldl_fetchVariable_eq_grown (entries : List (String × VariableUse))
    (hnodup : (entries.map Prod.fst).Nodup) (hp : p.schema.Valid) :
    entries.foldl (fun p (x, use) => p.fetchVariable scope x use) p =
      p.grown (entries.flatMap fun entry => p.schema.fetchersOf scope entry.1 entry.2)
        (entries.flatMap fun entry => p.schema.missingOf entry.1 entry.2) := by
  induction entries generalizing p with
  | nil => rfl
  | cons entry entries ih =>
    obtain ⟨x, use⟩ := entry
    obtain ⟨hnew, hnodup⟩ := List.nodup_cons.1 hnodup
    have hsubject : ∀ other ∈ entries, ∀ c ∈ p.schema.missingOf x use,
        c.subject? ≠ some other.1 := by
      intro other hother c hc hsame
      rw [Schema.subject?_of_mem_missingOf hc] at hsame
      exact hnew (List.mem_map.2 ⟨other, hother, (Option.some.inj hsame).symm⟩)
    simp only [List.foldl_cons, List.flatMap_cons]
    rw [fetchVariable_eq_grown hp, ih hnodup (hp.pushAll _), grown_grown]
    congr 2
    · refine List.flatMap_congr ?_
      intro other hother
      exact Schema.fetchersOf_pushAll (hsubject other hother)
    · refine List.flatMap_congr ?_
      intro other hother
      exact Schema.missingOf_pushAll (hsubject other hother)

/-- What is fetched for an expression. -/
theorem fetch_eq_grown (hp : p.schema.Valid) (scope : String) (usage : Usage) :
    p.fetch scope usage =
      p.grown (p.schema.fetchers scope usage) (p.schema.missing usage) :=
  foldl_fetchVariable_eq_grown usage.vars.entries usage.vars.nodup_names hp

theorem valid_fetch (hp : p.schema.Valid) (scope : String) (usage : Usage) :
    (p.fetch scope usage).schema.Valid := by
  rw [fetch_eq_grown hp]
  exact hp.pushAll _

/-- Nothing is left to fetch. -/
theorem fetch_fetch (hp : p.schema.Valid) (scope scope' : String) (usage : Usage) :
    (p.fetch scope usage).fetch scope' usage = p.fetch scope usage := by
  have hschema : (p.fetch scope usage).schema = p.schema.pushAll (p.schema.missing usage) := by
    rw [fetch_eq_grown hp]
    rfl
  have hvalid := valid_fetch hp scope usage
  -- a variable that has a column now had one before, so it was fetched from
  have hoffers : ∀ entry ∈ usage.vars.entries,
      Content.var entry.1 ∈ (p.fetch scope usage).schema.contents →
        (p.fetch scope usage).schema.Offers entry.1 entry.2 := by
    intro entry hentry hbound
    rw [hschema, Schema.contents_pushAll, List.mem_append] at hbound
    have hbefore := hbound.resolve_right Schema.var_notMem_missing
    exact offers_fetch (NameMap.get?_of_mem_entries hentry) (hp.hasVariable_iff.2 hbefore)
  have hmissing : (p.fetch scope usage).schema.missing usage = [] := by
    refine List.flatMap_eq_nil_iff.2 ?_
    intro entry hentry
    by_cases hbound : Content.var entry.1 ∈ (p.fetch scope usage).schema.contents
    · exact hvalid.missingOf_of_offers (hoffers entry hentry hbound)
    · exact Schema.missingOf_eq_nil hbound
  have hfetchers : (p.fetch scope usage).schema.fetchers scope' usage = [] := by
    refine List.flatMap_eq_nil_iff.2 ?_
    intro entry hentry
    by_cases hbound : Content.var entry.1 ∈ (p.fetch scope usage).schema.contents
    · exact hvalid.fetchersOf_of_offers (hoffers entry hentry hbound)
    · exact hvalid.fetchersOf_eq_nil hbound
  rw [fetch_eq_grown hvalid, hmissing, hfetchers, grown_nil]

/-- Variables that have no column may as well be left out. -/
theorem fetch_eq_of_bound (hp : p.schema.Valid) (scope : String) {usage usage' : Usage}
    (h : usage'.vars.entries = usage.vars.entries.filter fun entry =>
      decide (Content.var entry.1 ∈ p.schema.contents)) :
    p.fetch scope usage' = p.fetch scope usage := by
  rw [fetch_eq_grown hp, fetch_eq_grown hp, Schema.fetchers, Schema.fetchers, Schema.missing,
    Schema.missing, h]
  generalize usage.vars.entries = entries
  congr 1
  · refine flatMap_filter_of_nil ?_
    intro entry _ hunbound
    exact hp.fetchersOf_eq_nil (of_decide_eq_false hunbound)
  · refine flatMap_filter_of_nil ?_
    intro entry _ hunbound
    exact Schema.missingOf_eq_nil (of_decide_eq_false hunbound)

/-- Fetching for an expression gives columns to all that it needs from the variables that have one.
It adds exactly the missing columns, each once, and the operators that produce them; variables
without a column play no part in it, and doing it again changes nothing. -/
theorem fetch_adds_missing_once {n : Nat} (hp : Schema.Reachable n p.schema) (scope : String)
    (usage : Usage) :
    (∀ x use, usage.vars.get? x = some use → Content.var x ∈ p.schema.contents →
      (p.fetch scope usage).schema.Offers x use) ∧
    (p.fetch scope usage).schema = p.schema.pushAll (p.schema.missing usage) ∧
    (p.schema.missing usage).Nodup ∧
    (p.fetch scope usage).root = p.root.stack (p.schema.fetchers scope usage) ∧
    (∀ usage' : Usage, (usage'.vars.entries = usage.vars.entries.filter fun entry =>
        decide (Content.var entry.1 ∈ p.schema.contents)) →
      p.fetch scope usage' = p.fetch scope usage) ∧
    ∀ scope', (p.fetch scope usage).fetch scope' usage = p.fetch scope usage := by
  have hvalid := hp.counted.valid
  have hgrown := fetch_eq_grown hvalid scope usage
  refine ⟨?_, congrArg Plan.schema hgrown, p.schema.nodup_missing usage,
    congrArg Plan.root hgrown, ?_, ?_⟩
  · intro x use huse hbound
    exact offers_fetch huse (hvalid.hasVariable_iff.2 hbound)
  · intro usage' h
    exact fetch_eq_of_bound hvalid scope h
  · intro scope'
    exact fetch_fetch hvalid scope scope' usage

/-- A variable with one of two attributes and no label, one with two columns, and one with none. -/
theorem fetch_adds_missing_once_of_three_variables :
    let schema := stateAfter (Schema.Change.addVariable "b").run
      (stateAfter (Schema.Change.addAttribute "a" "age").run
        (stateAfter (Schema.Change.addVariable "b").run
          (stateAfter (Schema.Change.addVariable "a").run .empty)))
    let p : Plan := ⟨.leaf .scanNodes, schema⟩
    let usage := ((Expr.binary .and (.hasLabel "a" "Person")
      (.binary .and (.binary (.compare .lt) (.prop "a" "size") (.prop "c" "size"))
        (.binary (.compare .lt) (.prop "b" "size") (.prop "a" "age")))).analyze .preGroup).usage
    schema.missing usage = [.attr "a" "size", .label "a", .attr "b" "size"] ∧
    schema.fetchers "s" usage =
      [.getAttributes 0 "s" ["size"], .getType 0, .getAttributes 3 "s" ["size"]] ∧
    Schema.Reachable 0 schema ∧
    (∀ x use, usage.vars.get? x = some use → Content.var x ∈ p.schema.contents →
      (p.fetch "s" usage).schema.Offers x use) ∧
    (p.fetch "s" usage).schema = p.schema.pushAll (p.schema.missing usage) ∧
    (p.schema.missing usage).Nodup ∧
    (p.fetch "s" usage).root = p.root.stack (p.schema.fetchers "s" usage) ∧
    (∀ usage' : Usage, (usage'.vars.entries = usage.vars.entries.filter fun entry =>
        decide (Content.var entry.1 ∈ p.schema.contents)) →
      p.fetch "s" usage' = p.fetch "s" usage) ∧
    ∀ scope', (p.fetch "s" usage).fetch scope' usage = p.fetch "s" usage := by
  intro schema p usage
  have hreachable : Schema.Reachable 0 schema :=
    (((Schema.Reachable.empty.change (.addVariable "a")).change (.addVariable "b")).change
      (.addAttribute "a" "age")).change (.addVariable "b")
  exact ⟨by decide, rfl, hreachable, fetch_adds_missing_once (p := p) hreachable "s" usage⟩

end Plan

end GraphPlan
