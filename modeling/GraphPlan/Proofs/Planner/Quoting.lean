import GraphPlan.Proofs.Planner.Counts
import GraphPlan.Proofs.Planner.PlanText

/-!
# Strings in the text of a plan

The strings of a query reach the text of its plan between single quotes, as they are. Here two
queries are compared that differ in such strings only. Their plans have the same columns and the same
trees, up to the strings, whatever these contain. The texts also agree, outside of the quotes, as long
as the strings that differ have no quotes of their own, and as long as every other name in the text
has an even number of them: a name with a single quote in it turns the inside of all quotes after it
into the outside. `Query.plan_confines_strings` says this, and `Query.plan_releases_quoted_strings`
that both conditions are needed.
-/

namespace GraphPlan

namespace Text

/-! ## The outside of quotes -/

/-- The characters outside of quotes, where reading starts inside of them or not. -/
def outsideFrom : Bool → List Char → List Char
  | _, [] => []
  | inside, c :: r =>
    if c = '\'' then outsideFrom (!inside) r
    else if inside then outsideFrom inside r
    else c :: outsideFrom inside r

/-- A text without its quoted regions. Each goes from a quote up to the next one. -/
def outside (s : String) : List Char :=
  outsideFrom false s.toList

/-- The number of quotes is even. -/
def Balanced (s : String) : Prop :=
  s.toList.count '\'' % 2 = 0

instance (s : String) : Decidable (Balanced s) :=
  inferInstanceAs (Decidable (_ = _))

variable {a b c d : String}

/-- After an odd number of quotes, inside and outside are exchanged. -/
theorem outsideFrom_append (l r : List Char) (inside : Bool) :
    outsideFrom inside (l ++ r) =
      outsideFrom inside l ++ outsideFrom (inside ^^ (l.count '\'' % 2 == 1)) r := by
  induction l generalizing inside with
  | nil => simp [outsideFrom]
  | cons x l ih =>
    by_cases hx : x = '\''
    · have hparity : (!inside ^^ (l.count '\'' % 2 == 1)) =
          (inside ^^ ((l.count '\'' + 1) % 2 == 1)) := by
        rcases Nat.mod_two_eq_zero_or_one (l.count '\'') with h | h <;>
          simp [h, Nat.add_mod]
      rw [List.cons_append, outsideFrom, outsideFrom, if_pos hx, if_pos hx, ih, hparity, hx,
        List.count_cons_self]
    · rw [List.cons_append, outsideFrom, outsideFrom, if_neg hx, if_neg hx,
        List.count_cons_of_ne hx]
      split
      · exact ih inside
      · rw [ih inside, List.cons_append]

theorem outside_append (h : Balanced a) : outside (a ++ b) = outside a ++ outside b := by
  unfold Balanced at h
  rw [outside, String.toList_append, outsideFrom_append, h]
  rfl

theorem Balanced.append (ha : Balanced a) (hb : Balanced b) : Balanced (a ++ b) := by
  unfold Balanced at ha hb ⊢
  rw [String.toList_append, List.count_append]
  omega

theorem QuoteFree.balanced (h : QuoteFree a) : Balanced a := by
  rw [Balanced, List.count_eq_zero.2 h]

theorem balanced_quoted (h : Balanced a) : Balanced (Expr.quoted a) := by
  unfold Balanced at h ⊢
  rw [toList_quoted, List.count_cons_self, List.count_append, List.count_singleton_self]
  omega

theorem balanced_intercalate {texts : List String} (ha : Balanced a)
    (h : ∀ t ∈ texts, Balanced t) : Balanced (a.intercalate texts) := by
  induction texts with
  | nil =>
    rw [String.intercalate_nil]
    decide
  | cons t texts ih =>
    have ht := h t List.mem_cons_self
    have hrest := ih fun u hu => h u (List.mem_cons_of_mem _ hu)
    cases texts with
    | nil => exact String.intercalate_singleton ▸ ht
    | cons u texts =>
      rw [String.intercalate_cons_cons]
      exact (ht.append ha).append hrest

theorem balanced_repr (n : Nat) : Balanced (Nat.repr n) := by
  refine QuoteFree.balanced fun hmem => ?_
  cases isDigit_of_mem_repr hmem

/-- Both texts have an even number of quotes, and they agree outside of them. -/
structure SameOutside (a b : String) : Prop where
  balanced : Balanced a
  balanced' : Balanced b
  outside_eq : outside a = outside b

theorem SameOutside.refl (h : Balanced a) : SameOutside a a :=
  ⟨h, h, rfl⟩

theorem SameOutside.append (h : SameOutside a b) (h' : SameOutside c d) :
    SameOutside (a ++ c) (b ++ d) where
  balanced := h.balanced.append h'.balanced
  balanced' := h.balanced'.append h'.balanced'
  outside_eq := by
    rw [outside_append h.balanced, outside_append h.balanced', h.outside_eq, h'.outside_eq]

/-- Nothing of a quoted string without quotes is outside. -/
theorem outside_quoted (h : QuoteFree a) : outside (Expr.quoted a) = [] := by
  have hinside : ∀ l : List Char, '\'' ∉ l → outsideFrom true (l ++ ['\'']) = [] := by
    intro l hl
    induction l with
    | nil => rfl
    | cons x l ih =>
      rw [List.mem_cons, not_or] at hl
      rw [List.cons_append, outsideFrom, if_neg (Ne.symm hl.1), if_pos rfl]
      exact ih hl.2
  rw [outside, toList_quoted]
  exact hinside a.toList h

theorem sameOutside_quoted (ha : QuoteFree a) (hb : QuoteFree b) :
    SameOutside (Expr.quoted a) (Expr.quoted b) where
  balanced := balanced_quoted ha.balanced
  balanced' := balanced_quoted hb.balanced
  outside_eq := by rw [outside_quoted ha, outside_quoted hb]

end Text

open Text

/-! ## Texts without quotes -/

theorem balanced_intText (i : Int) : Balanced (intText i) := by
  refine QuoteFree.balanced fun hmem => ?_
  rcases eq_minus_or_isDigit_of_mem_intText hmem with h | h <;> cases h

theorem Hundredths.balanced_text (v : Hundredths) : Balanced v.text := by
  cases v with
  | finite negative n =>
    refine QuoteFree.balanced fun hmem => ?_
    cases isNumeralChar_of_mem_text rfl hmem
  | infinite negative => cases negative <;> decide
  | nan => decide

theorem Layout.balanced_text (l : Layout) (v : Binary64) : Balanced (l.text v) := by
  by_cases hv : v.isFinite = true
  · refine QuoteFree.balanced fun hmem => ?_
    cases isNumeralChar_of_mem_text hv hmem
  · rw [text, if_neg hv]
    split
    · decide
    · split <;> decide

theorem balanced_symbol (op : BinaryOp) : Balanced op.symbol := by
  cases op with
  | compare c => cases c <;> decide
  | _ => decide

namespace Operator

theorem balanced_columnText (i : Nat) : Balanced (Scalar.columnText i) :=
  Balanced.append (by decide) (balanced_repr i)

theorem balanced_pairText (pair : Nat × Nat) : Balanced (pairText pair) :=
  ((balanced_columnText _).append (by decide)).append (balanced_columnText _)

theorem balanced_pairsText (pairs : List (Nat × Nat)) : Balanced (pairsText pairs) := by
  have hopen : Balanced "(" := by decide
  unfold pairsText
  split
  · exact balanced_pairText _
  · refine balanced_intercalate (by decide) (List.forall_mem_map.2 fun pair _ => ?_)
    exact (hopen.append (balanced_pairText pair)).append (by decide)

theorem balanced_positionsText (columns : List Nat) : Balanced (positionsText columns) := by
  have hopen : Balanced "[ " := by decide
  have hlist : Balanced (", ".intercalate (columns.map Nat.repr)) :=
    balanced_intercalate (by decide) (List.forall_mem_map.2 fun i _ => balanced_repr i)
  exact (hopen.append hlist).append (by decide)

theorem balanced_boundText (bound : Option UInt64) : Balanced (boundText bound) := by
  cases bound with
  | none => decide
  | some n => exact balanced_repr n.toNat

theorem balanced_attributeText {scope attr : String} (hscope : Balanced scope)
    (hattr : Balanced attr) : Balanced (attributeText scope attr) :=
  (hscope.append (by decide)).append (balanced_quoted hattr)

theorem balanced_aggregatesText {aggregates : List Aggregation}
    (h : ∀ a ∈ aggregates, a.explicit = true) : Balanced (aggregatesText aggregates) := by
  have hcall : ∀ (kind : AggregateKind) {arg : String}, Balanced arg →
      Balanced (Aggregation.text.aggregateCall kind arg) := by
    intro kind arg harg
    have hname : Balanced kind.name := by cases kind <;> decide
    exact ((hname.append (by decide)).append harg).append (by decide)
  unfold aggregatesText
  split
  · decide
  · refine balanced_intercalate (by decide) (List.forall_mem_map.2 fun a ha => ?_)
    cases a with
    | all kind => exact hcall kind (by decide)
    | column kind i => exact hcall kind (balanced_repr i)
    | verbatim text => cases h _ ha

end Operator

/-! ## Texts with strings -/

/-- Any two strings, and otherwise the same data. -/
def Datum.Reworded : Datum → Datum → Prop
  | .string _, .string _ => True
  | d, d' => d = d'

/-- The quotes of a name, a label or a string come in pairs. -/
def Datum.Balanced : Datum → Prop
  | .string value => Text.Balanced value
  | .label value => Text.Balanced value
  | .property name => Text.Balanced name
  | .decimal _ => True

/-- Two strings without quotes, and otherwise the same data with an even number of quotes. -/
def Datum.Confined (d d' : Datum) : Prop :=
  (∃ v w, d = .string v ∧ d' = .string w ∧ QuoteFree v ∧ QuoteFree w) ∨ d = d' ∧ d.Balanced

theorem Datum.Confined.eq {d d' : Datum} (h : d.Confined d') (hd : ∀ v, d ≠ .string v) :
    d = d' ∧ d.Balanced := by
  rcases h with ⟨v, w, rfl, -⟩ | h
  · exact absurd rfl (hd v)
  · exact h

theorem Datum.Confined.sameOutside {v w : String} (h : Datum.Confined (.string v) (.string w)) :
    SameOutside (Expr.quoted v) (Expr.quoted w) := by
  rcases h with ⟨v', w', hv, hw, hfree, hfree'⟩ | ⟨heq, hbalanced⟩
  · cases hv
    cases hw
    exact sameOutside_quoted hfree hfree'
  · cases heq
    exact .refl (balanced_quoted hbalanced)

theorem Scalar.Similar.sameOutside {t t' : Scalar} (h : Scalar.Similar Datum.Confined t t') :
    SameOutside t.text t'.text := by
  have hparen : ∀ {a b : String}, SameOutside a b →
      SameOutside (parenthesized a) (parenthesized b) := fun h =>
    ((SameOutside.refl (by decide)).append h).append (.refl (by decide))
  induction h with
  | column i => exact .refl (Operator.balanced_columnText i)
  | int value => exact .refl (balanced_intText _)
  | decimal h =>
    cases (h.eq (by simp)).1
    exact .refl (Hundredths.balanced_text _)
  | str h => exact h.sameOutside
  | bool value => cases value <;> exact .refl (by decide)
  | binary op _ _ ihl ihr =>
    have hblank : SameOutside " " " " := .refl (by decide)
    exact ((((hparen ihl).append hblank).append (.refl (balanced_symbol op))).append hblank).append
      (hparen ihr)
  | unary op _ ih => cases op <;> exact (SameOutside.refl (by decide)).append (hparen ih)
  | isLabel i h =>
    obtain ⟨heq, hbalanced⟩ := h.eq (by simp)
    cases heq
    exact .refl (((Operator.balanced_columnText i).append (by decide)).append
      (balanced_quoted hbalanced))

theorem ScanValue.Similar.sameOutside {v v' : ScanValue}
    (h : ScanValue.Similar Datum.Confined v v') : SameOutside v.text v'.text := by
  cases h with
  | str h => exact h.sameOutside
  | int value => exact .refl (balanced_intText _)
  | decimal h =>
    cases (h.eq (by simp)).1
    exact .refl ((Layout.balanced_text _ _).append (by decide))
  | bool value => cases value <;> exact .refl (by decide)

/-! ## Operators and trees -/

namespace Operator

/-- Whether the operator computes a column. -/
def isExtend : Operator → Bool
  | extend .. => true
  | _ => false

variable {config : Config} {op op' : Operator}

theorem Similar.start_eq (h : op.Similar config config Datum.Confined op') :
    op.keyword = op'.keyword ∧ op.spaced = op'.spaced ∧ op.arity = op'.arity := by
  cases h <;> exact ⟨rfl, rfl, rfl⟩

/-- What stands after the inputs. -/
theorem Similar.sameOutside_arguments (hscope : Balanced config.attributeScope)
    (hjoin : Balanced config.joinType) (hextend : op.isExtend = false)
    (h : op.Similar config config Datum.Confined op') :
    SameOutside op.arguments op'.arguments := by
  have hblank : Balanced " " := by decide
  have hcomma : Balanced ", " := by decide
  have hend : Balanced " )" := by decide
  cases h with
  | scanNodes => exact .refl (by decide)
  | scanLabel h =>
    obtain ⟨heq, hbalanced⟩ := h.eq (by simp)
    cases heq
    exact .refl ((balanced_quoted hbalanced).append (by decide))
  | scanAttribute op hattr h =>
    have hname := balanced_attributeText hscope (hattr.eq (by simp)).2
    have hop := ((hname.append hblank).append (balanced_symbol (.compare op))).append hblank
    exact ((SameOutside.refl hop).append h.sameOutside).append (.refl hend)
  | matchColumns pairs => exact .refl ((hcomma.append (balanced_pairsText pairs)).append hend)
  | select h => exact ((SameOutside.refl hcomma).append h.sameOutside).append (.refl hend)
  | adjacent edge => exact .refl ((hcomma.append (balanced_repr edge)).append (by decide))
  | explode start direction =>
    have hdirection : Balanced direction.keyword := by cases direction <;> decide
    have hstart := (hcomma.append (balanced_repr start)).append (by decide : Balanced ", [ ALL ")
    exact .refl ((hstart.append hdirection).append (by decide))
  | getAttributes object _ h =>
    have hobject := (hcomma.append (balanced_repr object)).append (by decide : Balanced ", [")
    have hattrs := balanced_intercalate (a := ",") (by decide) (List.forall_mem_map.2 fun a ha =>
      hblank.append (balanced_attributeText hscope ((h a ha).eq (by simp)).2))
    exact .refl ((hobject.append hattrs).append (by decide))
  | getType object => exact .refl ((hcomma.append (balanced_repr object)).append hend)
  | join h =>
    have hpredicate := (SameOutside.refl hcomma).append h.sameOutside
    exact ((hpredicate.append (.refl (by decide))).append (.refl (balanced_quoted hjoin))).append
      (.refl (by decide))
  | product => exact .refl hend
  | extend h => cases hextend
  | group columns h =>
    have hcolumns := hcomma.append (balanced_positionsText columns)
    exact .refl (((hcolumns.append (by decide)).append (balanced_aggregatesText h)).append
      (by decide))
  | sort columns | project columns =>
    exact .refl ((hcomma.append (balanced_positionsText columns)).append (by decide))
  | slice offset limit =>
    have hoffset := (hcomma.append (balanced_boundText offset)).append hcomma
    exact .refl ((hoffset.append (balanced_boundText limit)).append hend)

theorem Similar.sameOutside_text (hscope : Balanced config.attributeScope)
    (hjoin : Balanced config.joinType) (hextend : op.isExtend = false)
    (h : op.Similar config config Datum.Confined op') {first first' second second' : String}
    (hfirst : SameOutside first first') (hsecond : SameOutside second second') :
    SameOutside (op.text first second) (op'.text first' second') := by
  have harguments := h.sameOutside_arguments hscope hjoin hextend
  obtain ⟨hkeyword, hspaced, harity⟩ := h.start_eq
  have hword : Balanced op'.keyword.word := by cases op'.keyword <;> decide
  have hopen : SameOutside (if op'.spaced then "( " else "(") (if op'.spaced then "( " else "(") := by
    cases op'.spaced <;> exact .refl (by decide)
  have hinputs : SameOutside (op.inputsText first second) (op'.inputsText first' second') := by
    unfold inputsText
    rw [harity]
    split
    · exact .refl (by decide)
    · exact hfirst
    · exact (hfirst.append (.refl (by decide))).append hsecond
  rw [text_eq, text_eq, hkeyword, hspaced]
  exact (((SameOutside.refl hword).append hopen).append hinputs).append harguments

end Operator

/-- Trees without computed columns. -/
theorem PlanNode.Similar.sameOutside {config : Config} (hscope : Balanced config.attributeScope)
    (hjoin : Balanced config.joinType) {t t' : PlanNode}
    (h : t.Similar config config Datum.Confined t') (hextend : t.count Operator.isExtend = 0) :
    SameOutside t.text t'.text := by
  have hempty : SameOutside "" "" := .refl (by decide)
  have hfalse : ∀ {b : Bool} {n : Nat}, b.toNat + n = 0 → b = false ∧ n = 0 := by
    intro b n hsum
    cases b with
    | false => exact ⟨rfl, (Nat.add_eq_zero_iff.1 hsum).2⟩
    | true => exact absurd (Nat.add_eq_zero_iff.1 hsum).1 (by decide)
  induction h with
  | leaf hop _ =>
    have hop' : Operator.isExtend _ = false := (hfalse (n := 0) ((count_leaf _ _).symm.trans hextend)).1
    exact hop.sameOutside_text hscope hjoin hop' hempty hempty
  | wrap hop _ _ ih =>
    obtain ⟨hop', hrest⟩ := hfalse ((count_unary _ _ _).symm.trans hextend)
    exact hop.sameOutside_text hscope hjoin hop' (ih hrest) hempty
  | combine hop _ _ _ iht ihu =>
    obtain ⟨hop', hrest⟩ := hfalse ((count_binary _ _ _ _).symm.trans hextend)
    obtain ⟨ht, hu⟩ := Nat.add_eq_zero_iff.1 hrest
    exact hop.sameOutside_text hscope hjoin hop' (iht ht) (ihu hu)

/-- Finding matches computes no column. -/
theorem PatternPlan.count_isExtend {config : Config} {r : Registry} {cs : List Connection}
    {es : List Expr} {n : Nat} {p : Plan} (h : PatternPlan config r cs es n p) :
    p.root.count Operator.isExtend = 0 := by
  have hunary : ∀ {op : Operator} {t : PlanNode}, op.isExtend = false →
      t.count Operator.isExtend = 0 → (PlanNode.node op [t]).count Operator.isExtend = 0 := by
    intro op t hop ht
    rw [PlanNode.count_unary, hop, ht]
    rfl
  have hbinary : ∀ {op : Operator} {t u : PlanNode}, op.isExtend = false →
      t.count Operator.isExtend = 0 → u.count Operator.isExtend = 0 →
        (PlanNode.node op [t, u]).count Operator.isExtend = 0 := by
    intro op t u hop ht hu
    rw [PlanNode.count_binary, hop, ht, hu]
    rfl
  induction h with
  | scan => rfl
  | seed _ hscan =>
    cases hscan with
    | label => rfl
    | comparison => rfl
  | fetch h hf ih =>
    cases hf with
    | attributes => exact hunary rfl ih
    | label => exact hunary rfl ih
  | @follow cs es n p c step column h hc hstart ih =>
    have htraverse : (PlanNode.node (step.operator column) [p.root]).count Operator.isExtend = 0 := by
      cases step with
      | byEdge => exact hunary rfl ih
      | byNode direction => exact hunary rfl ih
    unfold Plan.follow Plan.matchPairs
    split
    · exact htraverse
    · exact hunary rfl htraverse
  | select h ht ih => exact hunary rfl ih
  | join h h' hdisj ht ih ih' => exact hbinary rfl ih ih'
  | product h h' hdisj ih ih' => exact hbinary rfl ih ih'
  | perm h hcs hes ih => exact ih

/-! ## Queries -/

namespace Query

variable {config : Config} {q : Query} {p : Plan}

/-- A query that groups, projects and sorts nothing has a plan without computed columns. -/
theorem count_isExtend_plan (hgroupBy : q.groupBy = []) (hprojection : q.projection = [])
    (horderBy : q.orderBy = []) (hp : q.plan config = .ok p) :
    p.root.count Operator.isExtend = 0 := by
  obtain ⟨p₀, hp₀, hfinish⟩ := eq_ok_of_bind_eq_ok hp
  have hsliced : Plan.finish config q p₀ = .ok (p₀.slice q.offset q.limit) := by
    rw [Plan.finish, hgroupBy, hprojection, horderBy]
    rfl
  cases hsliced.symm.trans hfinish
  obtain ⟨groups, r, hplanned⟩ := (meets_matchPlan config q).result hp₀
  have hcount := hplanned.derivation.count_isExtend
  unfold Plan.slice
  split
  · rw [Plan.wrap, PlanNode.count_unary, hcount]
    rfl
  · exact hcount

/-- Other filters in place of those of a query that groups, projects and sorts nothing. -/
theorem similar_of_constraints {R : Datum → Datum → Prop} {cs : List Expr}
    (hgroupBy : q.groupBy = []) (hprojection : q.projection = []) (horderBy : q.orderBy = [])
    (h : List.Forall₂ (Expr.Similar R) q.constraints cs) :
    q.Similar R { q with constraints := cs } := by
  refine ⟨rfl, rfl, h, rfl, rfl, rfl, rfl, rfl, ?_, ?_, ?_⟩
  · simp [hgroupBy]
  · simp [hprojection]
  · simp [horderBy]

/-- Other strings in the filters of a query lead to a plan with the same columns and the same tree,
up to the strings. If strings that differ have no quotes and the quotes of all other names come in
pairs, then the texts of both plans agree outside of quotes. -/
theorem plan_confines_strings {cs : List Expr} (hgroupBy : q.groupBy = [])
    (hprojection : q.projection = []) (horderBy : q.orderBy = []) (hp : q.plan config = .ok p)
    (hcs : List.Forall₂ (Expr.Similar Datum.Reworded) q.constraints cs) :
    ∃ p', Query.plan config { q with constraints := cs } = .ok p' ∧ p'.schema = p.schema ∧
      p.root.Similar config config Datum.Reworded p'.root ∧
      (Balanced config.attributeScope → Balanced config.joinType →
        List.Forall₂ (Expr.Similar Datum.Confined) q.constraints cs →
        outside p.text = outside p'.text) := by
  have hreworded := similar_of_constraints hgroupBy hprojection horderBy hcs
  obtain ⟨p', hp', hsimilar⟩ := (q.related_plan config config hreworded).exists_ok hp
  refine ⟨p', hp', hsimilar.schema.symm, hsimilar.root, ?_⟩
  intro hscope hjoin hconfined
  -- the plans are compared a second time, now with a relation that says where quotes may be
  have hstrict := similar_of_constraints hgroupBy hprojection horderBy hconfined
  obtain ⟨p'', hp'', hsame⟩ := (q.related_plan config config hstrict).exists_ok hp
  cases hp'.symm.trans hp''
  have hextend := count_isExtend_plan hgroupBy hprojection horderBy hp
  exact (hsame.root.sameOutside hscope hjoin hextend).outside_eq

/-- A string in a scan and one in a predicate. -/
theorem plan_confines_strings_of_two_names :
    let named := fun attr value => Expr.binary (.compare .eq) (.prop "a" attr) (.str value)
    let q : Query := { Query.empty with
      vertices := [⟨"a", false⟩]
      constraints := [named "name" "x", .binary .or (named "city" "y") (.hasLabel "a" "P")] }
    let cs := [named "name" "%7 ), (", .binary .or (named "city" "NULL") (.hasLabel "a" "P")]
    ∃ p p', q.plan Config.default = .ok p ∧
      Query.plan Config.default { q with constraints := cs } = .ok p' ∧ p'.schema = p.schema ∧
      p.root.Similar Config.default Config.default Datum.Reworded p'.root ∧
      outside p.text = outside p'.text := by
  intro named q cs
  have hnamed : ∀ (R : Datum → Datum → Prop) {attr value value' : String},
      R (.property attr) (.property attr) → R (.string value) (.string value') →
        Expr.Similar R (named attr value) (named attr value') :=
    fun _ _ _ _ hattr hvalue => .binary _ (.prop "a" hattr) (.str hvalue)
  have hreworded : List.Forall₂ (Expr.Similar Datum.Reworded) q.constraints cs :=
    .cons (hnamed _ rfl trivial)
      (.cons (.binary .or (hnamed _ rfl trivial) (.hasLabel "a" rfl)) .nil)
  have hfree : ∀ {v w : String}, QuoteFree v → QuoteFree w →
      Datum.Confined (.string v) (.string w) := fun hv hw => Or.inl ⟨_, _, rfl, rfl, hv, hw⟩
  have hlabel : Datum.Confined (.label "P") (.label "P") :=
    Or.inr ⟨rfl, (by decide : Text.Balanced "P")⟩
  have hattr : ∀ {attr : String}, Text.Balanced attr →
      Datum.Confined (.property attr) (.property attr) := fun h => Or.inr ⟨rfl, h⟩
  have hconfined : List.Forall₂ (Expr.Similar Datum.Confined) q.constraints cs :=
    .cons (hnamed _ (hattr (by decide)) (hfree (by decide) (by decide)))
      (.cons (.binary .or (hnamed _ (hattr (by decide)) (hfree (by decide) (by decide)))
        (.hasLabel "a" hlabel)) .nil)
  obtain ⟨p, hp⟩ : ∃ p, q.plan Config.default = .ok p := ⟨_, rfl⟩
  obtain ⟨p', hp', hschema, hroot, houtside⟩ := plan_confines_strings rfl rfl rfl hp hreworded
  exact ⟨p, p', hp, hp', hschema, hroot, houtside (by decide) (by decide) hconfined⟩

/-- A string shows outside of quotes if it has a quote in it, and so does any string that comes after
a label, a scope of attributes or a type of joins with a quote in it. -/
theorem plan_releases_quoted_strings :
    let releases := fun (config : Config) (q : String → Query) (v w : String) =>
      ∃ p p', (q v).plan config = .ok p ∧ (q w).plan config = .ok p' ∧
        outside p.text ≠ outside p'.text
    let equals := fun value => Expr.binary (.compare .eq) (.prop "a" "name") (.str value)
    let named := fun value => { Query.empty with
      vertices := [⟨"a", false⟩], constraints := [equals value] }
    let labelled := fun value => { Query.empty with
      vertices := [⟨"a", false⟩], constraints := [.hasLabel "a" "it's", equals value] }
    let joined := fun value => { Query.empty with
      vertices := [⟨"a", false⟩, ⟨"b", false⟩]
      constraints := [.binary (.compare .lt) (.ref "a") (.ref "b"),
        .binary (.compare .eq) (.binary .add (.ref "a") (.ref "b")) (.str value)] }
    releases .default named "x" "x' <> 'y" ∧ releases .default labelled "x" "y" ∧
      releases { Config.default with attributeScope := "it's" } named "x" "y" ∧
      releases { Config.default with joinType := "it's" } joined "x" "y" := by
  intro releases equals named labelled joined
  -- the existential statement in a form that can be evaluated
  have hreleases : ∀ config (q : String → Query) v w,
      (((q v).plan config).toOption.bind fun p => ((q w).plan config).toOption.map fun p' =>
        outside p.text != outside p'.text) = some true → releases config q v w := by
    intro config q v w h
    cases hp : (q v).plan config with
    | error f =>
      rw [hp] at h
      cases h
    | ok p =>
      cases hp' : (q w).plan config with
      | error f =>
        rw [hp, hp'] at h
        cases h
      | ok p' =>
        rw [hp, hp'] at h
        exact ⟨p, p', hp, hp', bne_iff_ne.1 (Option.some.inj h)⟩
  refine ⟨hreleases _ _ _ _ ?_, hreleases _ _ _ _ ?_, hreleases _ _ _ _ ?_, hreleases _ _ _ _ ?_⟩
  · decide +kernel
  · decide +kernel
  · decide +kernel
  · decide +kernel

end Query

end GraphPlan
