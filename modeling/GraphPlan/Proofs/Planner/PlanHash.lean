import GraphPlan.Algebra.Explain
import GraphPlan.Proofs.Planner.PlanText

/-!
# The hashed bytes of a plan determine the plan

The name of an operator, the keys and the values of its properties are hashed one after the other,
with nothing between them. The next thing is the number of inputs, and its first byte is below that
of a blank, so that it ends a text without control characters. Within the text, names are told apart
although one of them starts another: a name goes on with a capital letter, a key starts with a small
one. The values show their ends as they do in the text of a plan, or stand last. So two plans of one
configuration with the same bytes are the same, and a plan shares its hash with another one only if
the digest collides (`Query.plan_hash_identifies`).
-/

namespace GraphPlan

/-! ## Printable texts -/

namespace Text

/-- Without control characters: none is below the blank. -/
def Printable (cs : List Char) : Prop :=
  ∀ c ∈ cs, 32 ≤ c.toNat

instance (cs : List Char) : Decidable (Printable cs) :=
  decidable_of_iff (cs.all (fun c => decide (32 ≤ c.toNat)) = true) (by simp [Printable])

variable {α : Type} {a b : List Char}

@[simp]
theorem printable_nil : Printable [] := by
  simp [Printable]

@[simp]
theorem printable_cons {c : Char} : Printable (c :: a) ↔ 32 ≤ c.toNat ∧ Printable a :=
  List.forall_mem_cons

@[simp]
theorem printable_append : Printable (a ++ b) ↔ Printable a ∧ Printable b :=
  List.forall_mem_append

theorem printable_flatMap {as : List α} {write : α → List Char}
    (h : ∀ x ∈ as, Printable (write x)) : Printable (as.flatMap write) := by
  intro c hc
  obtain ⟨x, hx, hc⟩ := List.mem_flatMap.1 hc
  exact h x hx c hc

theorem printable_intercalate {as : List α} {write : α → List Char} {separator : List Char}
    (hseparator : Printable separator) (h : ∀ x ∈ as, Printable (write x)) :
    Printable (separator.intercalate (as.map write)) := by
  cases as with
  | nil => exact printable_nil
  | cons x as =>
    rw [intercalate_map_cons, printable_append]
    refine ⟨h x List.mem_cons_self, printable_flatMap fun y hy => ?_⟩
    exact printable_append.2 ⟨hseparator, h y (List.mem_cons_of_mem _ hy)⟩

theorem printable_of_isNumeralChar (h : ∀ c ∈ a, isNumeralChar c = true) : Printable a := by
  intro c hc
  have hchar := h c hc
  simp only [isNumeralChar, Bool.or_eq_true, beq_iff_eq] at hchar
  rcases hchar with (((hdigit | rfl) | rfl) | rfl) | rfl
  · simp only [Char.isDigit, ge_iff_le, Bool.and_eq_true, decide_eq_true_eq, UInt32.le_iff_toNat_le]
      at hdigit
    have hlow : 48 ≤ c.toNat := hdigit.1
    omega
  all_goals decide

theorem printable_repr (n : Nat) : Printable (Nat.repr n).toList :=
  printable_of_isNumeralChar fun _ hc => isNumeralChar_of_isDigit (isDigit_of_mem_repr hc)

theorem printable_quoted {s : String} (h : Printable s.toList) :
    Printable (Expr.quoted s).toList := by
  rw [toList_quoted, printable_cons, printable_append]
  exact ⟨by decide, h, by decide⟩

end Text

open Text

/-- No control character in names, labels and strings. -/
def Datum.Printable : Datum → Prop
  | .string value => Text.Printable value.toList
  | .label value => Text.Printable value.toList
  | .property name => Text.Printable name.toList
  | .decimal _ => True

instance : DecidablePred Datum.Printable := fun d =>
  match d with
  | .string value => inferInstanceAs (Decidable (Text.Printable value.toList))
  | .label value => inferInstanceAs (Decidable (Text.Printable value.toList))
  | .property name => inferInstanceAs (Decidable (Text.Printable name.toList))
  | .decimal _ => inferInstanceAs (Decidable True)

/-- No control character in the words that are written into plans. -/
structure Config.Printable (config : Config) : Prop where
  attributeScope : Text.Printable config.attributeScope.toList
  joinType : Text.Printable config.joinType.toList
  extendResultType : Text.Printable config.extendResultType.toList

/-! ## The text of names and properties -/

namespace Operator

/-- The keys and values of the properties. -/
def details (op : Operator) : List Char :=
  op.properties.flatMap fun p => p.1.toList ++ p.2.toList

/-- The name, and the keys and values of the properties. -/
def listing (op : Operator) : List Char :=
  op.name.toList ++ op.details

/-- The names of operators. -/
def names : List String :=
  ["ScanNodes", "ScanLabel", "SelectAttribute", "MatchColumns", "Select", "Adjacent", "Explode",
    "GetAttributes", "GetType", "Join", "Product", "Extend", "Group", "Sort", "Project", "Slice"]

/-- The keys of properties. -/
def keys : List String :=
  ["label", "attr", "op", "value", "match", "predicate", "edge_col", "col", "direction", "type",
    "expr", "columns", "aggregates", "offset", "limit"]

theorem name_mem_names (op : Operator) : op.name ∈ names := by
  cases op <;> simp [name, names]

theorem key_mem_keys (op : Operator) : ∀ p ∈ op.properties, p.1 ∈ keys := by
  cases op with
  | matchColumns pairs =>
    intro p hp
    obtain ⟨pair, -, rfl⟩ := List.mem_map.1 hp
    simp [keys]
  | _ => simp [properties, keys]

end Operator

/-! ## What is hashed is printable -/

section Printable

variable {left right : Config} {R : Datum → Datum → Prop}

theorem Scalar.Similar.printable (hR : ∀ d d', R d d' → d.Clean ∧ d.Printable) {t t' : Scalar}
    (h : Scalar.Similar R t t') : Text.Printable t.chars := by
  induction h with
  | column i =>
    rw [Scalar.chars_column, printable_cons]
    exact ⟨by decide, printable_repr i⟩
  | int value => exact printable_of_isNumeralChar fun _ => isNumeralChar_of_mem_intText
  | @decimal value value' h =>
    have hfinite := Hundredths.isFinite_toHundredths (hR _ _ h).1
    exact printable_of_isNumeralChar fun _ => Hundredths.isNumeralChar_of_mem_text hfinite
  | str h => exact printable_quoted (hR _ _ h).2
  | bool value => cases value <;> decide
  | binary op _ _ ihl ihr =>
    have hsymbol : Text.Printable op.symbol.toList := by
      cases op with
      | compare c => cases c <;> decide
      | _ => decide
    rw [Scalar.chars_binary]
    simp [ihl, ihr, hsymbol]
  | unary op _ ih =>
    cases op with
    | neg =>
      rw [Scalar.chars_neg]
      simp [ih]
    | not =>
      rw [Scalar.chars_not]
      simp [ih]
  | isLabel i h =>
    simp only [Scalar.chars_isLabel, printable_cons, printable_append]
    exact ⟨by decide, printable_repr i, by decide, by decide, by decide,
      printable_quoted (hR _ _ h).2⟩

theorem ScanValue.Similar.printable (hR : ∀ d d', R d d' → d.Clean ∧ d.Printable)
    {v v' : ScanValue} (h : ScanValue.Similar R v v') : Text.Printable v.text.toList := by
  cases h with
  | str h => exact printable_quoted (hR _ _ h).2
  | int value => exact printable_of_isNumeralChar fun _ => isNumeralChar_of_mem_intText
  | decimal h =>
    rw [text, String.toList_append, printable_append]
    refine ⟨printable_of_isNumeralChar fun _ => ?_, by decide⟩
    exact Layout.isNumeralChar_of_mem_text (hR _ _ h).1
  | bool value => cases value <;> decide

namespace Operator

theorem printable_attributeText {scope attr : String} (hscope : Text.Printable scope.toList)
    (hattr : Text.Printable attr.toList) : Text.Printable (attributeText scope attr).toList := by
  rw [toList_attributeText, printable_append, printable_cons]
  exact ⟨hscope, by decide, printable_quoted hattr⟩

theorem printable_positionsText (columns : List Nat) :
    Text.Printable (positionsText columns).toList := by
  simp only [positionsText, String.toList_append, String.toList_intercalate, List.map_map,
    printable_append]
  exact ⟨⟨by decide, printable_intercalate (by decide) fun i _ => printable_repr i⟩, by decide⟩

theorem printable_pairText (pair : Nat × Nat) : Text.Printable (pairText pair).toList := by
  simp only [pairText, Scalar.columnText, String.toList_append, printable_append]
  exact ⟨⟨⟨by decide, printable_repr _⟩, by decide⟩, by decide, printable_repr _⟩

theorem printable_boundProperty (bound : Option UInt64) :
    Text.Printable (boundProperty bound).toList := by
  cases bound with
  | none => decide
  | some n =>
    simp only [boundProperty, String.toList_append, printable_append]
    exact ⟨⟨by decide, printable_repr _⟩, by decide⟩

theorem printable_aggregation {a : Aggregation} (h : a.explicit = true) :
    Text.Printable a.text.toList := by
  have hname : ∀ kind : AggregateKind, Text.Printable kind.name.toList := by
    intro kind
    cases kind <;> decide
  cases a with
  | all kind =>
    simp only [Aggregation.text, Aggregation.text.aggregateCall, String.toList_append,
      printable_append]
    exact ⟨⟨⟨hname kind, by decide⟩, by decide⟩, by decide⟩
  | column kind position =>
    simp only [Aggregation.text, Aggregation.text.aggregateCall, String.toList_append,
      printable_append]
    exact ⟨⟨⟨hname kind, by decide⟩, printable_repr _⟩, by decide⟩
  | verbatim text => cases h

/-- All values are text of the language, data of the query or words of the configuration. -/
theorem Similar.printable_value (hconfig : left.Printable)
    (hR : ∀ d d', R d d' → d.Clean ∧ d.Printable) {op op' : Operator}
    (h : op.Similar left right R op') : ∀ p ∈ op.properties, Text.Printable p.2.toList := by
  intro p hp
  cases h with
  | scanNodes | product => cases hp
  | scanLabel h =>
    cases List.mem_singleton.1 hp
    exact (hR _ _ h).2
  | scanAttribute op hattr h =>
    simp only [properties, List.mem_cons, List.not_mem_nil, or_false] at hp
    rcases hp with rfl | rfl | rfl
    · exact printable_attributeText hconfig.attributeScope (hR _ _ hattr).2
    · cases op <;> decide
    · exact h.printable hR
  | matchColumns pairs =>
    obtain ⟨pair, -, rfl⟩ := List.mem_map.1 hp
    exact printable_pairText pair
  | select h =>
    cases List.mem_singleton.1 hp
    exact h.printable hR
  | adjacent | getType =>
    cases List.mem_singleton.1 hp
    exact printable_repr _
  | explode start direction =>
    simp only [properties, List.mem_cons, List.not_mem_nil, or_false] at hp
    rcases hp with rfl | rfl
    · exact printable_repr start
    · cases direction <;> decide
  | getAttributes object hne h =>
    rcases List.mem_cons.1 hp with rfl | hp
    · exact printable_repr object
    · obtain ⟨attr, hattr, rfl⟩ := List.mem_map.1 hp
      exact printable_attributeText hconfig.attributeScope (hR _ _ (h attr hattr)).2
  | join h =>
    simp only [properties, List.mem_cons, List.not_mem_nil, or_false] at hp
    rcases hp with rfl | rfl
    · exact h.printable hR
    · exact hconfig.joinType
  | extend h =>
    simp only [properties, List.mem_cons, List.not_mem_nil, or_false] at hp
    rcases hp with rfl | rfl
    · exact hconfig.extendResultType
    · exact h.printable hR
  | group columns h =>
    simp only [properties, List.mem_cons, List.not_mem_nil, or_false] at hp
    rcases hp with rfl | rfl
    · exact printable_positionsText columns
    · simp only [String.toList_intercalate, List.map_map]
      exact printable_intercalate (by decide) fun a ha => printable_aggregation (h a ha)
  | sort | project =>
    cases List.mem_singleton.1 hp
    exact printable_positionsText _
  | slice offset limit =>
    simp only [properties, List.mem_cons, List.not_mem_nil, or_false] at hp
    rcases hp with rfl | rfl
    · exact printable_boundProperty offset
    · exact printable_boundProperty limit

theorem Similar.printable (hconfig : left.Printable)
    (hR : ∀ d d', R d d' → d.Clean ∧ d.Printable) {op op' : Operator}
    (h : op.Similar left right R op') : Text.Printable op.listing := by
  have hnames : ∀ n ∈ names, Text.Printable n.toList := by decide
  have hkeys : ∀ k ∈ keys, Text.Printable k.toList := by decide
  refine printable_append.2 ⟨hnames _ op.name_mem_names, printable_flatMap fun p hp => ?_⟩
  exact printable_append.2 ⟨hkeys _ (op.key_mem_keys p hp), h.printable_value hconfig hR p hp⟩

end Operator

end Printable

/-! ## Telling operators apart -/

namespace Operator

/-- After the name comes the end or a key, which does not start with a capital letter. -/
theorem stops_details (op : Operator) : Stops Char.isUpper op.details := by
  have hkeys : ∀ k ∈ keys, k.toList.head?.any (fun c => !c.isUpper) = true := by decide
  unfold details
  cases hp : op.properties with
  | nil => trivial
  | cons p ps =>
    have hkey := hkeys p.1 (op.key_mem_keys p (by rw [hp]; exact List.mem_cons_self))
    rw [List.flatMap_cons]
    cases hc : p.1.toList with
    | nil =>
      rw [hc] at hkey
      cases hkey
    | cons c cs =>
      rw [hc] at hkey
      show c.isUpper = false
      simpa using hkey

/-- A name that goes on as another name goes on with a capital letter. -/
theorem isUpper_of_name_append {op op' : Operator} {c : Char} {t : List Char}
    (h : op'.name.toList = op.name.toList ++ c :: t) : c.isUpper = true := by
  -- only "Select" goes on, as "SelectAttribute"
  have hall : ∀ n ∈ names, ∀ n' ∈ names, n.toList.isPrefixOf n'.toList = true →
      (n'.toList.drop n.toList.length).head?.all Char.isUpper = true := by decide +kernel
  have hupper := hall _ op.name_mem_names _ op'.name_mem_names (by simp [h])
  rw [h, List.drop_left] at hupper
  exact hupper

theorem eq_nil_of_name_append {op op' : Operator} {t r : List Char}
    (h : op'.name.toList = op.name.toList ++ t) (hdetails : op.details = t ++ r) : t = [] := by
  cases t with
  | nil => rfl
  | cons c t =>
    have hstop := op.stops_details
    rw [hdetails] at hstop
    have hlower : c.isUpper = false := hstop
    rw [isUpper_of_name_append h] at hlower
    cases hlower

/-- Where the name ends is seen, although one name starts another. -/
theorem split_listing {op op' : Operator} (h : op.listing = op'.listing) :
    op.name = op'.name ∧ op.details = op'.details := by
  rcases List.append_eq_append_iff.1 h with ⟨t, hname, hdetails⟩ | ⟨t, hname, hdetails⟩
  · cases eq_nil_of_name_append hname hdetails
    rw [List.append_nil] at hname
    exact ⟨(String.toList_inj.1 hname).symm, hdetails⟩
  · cases eq_nil_of_name_append hname hdetails
    rw [List.append_nil] at hname
    exact ⟨String.toList_inj.1 hname, hdetails.symm⟩

/-! ## Values of properties -/

/-- A comparison is legible before anything but a comparison. -/
theorem legible_comparison (op : Comparison) :
    Legible (fun op => op.symbol.toList) (fun _ => True)
      (Stops fun c => c == '=' || c == '<' || c == '>') op := by
  refine legible_of_token (fun op _ => List.all_eq_true.1 ?_) trivial fun op' _ h => ?_
  · cases op <;> decide
  · have hcompare := operatorOf_symbol (.compare op')
    rw [show (BinaryOp.compare op').symbol.toList = op.symbol.toList from h.symm] at hcompare
    cases (operatorOf_symbol (.compare op)).symm.trans hcompare
    rfl

theorem legible_boundProperty (bound : Option UInt64) :
    Legible (fun bound => (boundProperty bound).toList) (fun _ => True) (fun _ => True) bound := by
  intro bound' r s _ _ _ heq
  cases bound with
  | none =>
    cases bound' with
    | none => exact ⟨rfl, List.append_cancel_left heq⟩
    | some n =>
      simp only [boundProperty, String.toList_append, List.append_assoc] at heq
      cases heq
  | some n =>
    simp only [boundProperty, String.toList_append, List.append_assoc] at heq
    cases bound' with
    | none => cases heq
    | some n' =>
      have hclose : ∀ t, Stops Char.isDigit (")".toList ++ t) := fun _ => rfl
      simp only [String.toList_append, List.append_assoc] at heq
      obtain ⟨hn, hrest⟩ := legible_repr n.toNat trivial (hclose _) (hclose _)
        (List.append_cancel_left heq)
      exact ⟨congrArg some (UInt64.toNat_inj.1 hn), List.append_cancel_left hrest⟩

theorem scanAttribute_details_inj {scope attr attr' : String} {op op' : Comparison}
    {value value' : ScanValue} (hattr : QuoteFree attr) (hattr' : QuoteFree attr')
    (hvalue : value.Readable) (hvalue' : value'.Readable)
    (heq : (scanAttribute scope attr op value).details =
      (scanAttribute scope attr' op' value').details) :
    attr = attr' ∧ op = op' ∧ value = value' := by
  simp only [details, properties, List.flatMap_cons, List.flatMap_nil, List.append_assoc] at heq
  obtain ⟨rfl, hop⟩ := legible_attribute scope hattr hattr' trivial trivial
    (List.append_cancel_left heq)
  have hkey : ∀ t, Stops (fun c => c == '=' || c == '<' || c == '>') ("value".toList ++ t) :=
    fun _ => rfl
  obtain ⟨rfl, htail⟩ := legible_comparison op trivial (hkey _) (hkey _)
    (List.append_cancel_left hop)
  -- a literal is legible before a blank, which can be put after both
  have hblank : value.text.toList ++ [' '] = value'.text.toList ++ [' '] := by
    rw [List.append_nil, List.append_nil] at htail
    rw [List.append_cancel_left htail]
  obtain ⟨rfl, -⟩ := ScanValue.legible hvalue hvalue' ⟨[], rfl⟩ ⟨[], rfl⟩ hblank
  exact ⟨rfl, rfl, rfl⟩

theorem matchColumns_details_inj {pairs pairs' : List (Nat × Nat)}
    (heq : (matchColumns pairs).details = (matchColumns pairs').details) : pairs = pairs' := by
  have hlegible : Legible
      (fun pairs : List (Nat × Nat) => pairs.flatMap fun pair =>
        "match".toList ++ (pairText pair).toList)
      (fun pairs => ∀ pair ∈ pairs, True) (· = []) pairs := by
    refine legible_flatMap (fun _ => rfl) ?_ ?_ fun pair _ => legible_pair pair
    · rintro t rfl
      trivial
    · intro t ht
      cases ht
  simp only [details, properties, List.flatMap_map] at heq
  exact hlegible.eq (fun _ _ => trivial) rfl heq

theorem getAttributes_details_inj {object object' : Nat} {scope : String}
    {attrs attrs' : List String} (h : ∀ a ∈ attrs, QuoteFree a) (h' : ∀ a ∈ attrs', QuoteFree a)
    (heq : (getAttributes object scope attrs).details =
      (getAttributes object' scope attrs').details) : object = object' ∧ attrs = attrs' := by
  have hlegible : Legible
      (fun attrs : List String => attrs.flatMap fun a =>
        "attr".toList ++ (attributeText scope a).toList)
      (fun attrs => ∀ a ∈ attrs, QuoteFree a) (· = []) attrs := by
    refine legible_flatMap (fun _ => trivial) (fun _ _ => trivial) ?_
      fun a ha => legible_attribute scope (h a ha)
    intro t ht
    cases ht
  have hstop : ∀ attrs : List String, Stops Char.isDigit
      (attrs.flatMap fun a => "attr".toList ++ (attributeText scope a).toList) := by
    intro attrs
    cases attrs with
    | nil => trivial
    | cons a as => rfl
  simp only [details, properties, List.flatMap_cons, List.flatMap_map, List.append_assoc] at heq
  obtain ⟨rfl, hattrs⟩ := legible_repr object trivial (hstop attrs) (hstop attrs')
    (List.append_cancel_left heq)
  exact ⟨rfl, hlegible.eq h' rfl hattrs⟩

theorem explode_details_inj {start start' : Nat} {direction direction' : Direction}
    (heq : (explode start direction).details = (explode start' direction').details) :
    start = start' ∧ direction = direction' := by
  simp only [details, properties, List.flatMap_cons, List.flatMap_nil, List.append_assoc] at heq
  have hkey : ∀ t, Stops Char.isDigit ("direction".toList ++ t) := fun _ => rfl
  obtain ⟨rfl, htail⟩ := legible_repr start trivial (hkey _) (hkey _) (List.append_cancel_left heq)
  obtain ⟨rfl, -⟩ := legible_keyword direction trivial trivial trivial
    (List.append_cancel_left htail)
  exact ⟨rfl, rfl⟩

theorem group_details_inj {columns columns' : List Nat} {aggregates aggregates' : List Aggregation}
    (h : ∀ a ∈ aggregates, a.explicit = true) (h' : ∀ a ∈ aggregates', a.explicit = true)
    (heq : (group columns aggregates).details = (group columns' aggregates').details) :
    columns = columns' ∧ aggregates = aggregates' := by
  have hlegible : Legible
      (fun aggregates : List Aggregation => ", ".toList.intercalate
        (aggregates.map fun a => a.text.toList))
      (fun aggregates => ∀ a ∈ aggregates, a.explicit = true) (· = []) aggregates := by
    refine legible_intercalate (fun _ => trivial) (fun _ _ => trivial) ?_ ?_ h
      fun a ha => Aggregation.legible (h a ha)
    · intro t ht
      cases ht
    · intro a ha t ht
      obtain ⟨c, u, hc, -⟩ := Aggregation.exists_start ha
      rw [hc] at ht
      cases ht
  simp only [details, properties, List.flatMap_cons, List.flatMap_nil, List.append_assoc,
    List.append_nil, String.toList_intercalate, List.map_map] at heq
  obtain ⟨rfl, htail⟩ := legible_positions columns trivial trivial trivial
    (List.append_cancel_left heq)
  exact ⟨rfl, hlegible.eq h' rfl (List.append_cancel_left htail)⟩

theorem slice_details_inj {offset limit offset' limit' : Option UInt64}
    (heq : (slice offset limit).details = (slice offset' limit').details) :
    offset = offset' ∧ limit = limit' := by
  simp only [details, properties, List.flatMap_cons, List.flatMap_nil, List.append_assoc] at heq
  obtain ⟨rfl, htail⟩ := legible_boundProperty offset trivial trivial trivial
    (List.append_cancel_left heq)
  obtain ⟨rfl, -⟩ := legible_boundProperty limit trivial trivial trivial
    (List.append_cancel_left htail)
  exact ⟨rfl, rfl⟩

/-- A single property: its value is what stands after the key. -/
theorem value_eq_of_details {key value value' : String} {op op' : Operator}
    (hop : op.properties = [(key, value)]) (hop' : op'.properties = [(key, value')])
    (heq : op.details = op'.details) : value.toList = value'.toList := by
  simp only [details, hop, hop', List.flatMap_cons, List.flatMap_nil, List.append_nil] at heq
  exact List.append_cancel_left heq

/-- Operators of one configuration with the same listing are the same. -/
theorem eq_of_listing {config : Config} {op op' : Operator} (h : op.Readable config)
    (h' : op'.Readable config) (heq : op.listing = op'.listing) : op = op' := by
  obtain ⟨hname, hdetails⟩ := split_listing heq
  -- no two kinds have one name; within a kind the values of the properties are compared
  cases op with
  | scanNodes =>
    cases op' with
    | scanNodes => rfl
    | _ => simp [name] at hname
  | scanLabel label =>
    cases op' with
    | scanLabel label' =>
      rw [String.toList_inj.1 (value_eq_of_details rfl rfl hdetails)]
    | _ => simp [name] at hname
  | scanAttribute scope attr op value =>
    cases op' with
    | scanAttribute scope' attr' op' value' =>
      obtain ⟨rfl, hattr, hvalue⟩ := h
      obtain ⟨rfl, hattr', hvalue'⟩ := h'
      obtain ⟨rfl, rfl, rfl⟩ := scanAttribute_details_inj hattr hattr' hvalue hvalue' hdetails
      rfl
    | _ => simp [name] at hname
  | matchColumns pairs =>
    cases op' with
    | matchColumns pairs' => rw [matchColumns_details_inj hdetails]
    | _ => simp [name] at hname
  | select predicate =>
    cases op' with
    | select predicate' =>
      have htext := value_eq_of_details rfl rfl hdetails
      rw [(predicate.isLegible h).eq h' trivial htext]
    | _ => simp [name] at hname
  | adjacent edge =>
    cases op' with
    | adjacent edge' => rw [repr_injective (value_eq_of_details rfl rfl hdetails)]
    | _ => simp [name] at hname
  | explode start direction =>
    cases op' with
    | explode start' direction' =>
      obtain ⟨rfl, rfl⟩ := explode_details_inj hdetails
      rfl
    | _ => simp [name] at hname
  | getAttributes object scope attrs =>
    cases op' with
    | getAttributes object' scope' attrs' =>
      obtain ⟨rfl, -, hattrs⟩ := h
      obtain ⟨rfl, -, hattrs'⟩ := h'
      obtain ⟨rfl, rfl⟩ := getAttributes_details_inj hattrs hattrs' hdetails
      rfl
    | _ => simp [name] at hname
  | getType object =>
    cases op' with
    | getType object' => rw [repr_injective (value_eq_of_details rfl rfl hdetails)]
    | _ => simp [name] at hname
  | join predicate joinType =>
    cases op' with
    | join predicate' joinType' =>
      obtain ⟨hp, rfl⟩ := h
      obtain ⟨hp', rfl⟩ := h'
      -- the join type is the same and stands last
      simp only [details, properties, List.flatMap_cons, List.flatMap_nil] at hdetails
      have htext := List.append_cancel_left (List.append_cancel_right hdetails)
      rw [(predicate.isLegible hp).eq hp' trivial htext]
    | _ => simp [name] at hname
  | product =>
    cases op' with
    | product => rfl
    | _ => simp [name] at hname
  | extend resultType value =>
    cases op' with
    | extend resultType' value' =>
      obtain ⟨rfl, hvalue⟩ := h
      obtain ⟨rfl, hvalue'⟩ := h'
      simp only [details, properties, List.flatMap_cons, List.flatMap_nil, List.append_nil]
        at hdetails
      have htext := List.append_cancel_left (List.append_cancel_left hdetails)
      rw [(value.isLegible hvalue).eq hvalue' trivial htext]
    | _ => simp [name] at hname
  | group columns aggregates =>
    cases op' with
    | group columns' aggregates' =>
      obtain ⟨rfl, rfl⟩ := group_details_inj h h' hdetails
      rfl
    | _ => simp [name] at hname
  | sort columns =>
    cases op' with
    | sort columns' =>
      have htext := value_eq_of_details rfl rfl hdetails
      rw [(legible_positions columns).eq trivial trivial htext]
    | _ => simp [name] at hname
  | project columns =>
    cases op' with
    | project columns' =>
      have htext := value_eq_of_details rfl rfl hdetails
      rw [(legible_positions columns).eq trivial trivial htext]
    | _ => simp [name] at hname
  | slice offset limit =>
    cases op' with
    | slice offset' limit' =>
      obtain ⟨rfl, rfl⟩ := slice_details_inj hdetails
      rfl
    | _ => simp [name] at hname

end Operator

/-! ## Bytes -/

namespace PlanNode

/-- Whether a byte can be part of a printable text. -/
def isTextByte (b : UInt8) : Bool :=
  decide (32 ≤ b.toNat)

theorem isTextByte_of_mem_encode {c : Char} (h : 32 ≤ c.toNat) :
    ∀ b ∈ String.utf8EncodeChar c, isTextByte b = true := by
  have hhigh : ∀ n < 256, 32 ≤ n → isTextByte (UInt8.ofNat n) = true := by
    intro n hn hle
    rw [isTextByte, decide_eq_true_eq, UInt8.toNat_ofNat_of_lt' hn]
    exact hle
  have hc : c.val.toNat = c.toNat := rfl
  unfold String.utf8EncodeChar
  dsimp only
  intro b hb
  split at hb
  · rw [List.mem_singleton.1 hb]
    exact hhigh _ (by omega) (by omega)
  · -- the bytes of a longer code all have the highest bit set
    split at hb
    · simp only [List.mem_cons, List.not_mem_nil, or_false] at hb
      rcases hb with rfl | rfl <;> exact hhigh _ (by omega) (by omega)
    · split at hb
      · simp only [List.mem_cons, List.not_mem_nil, or_false] at hb
        rcases hb with rfl | rfl | rfl <;> exact hhigh _ (by omega) (by omega)
      · simp only [List.mem_cons, List.not_mem_nil, or_false] at hb
        rcases hb with rfl | rfl | rfl | rfl <;> exact hhigh _ (by omega) (by omega)

/-- The bytes of a text determine it: they are those of a string, which has one list of characters.
-/
theorem encode_injective {a b : List Char}
    (h : a.flatMap String.utf8EncodeChar = b.flatMap String.utf8EncodeChar) : a = b := by
  have hbytes : (String.ofList a).toByteArray = (String.ofList b).toByteArray := by
    rw [String.toByteArray_ofList, String.toByteArray_ofList, List.utf8Encode, List.utf8Encode, h]
  have hstring := congrArg String.toList (String.toByteArray_inj.1 hbytes)
  rwa [String.toList_ofList, String.toList_ofList] at hstring

theorem operatorBytes_eq (op : Operator) :
    operatorBytes op = op.listing.flatMap String.utf8EncodeChar := by
  simp only [operatorBytes, textBytes, Operator.listing, Operator.details, List.flatMap_append,
    List.flatMap_assoc]

theorem isTextByte_of_mem_operatorBytes {op : Operator} (h : Text.Printable op.listing) :
    ∀ b ∈ operatorBytes op, isTextByte b = true := by
  intro b hb
  rw [operatorBytes_eq] at hb
  obtain ⟨c, hc, hb⟩ := List.mem_flatMap.1 hb
  exact isTextByte_of_mem_encode (h c hc) b hb

/-- A number of inputs does not start like a text. -/
theorem takeWhile_count {n : Nat} (hn : n ≤ 2) (r : List UInt8) :
    (Xxh64.littleEndianBytes n.toUInt64 ++ r).takeWhile isTextByte = [] := by
  have hcases : n = 0 ∨ n = 1 ∨ n = 2 := by omega
  rcases hcases with rfl | rfl | rfl <;> rfl

/-! ## Trees -/

/-- All operators are listed without control characters. -/
def Printable (t : PlanNode) : Prop :=
  ∀ op ∈ t.operators, Text.Printable op.listing

section Printable

variable {op : Operator} {t u : PlanNode}

theorem Printable.root (h : t.Printable) : Text.Printable t.op.listing := by
  cases t with
  | node op inputs => exact h op List.mem_cons_self

theorem printable_wrap : (node op [t]).Printable ↔ Text.Printable op.listing ∧ t.Printable := by
  simp only [Printable, operators, operatorsList, List.append_nil, List.forall_mem_cons]

theorem printable_combine :
    (node op [t, u]).Printable ↔ Text.Printable op.listing ∧ t.Printable ∧ u.Printable := by
  simp only [Printable, operators, operatorsList, List.append_nil, List.forall_mem_cons,
    List.forall_mem_append]

theorem Similar.printable {left right : Config} {R : Datum → Datum → Prop}
    (hconfig : left.Printable) (hR : ∀ d d', R d d' → d.Clean ∧ d.Printable) {t t' : PlanNode}
    (h : t.Similar left right R t') : t.Printable := by
  induction h with
  | leaf hop _ =>
    intro op hmem
    cases List.mem_singleton.1 hmem
    exact hop.printable hconfig hR
  | wrap hop _ _ ih => exact printable_wrap.2 ⟨hop.printable hconfig hR, ih⟩
  | combine hop _ _ _ iht ihu => exact printable_combine.2 ⟨hop.printable hconfig hR, iht, ihu⟩

end Printable

section HashBytes

variable {config : Config} {t t' : PlanNode} {r s : List UInt8}

theorem Readable.op_readable (h : t.Readable config) : t.op.Readable config := by
  cases h with
  | leaf hop _ => exact hop
  | wrap hop _ _ => exact hop
  | combine hop _ _ _ => exact hop

theorem Readable.length_inputs (h : t.Readable config) :
    t.inputs.length = t.op.arity ∧ t.inputs.length ≤ 2 := by
  cases h with
  | leaf _ harity => exact ⟨harity.symm, Nat.zero_le 2⟩
  | wrap _ harity _ => exact ⟨harity.symm, Nat.le_succ 1⟩
  | combine _ harity _ _ => exact ⟨harity.symm, Nat.le_refl 2⟩

theorem hashBytes_eq (t : PlanNode) :
    t.hashBytes = operatorBytes t.op ++
      (Xxh64.littleEndianBytes t.inputs.length.toUInt64 ++ hashBytesList t.inputs) := by
  cases t with
  | node op inputs =>
    rw [hashBytes, List.append_assoc]
    rfl

/-- The operator at the root is what stands before the first byte that is no text. -/
theorem Readable.root_inj (h : t.Readable config) (h' : t'.Readable config) (hp : t.Printable)
    (hp' : t'.Printable) (heq : t.hashBytes ++ r = t'.hashBytes ++ s) :
    t.op = t'.op ∧ hashBytesList t.inputs ++ r = hashBytesList t'.inputs ++ s := by
  rw [hashBytes_eq, hashBytes_eq] at heq
  simp only [List.append_assoc] at heq
  -- the longest run of text on either side is the listing of the operator
  have htext := congrArg (List.takeWhile isTextByte) heq
  rw [List.takeWhile_append_of_pos (isTextByte_of_mem_operatorBytes hp.root),
    List.takeWhile_append_of_pos (isTextByte_of_mem_operatorBytes hp'.root),
    takeWhile_count h.length_inputs.2, takeWhile_count h'.length_inputs.2, List.append_nil,
    List.append_nil, operatorBytes_eq, operatorBytes_eq] at htext
  have hop := Operator.eq_of_listing h.op_readable h'.op_readable (encode_injective htext)
  have hlength : t.inputs.length = t'.inputs.length := by
    rw [h.length_inputs.1, h'.length_inputs.1, hop]
  rw [hop, hlength] at heq
  exact ⟨hop, List.append_cancel_left (List.append_cancel_left heq)⟩

/-- A tree can be read off its bytes, whatever comes after. -/
theorem Readable.hashBytes_inj (h : t.Readable config) (hp : t.Printable) :
    ∀ {t' : PlanNode} {r s : List UInt8}, t'.Readable config → t'.Printable →
      t.hashBytes ++ r = t'.hashBytes ++ s → t = t' ∧ r = s := by
  -- the bytes after a tree are arbitrary, as the first of two inputs is followed by the second
  induction h with
  | @leaf op hop harity =>
    intro t' r s ht' hp' heq
    obtain ⟨hroot, hrest⟩ := (Readable.leaf hop harity).root_inj ht' hp hp' heq
    cases ht' with
    | leaf _ _ =>
      cases hroot
      exact ⟨rfl, hrest⟩
    | wrap _ harity' _ =>
      cases hroot
      cases harity.symm.trans harity'
    | combine _ harity' _ _ =>
      cases hroot
      cases harity.symm.trans harity'
  | @wrap op t hop harity ht ih =>
    intro t' r s ht' hp' heq
    obtain ⟨hroot, hrest⟩ := (Readable.wrap hop harity ht).root_inj ht' hp hp' heq
    cases ht' with
    | leaf _ harity' =>
      cases hroot
      cases harity.symm.trans harity'
    | wrap _ _ ht' =>
      cases hroot
      simp only [inputs, hashBytesList, List.append_nil] at hrest
      obtain ⟨rfl, rfl⟩ := ih (printable_wrap.1 hp).2 ht' (printable_wrap.1 hp').2 hrest
      exact ⟨rfl, rfl⟩
    | combine _ harity' _ _ =>
      cases hroot
      cases harity.symm.trans harity'
  | @combine op t u hop harity ht hu iht ihu =>
    intro t' r s ht' hp' heq
    obtain ⟨hroot, hrest⟩ := (Readable.combine hop harity ht hu).root_inj ht' hp hp' heq
    cases ht' with
    | leaf _ harity' =>
      cases hroot
      cases harity.symm.trans harity'
    | wrap _ harity' _ =>
      cases hroot
      cases harity.symm.trans harity'
    | combine _ _ ht' hu' =>
      cases hroot
      obtain ⟨-, hpt, hpu⟩ := printable_combine.1 hp
      obtain ⟨-, hpt', hpu'⟩ := printable_combine.1 hp'
      simp only [inputs, hashBytesList, List.append_nil, List.append_assoc] at hrest
      obtain ⟨rfl, hsecond⟩ := iht hpt ht' hpt' hrest
      obtain ⟨rfl, rfl⟩ := ihu hpu hu' hpu' hsecond
      exact ⟨rfl, rfl⟩

end HashBytes

end PlanNode

/-! ## Plans of queries -/

theorem Query.printable_plan {config : Config} {q : Query} {p : Plan} (hconfig : config.Printable)
    (hq : ∀ d ∈ q.data, d.Clean ∧ d.Printable) (h : q.plan config = .ok p) :
    p.root.Printable := by
  have hself : q.Similar (fun d _ => d.Clean ∧ d.Printable) q := Query.Similar.refl q hq
  obtain ⟨p', -, hp⟩ := (q.related_plan config config hself).exists_ok h
  exact hp.root.printable hconfig fun _ _ => id

/-- Different bytes with the same digest. -/
def Xxh64.Collide (a b : List UInt8) : Prop :=
  a ≠ b ∧ digest 0 a = digest 0 b

/-- Two plans of one configuration with the same hashed bytes are the same tree, so that different
plans share a hash only if the digest collides. -/
theorem Query.plan_hash_identifies {config : Config} {q q' : Query} {p p' : Plan}
    (hconfig : config.Printable) (hq : ∀ d ∈ q.data, d.Clean ∧ d.Printable)
    (hq' : ∀ d ∈ q'.data, d.Clean ∧ d.Printable) (hp : q.plan config = .ok p)
    (hp' : q'.plan config = .ok p') :
    (p.root.hashBytes = p'.root.hashBytes → p.root = p'.root) ∧
    ((PlanExplain.ofPlan p.root).planHash = (PlanExplain.ofPlan p'.root).planHash →
      p.root ≠ p'.root → Xxh64.Collide p.root.hashBytes p'.root.hashBytes) := by
  have hreadable := Query.readable_plan (fun d hd => (hq d hd).1) hp
  have hreadable' := Query.readable_plan (fun d hd => (hq' d hd).1) hp'
  have hidentify : p.root.hashBytes = p'.root.hashBytes → p.root = p'.root := by
    intro hbytes
    have hempty : p.root.hashBytes ++ [] = p'.root.hashBytes ++ [] := by rw [hbytes]
    exact (hreadable.hashBytes_inj (Query.printable_plan hconfig hq hp) hreadable'
      (Query.printable_plan hconfig hq' hp') hempty).1
  refine ⟨hidentify, fun hhash hne => ⟨fun hbytes => hne (hidentify hbytes), hhash⟩⟩

/-- A pattern with other names for its variables, and values that look like pieces of a listing. -/
theorem Query.plan_hash_identifies_of_renamed_variables :
    let query := fun x y e : String => { Query.empty with
      connections := [⟨⟨x, false⟩, ⟨y, false⟩, ⟨e, false⟩⟩]
      constraints := [.hasLabel x "ScanLabellabel",
        .binary (.compare .eq) (.prop y "typeInner") (.str "Selectpredicate%0")]
      projection := [⟨.aggregate .sum (.prop e "cost"), none⟩]
      limit := some 3 }
    Config.default.Printable ∧
      (∀ d ∈ (query "a" "b" "r").data, d.Clean ∧ d.Printable) ∧
      ∃ p p', (query "a" "b" "r").plan Config.default = .ok p ∧
        (query "u" "v" "w").plan Config.default = .ok p' ∧
        p.root.hashBytes = p'.root.hashBytes ∧ p.root = p'.root := by
  intro query
  have hconfig : Config.default.Printable := ⟨by decide, by decide, by decide⟩
  have hdata : ∀ x y e, ∀ d ∈ (query x y e).data, d.Clean ∧ d.Printable := by
    intro x y e
    show ∀ d ∈ [Datum.label "ScanLabellabel", .property "typeInner", .string "Selectpredicate%0",
      .property "cost"], d.Clean ∧ d.Printable
    decide
  obtain ⟨p, p', hp, hp', hbytes⟩ : ∃ p p', (query "a" "b" "r").plan Config.default = .ok p ∧
      (query "u" "v" "w").plan Config.default = .ok p' ∧
      p.root.hashBytes = p'.root.hashBytes := ⟨_, _, rfl, rfl, rfl⟩
  exact ⟨hconfig, hdata "a" "b" "r", p, p', hp, hp', hbytes,
    (plan_hash_identifies hconfig (hdata "a" "b" "r") (hdata "u" "v" "w") hp hp').1 hbytes⟩

end GraphPlan
