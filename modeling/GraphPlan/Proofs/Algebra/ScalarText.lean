import GraphPlan.Proofs.Decimal.Texts
import GraphPlan.Proofs.Expr.Similar
import GraphPlan.Proofs.Schema.Reachable

/-!
# The text of a scalar determines the scalar

Every operand of a scalar stands between parentheses, so its text can be read from left to right.
Two things need care: a label test starts like a column, and a negative number like a negation. The
first is told by the equation sign that follows the column, the second by the parenthesis after the
minus sign. What resolving gives is therefore determined by its text (`Expr.resolved_text_identifies`).
-/

namespace GraphPlan

open Text

/-- No quote in a string or a label, no decimal without digits, and no text of a caller. -/
def Scalar.Readable : Scalar → Prop
  | .decimal value => value.isFinite = true
  | .str value => QuoteFree value
  | .isLabel _ label => QuoteFree label
  | .binary _ lhs rhs => lhs.Readable ∧ rhs.Readable
  | .unary _ operand => operand.Readable
  | .verbatim _ => False
  | _ => True

namespace Scalar

/-! ## Characters -/

/-- The characters of the text. -/
def chars (t : Scalar) : List Char :=
  t.text.toList

section Chars

theorem chars_column (i : Nat) : (column i).chars = '%' :: (Nat.repr i).toList := by
  simp [chars, text, columnText]

theorem chars_isLabel (i : Nat) (label : String) :
    (isLabel i label).chars =
      '%' :: ((Nat.repr i).toList ++ ' ' :: '=' :: ' ' :: (Expr.quoted label).toList) := by
  simp [chars, text, columnText]

theorem chars_binary (op : BinaryOp) (lhs rhs : Scalar) :
    (binary op lhs rhs).chars =
      '(' :: ' ' :: (lhs.chars ++ ' ' :: ')' :: ' ' ::
        (op.symbol.toList ++ ' ' :: '(' :: ' ' :: (rhs.chars ++ [' ', ')']))) := by
  simp [chars, text, parenthesized]

theorem chars_neg (operand : Scalar) :
    (unary .neg operand).chars = '-' :: '(' :: ' ' :: (operand.chars ++ [' ', ')']) := by
  simp [chars, text, parenthesized]

theorem chars_not (operand : Scalar) :
    (unary .not operand).chars =
      'N' :: 'O' :: 'T' :: ' ' :: '(' :: ' ' :: (operand.chars ++ [' ', ')']) := by
  simp [chars, text, parenthesized]

end Chars

/-- What may follow a scalar: the end, a parenthesis, also after a blank, or a comma. -/
def Closes : List Char → Prop
  | [] => True
  | ')' :: _ => True
  | ',' :: _ => True
  | ' ' :: ')' :: _ => True
  | _ => False

theorem Closes.stops {p : Char → Bool} {r : List Char} (h : Closes r) (hparen : p ')' = false)
    (hcomma : p ',' = false) (hblank : p ' ' = false) : Stops p r := by
  unfold Closes at h
  split at h
  · trivial
  · exact hparen
  · exact hcomma
  · exact hblank
  · exact h.elim

theorem Closes.stops_digit {r : List Char} (h : Closes r) : Stops Char.isDigit r :=
  h.stops rfl rfl rfl

theorem Closes.stops_numeral {r : List Char} (h : Closes r) : Stops isNumeralChar r :=
  h.stops rfl rfl rfl

theorem stops_digit_blank (r : List Char) : Stops Char.isDigit (' ' :: r) :=
  rfl

theorem closes_close (r : List Char) : Closes (' ' :: ')' :: r) :=
  trivial

/-! ## Shapes -/

/-- What the first characters of a scalar show. -/
inductive Shape where
  /-- A column, perhaps with a label test. -/
  | column
  /-- A string. -/
  | string
  /-- A number. -/
  | number
  /-- A truth value. -/
  | truth (value : Bool)
  /-- A binary operation. -/
  | binary
  /-- A unary operation. -/
  | unary (op : UnaryOp)

/-- The shape that a text shows. -/
def Shape.ofText : List Char → Shape
  | '%' :: _ => column
  | '\'' :: _ => string
  | 'T' :: _ => truth true
  | 'F' :: _ => truth false
  | '(' :: _ => binary
  | '-' :: '(' :: _ => unary .neg
  | 'N' :: _ => unary .not
  | _ => number

/-- The shape of a scalar. -/
def shape : Scalar → Shape
  | column _ => .column
  | isLabel _ _ => .column
  | str _ => .string
  | bool value => .truth value
  | binary .. => .binary
  | unary op _ => .unary op
  | _ => .number

theorem Shape.ofText_number {m : Bool} {digits r : List Char} (hne : digits ≠ [])
    (h : ∀ c ∈ digits, c.isDigit = true) :
    Shape.ofText ((if m then ['-'] else []) ++ (digits ++ r)) = number := by
  obtain ⟨d, ds, rfl⟩ := List.exists_cons_of_ne_nil hne
  have hd := h d List.mem_cons_self
  have hother : ∀ {c : Char}, c.isDigit = false → d ≠ c := by
    rintro c hc rfl
    rw [hd] at hc
    cases hc
  cases m with
  | false =>
    show Shape.ofText (d :: (ds ++ r)) = number
    unfold Shape.ofText
    split
    case h_8 => rfl
    all_goals next heq => exact absurd (List.cons.inj heq).1 (hother rfl)
  | true =>
    show Shape.ofText ('-' :: d :: (ds ++ r)) = number
    have hparen : d ≠ '(' := hother rfl
    simp [Shape.ofText, hparen]

theorem ofText_chars {t : Scalar} (h : t.Readable) (r : List Char) :
    Shape.ofText (t.chars ++ r) = t.shape := by
  cases t with
  | column i =>
    rw [chars_column]
    rfl
  | isLabel i label =>
    rw [chars_isLabel]
    rfl
  | str value =>
    show Shape.ofText ((Expr.quoted value).toList ++ r) = _
    rw [toList_quoted]
    rfl
  | bool value => cases value <;> rfl
  | binary op lhs rhs =>
    rw [chars_binary]
    rfl
  | unary op operand =>
    cases op with
    | neg =>
      rw [chars_neg]
      rfl
    | not =>
      rw [chars_not]
      rfl
  | int value =>
    show Shape.ofText ((intText value.toInt).toList ++ r) = _
    rw [toList_intText, List.append_assoc]
    exact Shape.ofText_number (repr_ne_nil _) fun _ => isDigit_of_mem_repr
  | decimal value =>
    cases value with
    | infinite | nan => cases h
    | finite negative n =>
      show Shape.ofText ((Hundredths.finite negative n).text.toList ++ r) = _
      rw [Hundredths.toList_text_finite, List.append_assoc, List.append_assoc]
      exact Shape.ofText_number (repr_ne_nil _) fun _ => isDigit_of_mem_repr
  | verbatim text => exact h.elim

/-! ## Legible scalars -/

section Legible

variable {lhs rhs operand : Scalar} {r s : List Char}

/-- Can be told from other readable scalars. -/
def IsLegible (t : Scalar) : Prop :=
  Legible chars Readable Closes t

/-- Only scalars of the same shape need to be told apart. -/
theorem isLegible_of_shape {t : Scalar} (ht : t.Readable)
    (h : ∀ t' r s, t'.Readable → Closes r → Closes s → t'.shape = t.shape →
      t.chars ++ r = t'.chars ++ s → t = t' ∧ r = s) : t.IsLegible := by
  intro t' r s ht' hr hs heq
  refine h t' r s ht' hr hs ?_ heq
  rw [← ofText_chars ht' s, ← heq, ofText_chars ht r]

/-- A column is no label test, since no equation sign may follow it. -/
theorem column_ne_isLabel {i j : Nat} {label : String} (hr : Closes r) :
    (column i).chars ++ r ≠ (isLabel j label).chars ++ s := by
  intro heq
  rw [chars_column, chars_isLabel, List.cons_append, List.cons_append, List.append_assoc,
    List.cons.injEq] at heq
  obtain ⟨-, rfl⟩ := legible_repr i trivial hr.stops_digit (stops_digit_blank _) heq.2
  exact hr.elim

theorem isLegible_column (i : Nat) : (column i).IsLegible := by
  refine isLegible_of_shape trivial ?_
  intro t' r s ht' hr hs hshape heq
  cases t' with
  | column j =>
    rw [chars_column, chars_column, List.cons_append, List.cons_append, List.cons.injEq] at heq
    obtain ⟨rfl, rfl⟩ := legible_repr i trivial hr.stops_digit hs.stops_digit heq.2
    exact ⟨rfl, rfl⟩
  | isLabel j label => exact absurd heq (column_ne_isLabel hr)
  | _ => cases hshape

theorem isLegible_isLabel {i : Nat} {label : String} (h : QuoteFree label) :
    (isLabel i label).IsLegible := by
  refine isLegible_of_shape h ?_
  intro t' r s ht' hr hs hshape heq
  cases t' with
  | column j => exact absurd heq.symm (column_ne_isLabel hs)
  | isLabel j label' =>
    simp only [chars_isLabel, List.cons_append, List.append_assoc, List.cons.injEq, true_and] at heq
    obtain ⟨rfl, htail⟩ := legible_repr i trivial (stops_digit_blank _) (stops_digit_blank _) heq
    simp only [List.cons.injEq, true_and] at htail
    obtain ⟨rfl, rfl⟩ := legible_quoted h ht' trivial trivial htail
    exact ⟨rfl, rfl⟩
  | _ => cases hshape

theorem isLegible_str {value : String} (h : QuoteFree value) : (str value).IsLegible := by
  refine isLegible_of_shape h ?_
  intro t' r s ht' hr hs hshape heq
  cases t' with
  | str value' =>
    obtain ⟨rfl, rfl⟩ := legible_quoted h ht' trivial trivial heq
    exact ⟨rfl, rfl⟩
  | _ => cases hshape

theorem isLegible_bool (value : Bool) : (bool value).IsLegible := by
  refine isLegible_of_shape trivial ?_
  intro t' r s ht' hr hs hshape heq
  cases t' with
  | bool value' =>
    cases Shape.truth.inj hshape
    exact ⟨rfl, List.append_cancel_left heq⟩
  | _ => cases hshape

/-- An integer has no point, a decimal has one. -/
theorem int_ne_decimal {value : Int64} {value' : Hundredths} (h : value'.isFinite = true)
    (hr : Closes r) (hs : Closes s) : (int value).chars ++ r ≠ (decimal value').chars ++ s := by
  intro heq
  obtain ⟨htoken, -⟩ := append_inj_of_stops (fun _ => isNumeralChar_of_mem_intText)
    (fun _ => Hundredths.isNumeralChar_of_mem_text h) hr.stops_numeral hs.stops_numeral heq
  have hpoint := Hundredths.point_mem_text h
  rw [← htoken] at hpoint
  rcases eq_minus_or_isDigit_of_mem_intText hpoint with h | h <;> cases h

theorem isLegible_int (value : Int64) : (int value).IsLegible := by
  refine isLegible_of_shape trivial ?_
  intro t' r s ht' hr hs hshape heq
  cases t' with
  | int value' =>
    obtain ⟨rfl, rfl⟩ := legible_intText value trivial hr.stops_numeral hs.stops_numeral heq
    exact ⟨rfl, rfl⟩
  | decimal value' => exact absurd heq (int_ne_decimal ht' hr hs)
  | verbatim text => exact ht'.elim
  | _ => cases hshape

theorem isLegible_decimal {value : Hundredths} (h : value.isFinite = true) :
    (decimal value).IsLegible := by
  refine isLegible_of_shape h ?_
  intro t' r s ht' hr hs hshape heq
  cases t' with
  | int value' => exact absurd heq.symm (int_ne_decimal h hs hr)
  | decimal value' =>
    obtain ⟨rfl, rfl⟩ := Hundredths.legible_text h ht' hr.stops_numeral hs.stops_numeral heq
    exact ⟨rfl, rfl⟩
  | verbatim text => exact ht'.elim
  | _ => cases hshape

theorem isLegible_binary {op : BinaryOp} (hlhs : lhs.Readable) (hrhs : rhs.Readable)
    (hl : lhs.IsLegible) (hr : rhs.IsLegible) : (binary op lhs rhs).IsLegible := by
  refine isLegible_of_shape ⟨hlhs, hrhs⟩ ?_
  intro t' r s ht' _ _ hshape heq
  cases t' with
  | binary op' lhs' rhs' =>
    simp only [chars_binary, List.cons_append, List.append_assoc, List.cons.injEq, true_and] at heq
    obtain ⟨rfl, hop⟩ := hl ht'.1 (closes_close _) (closes_close _) heq
    simp only [List.cons.injEq, true_and] at hop
    have hblank : ∀ t : List Char, Stops (· != ' ') (' ' :: t) := fun _ => rfl
    obtain ⟨rfl, hright⟩ := legible_symbol op trivial (hblank _) (hblank _) hop
    simp only [List.cons.injEq, true_and] at hright
    obtain ⟨rfl, hrest⟩ := hr ht'.2 (closes_close _) (closes_close _) hright
    exact ⟨rfl, (List.cons.inj (List.cons.inj hrest).2).2⟩
  | _ => cases hshape

theorem isLegible_unary {op : UnaryOp} (hoperand : operand.Readable) (h : operand.IsLegible) :
    (unary op operand).IsLegible := by
  refine isLegible_of_shape hoperand ?_
  intro t' r s ht' _ _ hshape heq
  cases t' with
  | unary op' operand' =>
    cases Shape.unary.inj hshape
    -- both spellings end in an opening parenthesis and the operand
    have hbody : operand.chars ++ ' ' :: ')' :: r = operand'.chars ++ ' ' :: ')' :: s := by
      cases op with
      | neg => simpa [chars_neg] using heq
      | not => simpa [chars_not] using heq
    obtain ⟨rfl, hrest⟩ := h (b := operand') ht' (closes_close _) (closes_close _) hbody
    exact ⟨rfl, (List.cons.inj (List.cons.inj hrest).2).2⟩
  | _ => cases hshape

/-- Every readable scalar is legible. -/
theorem isLegible (t : Scalar) (h : t.Readable) : t.IsLegible := by
  induction t with
  | column i => exact isLegible_column i
  | int value => exact isLegible_int value
  | decimal value => exact isLegible_decimal h
  | str value => exact isLegible_str h
  | bool value => exact isLegible_bool value
  | binary op lhs rhs ihl ihr => exact isLegible_binary h.1 h.2 (ihl h.1) (ihr h.2)
  | unary op operand ih => exact isLegible_unary h (ih h)
  | isLabel i label => exact isLegible_isLabel h
  | verbatim text => exact h.elim

end Legible

end Scalar

/-! ## Resolved expressions -/

/-- Strings and labels have no quotes and decimals have digits. -/
def Datum.Readable : Datum → Prop
  | .string value => QuoteFree value
  | .label value => QuoteFree value
  | .property _ => True
  | .decimal value => value.isFinite = true

/-- Readable data make readable scalars. -/
theorem Scalar.Similar.readable {R : Datum → Datum → Prop} (hR : ∀ d d', R d d' → d.Readable)
    {t t' : Scalar} (h : Scalar.Similar R t t') : t.Readable := by
  induction h with
  | column | int | bool => trivial
  | decimal h => exact Hundredths.isFinite_toHundredths (hR _ _ h)
  | str h => exact hR _ _ h
  | binary op _ _ ihl ihr => exact ⟨ihl, ihr⟩
  | unary op _ ih => exact ih
  | isLabel i h => exact hR _ _ h

namespace Scope

/-- The number of columns of both plans. -/
def width (scope : Scope) : Nat :=
  scope.left.width + (scope.right.map Schema.width).getD 0

theorem length_contents (scope : Scope) : scope.contents.length = scope.width := by
  unfold contents width
  rw [List.length_append, Schema.length_contents]
  cases scope.right with
  | none => rfl
  | some right => exact congrArg _ (Schema.length_contents right)

/-- The schemas are ones that can be built. -/
def Reachable (scope : Scope) : Prop :=
  (∃ n, Schema.Reachable n scope.left) ∧ ∀ right, scope.right = some right →
    ∃ n, Schema.Reachable n right

theorem Reachable.valid {scope : Scope} (h : scope.Reachable) : scope.Valid := by
  obtain ⟨⟨n, hleft⟩, hright⟩ := h
  refine ⟨hleft.counted.valid, ?_⟩
  intro right hr
  obtain ⟨m, hm⟩ := hright right hr
  exact hm.counted.valid

end Scope

namespace Expr

/-- The resolved form of an expression: each reference, attribute, aggregate and label is replaced by
the position at which it is found, and each label test by its position and the label. -/
inductive ResolvesTo (scope : Scope) : Expr → Scalar → Prop where
  | ref {name : String} {i : Nat}
      (h : (scope.find? (·.varColumn? name)).or (scope.alias? name) = some i) :
      ResolvesTo scope (.ref name) (.column i)
  | prop {var name : String} {i : Nat}
      (h : (scope.find? (·.attrColumn? var name)).or (scope.alias? (prop var name).text) = some i) :
      ResolvesTo scope (.prop var name) (.column i)
  | int (value : Int64) : ResolvesTo scope (.int value) (.int value)
  | decimal (value : Binary64) : ResolvesTo scope (.decimal value) (.decimal value.toHundredths)
  | str (value : String) : ResolvesTo scope (.str value) (.str value)
  | bool (value : Bool) : ResolvesTo scope (.bool value) (.bool value)
  | binary {op : BinaryOp} {lhs rhs : Expr} {l r : Scalar} (hop : op ≠ .mod)
      (hl : ResolvesTo scope lhs l) (hr : ResolvesTo scope rhs r) :
      ResolvesTo scope (.binary op lhs rhs) (.binary op l r)
  | unary (op : UnaryOp) {operand : Expr} {t : Scalar} (h : ResolvesTo scope operand t) :
      ResolvesTo scope (.unary op operand) (.unary op t)
  | aggregateAll {kind : AggregateKind} {i : Nat}
      (h : scope.alias? (aggregateAll kind).text = some i) :
      ResolvesTo scope (.aggregateAll kind) (.column i)
  | aggregate {kind : AggregateKind} {arg : Expr} {i : Nat}
      (h : scope.alias? (aggregate kind arg).text = some i) :
      ResolvesTo scope (.aggregate kind arg) (.column i)
  | hasLabel {var label : String} {i : Nat} (h : scope.find? (·.labelColumn? var) = some i) :
      ResolvesTo scope (.hasLabel var label) (.isLabel i label)
  | labelOf {var : String} {i : Nat} (h : scope.find? (·.labelColumn? var) = some i) :
      ResolvesTo scope (.labelOf var) (.column i)

section ResolvesTo

variable {scope : Scope} {e : Expr} {t : Scalar}

theorem exists_of_map_eq_ok {x : Except PlanError Scalar} {text : String}
    (h : x.map Scalar.text = .ok text) : ∃ t, x = .ok t ∧ t.text = text := by
  cases x with
  | error error => cases h
  | ok t => exact ⟨t, rfl, Except.ok.inj h⟩

theorem exists_of_lookup_eq_ok {o : Option Nat} {error : PlanError} {f : Nat → Scalar}
    (h : (orError error o >>= fun i => .ok (f i)) = .ok t) : ∃ i, o = some i ∧ f i = t := by
  obtain ⟨i, hi, hf⟩ := eq_ok_of_bind_eq_ok h
  exact ⟨i, eq_some_of_orError_eq_ok hi, Except.ok.inj hf⟩

theorem resolvesTo_of_resolve (h : e.resolve scope = .ok t) : e.ResolvesTo scope t := by
  induction e using Expr.resolve.induct generalizing t with
  | case1 name =>
    obtain ⟨i, hi, rfl⟩ := exists_of_lookup_eq_ok h
    exact .ref hi
  | case2 var name =>
    obtain ⟨i, hi, rfl⟩ := exists_of_lookup_eq_ok h
    exact .prop hi
  | case3 value =>
    cases h
    exact .int value
  | case4 value =>
    cases h
    exact .decimal value
  | case5 value =>
    cases h
    exact .str value
  | case6 value =>
    cases h
    exact .bool value
  | case7 | case8 | case15 => cases h
  | case9 op lhs rhs hop ihl ihr =>
    rw [resolve] at h
    · obtain ⟨l, hl, h⟩ := eq_ok_of_bind_eq_ok h
      obtain ⟨r, hr, h⟩ := eq_ok_of_bind_eq_ok h
      cases h
      exact .binary hop (ihl hl) (ihr hr)
    · exact hop
  | case10 op operand ih =>
    obtain ⟨t', ht', h⟩ := eq_ok_of_bind_eq_ok h
    cases h
    exact .unary op (ih ht')
  | case11 kind =>
    obtain ⟨i, hi, rfl⟩ := exists_of_lookup_eq_ok h
    exact .aggregateAll hi
  | case12 kind arg =>
    obtain ⟨i, hi, rfl⟩ := exists_of_lookup_eq_ok h
    exact .aggregate hi
  | case13 var label =>
    obtain ⟨i, hi, rfl⟩ := exists_of_lookup_eq_ok h
    exact .hasLabel hi
  | case14 var =>
    obtain ⟨i, hi, rfl⟩ := exists_of_lookup_eq_ok h
    exact .labelOf hi

theorem ResolvesTo.resolve (h : e.ResolvesTo scope t) : e.resolve scope = .ok t := by
  induction h with
  | int | decimal | str | bool => rfl
  | ref h | prop h | aggregateAll h | aggregate h | hasLabel h | labelOf h =>
    simp only [Expr.resolve, h]
    rfl
  | binary hop _ _ ihl ihr =>
    rw [Expr.resolve, ihl, ihr]
    · rfl
    · exact hop
  | unary op _ ih =>
    rw [Expr.resolve, ih]
    rfl

theorem resolvesTo_iff : e.ResolvesTo scope t ↔ e.resolve scope = .ok t :=
  ⟨ResolvesTo.resolve, resolvesTo_of_resolve⟩

/-- The positions of a resolved form are those of columns. -/
theorem ResolvesTo.lt_width (hs : scope.Valid) (h : e.ResolvesTo scope t) :
    ∀ i ∈ t.columns, i < scope.width := by
  rw [← Scope.length_contents]
  induction h with
  | int | decimal | str | bool =>
    intro i hi
    cases hi
  | ref h =>
    intro i hi
    cases List.mem_singleton.1 hi
    rcases Option.or_eq_some_iff.1 h with h | ⟨-, h⟩
    · exact Scope.lt_length_of_getElem? (Scope.getElem?_of_find?_var hs h)
    · exact Scope.alias?_lt hs h
  | prop h =>
    intro i hi
    cases List.mem_singleton.1 hi
    rcases Option.or_eq_some_iff.1 h with h | ⟨-, h⟩
    · exact Scope.lt_length_of_getElem? (Scope.getElem?_of_find?_attr hs h)
    · exact Scope.alias?_lt hs h
  | aggregateAll h | aggregate h =>
    intro i hi
    cases List.mem_singleton.1 hi
    exact Scope.alias?_lt hs h
  | hasLabel h | labelOf h =>
    intro i hi
    cases List.mem_singleton.1 hi
    exact Scope.lt_length_of_getElem? (Scope.getElem?_of_find?_label hs h)
  | binary hop _ _ ihl ihr =>
    intro i hi
    rcases List.mem_append.1 hi with hi | hi
    · exact ihl i hi
    · exact ihr i hi
  | unary op _ ih => exact ih

/-- What an expression with readable data resolves to is readable. -/
theorem readable_of_resolve (hdata : ∀ d ∈ e.data, d.Readable) (h : e.resolve scope = .ok t) :
    t.Readable := by
  have hself := Similar.refl (R := fun d d' => d = d' ∧ d.Readable) e fun d hd => ⟨rfl, hdata d hd⟩
  obtain ⟨t', -, hsimilar⟩ := (hself.resolve scope (Or.inr rfl)).exists_ok h
  exact hsimilar.readable fun d d' hd => hd.2

end ResolvesTo

/-- Two expressions that resolve to the same text have the same resolved form, if their strings and
labels have no quotes and their decimals, if any, have digits. All its positions are those of
columns. -/
theorem resolved_text_identifies {scope scope' : Scope} {e e' : Expr} {text : String}
    (hscope : scope.Reachable) (hscope' : scope'.Reachable)
    (hdata : ∀ d ∈ e.data, d.Readable) (hdata' : ∀ d ∈ e'.data, d.Readable)
    (h : (e.resolve scope).map Scalar.text = .ok text)
    (h' : (e'.resolve scope').map Scalar.text = .ok text) :
    ∃ t, (∀ u, e.ResolvesTo scope u ↔ u = t) ∧ (∀ u, e'.ResolvesTo scope' u ↔ u = t) ∧
      t.text = text ∧ ∀ i ∈ t.columns, i < scope.width ∧ i < scope'.width := by
  obtain ⟨t, ht, htext⟩ := exists_of_map_eq_ok h
  obtain ⟨t', ht', htext'⟩ := exists_of_map_eq_ok h'
  have hlegible := t.isLegible (readable_of_resolve hdata ht)
  have hread' := readable_of_resolve hdata' ht'
  have hsame : t = t' :=
    hlegible.eq hread' trivial (congrArg String.toList (htext.trans htext'.symm))
  subst hsame
  have hform : ∀ {sc : Scope} {x : Expr}, x.resolve sc = .ok t → ∀ u, x.ResolvesTo sc u ↔ u = t := by
    intro sc x hx u
    rw [resolvesTo_iff, hx, Except.ok.injEq, eq_comm]
  refine ⟨t, hform ht, hform ht', htext, ?_⟩
  intro i hi
  exact ⟨(resolvesTo_of_resolve ht).lt_width hscope.valid i hi,
    (resolvesTo_of_resolve ht').lt_width hscope'.valid i hi⟩

theorem resolved_text_identifies_of_join :
    let single : Schema := stateAfter (Schema.Change.addLabel "a").run
      (stateAfter (Schema.Change.addVariable "a").run .empty)
    let left : Schema := stateAfter (Schema.Change.addVariable "u").run .empty
    let right : Schema := stateAfter (Schema.Change.addLabel "v").run .empty
    let condition := fun x : String => binary .and (hasLabel x "P ) OR ( %7")
      (binary (.compare .lt) (int (-1)) (unary .neg (labelOf x)))
    ∃ t, (∀ u, (condition "a").ResolvesTo ⟨single, none⟩ u ↔ u = t) ∧
      (∀ u, (condition "v").ResolvesTo ⟨left, some right⟩ u ↔ u = t) ∧
      t.text = "( %1 = 'P ) OR ( %7' ) AND ( ( -1 ) < ( -( %1 ) ) )" ∧
      ∀ i ∈ t.columns, i < Scope.width ⟨single, none⟩ ∧ i < Scope.width ⟨left, some right⟩ := by
  intro single left right condition
  have hdata : ∀ x, ∀ d ∈ (condition x).data, d.Readable := by
    intro x d hd
    have hlabel : .label "P ) OR ( %7" = d := by simpa [condition, data, parts, datum?] using hd
    have hfree : QuoteFree "P ) OR ( %7" := by decide
    subst hlabel
    exact hfree
  have hsingle : Scope.Reachable ⟨single, none⟩ :=
    ⟨⟨0, .change (.change .empty (.addVariable "a")) (.addLabel "a")⟩, by simp⟩
  have hpair : Scope.Reachable ⟨left, some right⟩ := by
    refine ⟨⟨0, .change .empty (.addVariable "u")⟩, ?_⟩
    intro s hs
    cases hs
    exact ⟨0, .change .empty (.addLabel "v")⟩
  let form := Scalar.binary .and (.isLabel 1 "P ) OR ( %7")
    (.binary (.compare .lt) (.int (-1)) (.unary .neg (.column 1)))
  have ha : (condition "a").resolve ⟨single, none⟩ = .ok form := by rfl
  have hv : (condition "v").resolve ⟨left, some right⟩ = .ok form := by rfl
  have htext : form.text = "( %1 = 'P ) OR ( %7' ) AND ( ( -1 ) < ( -( %1 ) ) )" := by
    decide +kernel
  exact resolved_text_identifies hsingle hpair (hdata "a") (hdata "v")
    (by rw [ha, ← htext]; rfl) (by rw [hv, ← htext]; rfl)

end Expr

end GraphPlan
