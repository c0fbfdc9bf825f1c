import GraphPlan.Proofs.Decimal.Texts
import GraphPlan.Proofs.Expr.Parts
import GraphPlan.Text.Numeric

/-!
# The canonical text identifies the expression

Aliases and aggregates are found by the canonical text of an expression, so two expressions with one
text would be taken for each other. For plain expressions, those whose names are words and whose
literals cannot be mistaken for other syntax, this does not happen (`Expr.text_identifies`).

Only an operand that is itself a binary operation has parentheses, so there are two notions of a
text: as an operand, which may be followed by a blank, and on its own, which may not. The first
characters of an operand already show which kind of expression it is (`Head`); what is left is a
comparison of expressions of one kind.
-/

namespace GraphPlan

open Text

/-! ## Plain expressions -/

/-- Letters, digits and the underscore. -/
def isWordChar (c : Char) : Bool :=
  isAlphanumeric c || c == '_'

/-- A word that does not start with a digit. -/
def isWord : List Char → Bool
  | [] => false
  | c :: w => !c.isDigit && (c :: w).all isWordChar

/-- Words that are no names. -/
def reservedWords : List String :=
  ["true", "false", "null", "NOT", "AND", "OR"]

/-- The names that a plain expression may use. -/
def isName (s : String) : Bool :=
  isWord s.toList && !reservedWords.contains s

namespace Expr

/-- The condition on the top of a plain expression. -/
def plainTop : Expr → Bool
  | ref name => isName name
  | prop var name => isName var && isName name
  | int value => decide (0 ≤ value.toInt)
  | decimal value => value.isFinite && !value.negative
  | str value => decide (QuoteFree value)
  | hasLabel var label => isName var && decide (QuoteFree label)
  | labelOf var => isName var
  | _ => true

/-- Names are words and not reserved, strings and labels have no quotes, numbers have no signs and
are finite. -/
def Plain (e : Expr) : Prop :=
  ∀ t ∈ e.parts, t.plainTop = true

instance (e : Expr) : Decidable e.Plain :=
  inferInstanceAs (Decidable (∀ t ∈ e.parts, t.plainTop = true))

section Plain

variable {op : BinaryOp} {lhs rhs operand arg : Expr}

theorem Plain.top {e : Expr} (h : e.Plain) : e.plainTop = true :=
  h e e.self_mem_parts

theorem plain_binary : (binary op lhs rhs).Plain ↔ lhs.Plain ∧ rhs.Plain := by
  simp [Plain, parts, plainTop, or_imp, forall_and]

theorem plain_unary {op : UnaryOp} : (unary op operand).Plain ↔ operand.Plain := by
  simp [Plain, parts, plainTop]

theorem plain_aggregate {kind : AggregateKind} : (aggregate kind arg).Plain ↔ arg.Plain := by
  simp [Plain, parts, plainTop]

theorem forall_partsList {p : Expr → Prop} (es : List Expr) :
    (∀ t ∈ partsList es, p t) ↔ ∀ e ∈ es, ∀ t ∈ e.parts, p t := by
  induction es with
  | nil => simp [partsList]
  | cons e es ih => simp [partsList, or_imp, forall_and, ih]

theorem plain_call {func : Builtin} {args : List Expr} :
    (call func args).Plain ↔ ∀ arg ∈ args, arg.Plain := by
  unfold Plain
  rw [parts, List.forall_mem_cons, forall_partsList]
  exact and_iff_right rfl

end Plain

end Expr

/-- What stands in front of an opening parenthesis. -/
inductive Callee where
  /-- An aggregate function. -/
  | aggregate (kind : AggregateKind)
  /-- The label test. -/
  | hasLabel
  /-- The label of a variable. -/
  | label
  /-- A built-in function. -/
  | builtin (func : Builtin)
deriving DecidableEq

namespace Callee

/-- The word that is written. -/
def name : Callee → String
  | aggregate kind => kind.name
  | hasLabel => "has_label"
  | label => "label"
  | builtin func => func.name

/-- All of them. -/
def all : List Callee :=
  [.count, .min, .max, .sum, .avg].map aggregate ++ [hasLabel, label] ++
    [.id, .regex, .hasProp, .vertexLabels, .inDegree, .outDegree].map builtin

theorem mem_all (c : Callee) : c ∈ all := by
  cases c with
  | aggregate kind => cases kind <;> decide
  | builtin func => cases func <;> decide
  | hasLabel | label => decide

theorem name_injective {c d : Callee} (h : c.name.toList = d.name.toList) : c = d := by
  have hall : ∀ c ∈ all, ∀ d ∈ all, c.name = d.name → c = d := by decide +kernel
  exact hall c c.mem_all d d.mem_all (String.toList_inj.1 h)

theorem isWord_name (c : Callee) : isWord c.name.toList = true := by
  have hall : ∀ c ∈ all, isWord c.name.toList = true := by decide +kernel
  exact hall c c.mem_all

end Callee

/-! ## Words -/

section Words

variable {w v r s : List Char}

theorem isWordChar_of_isWord (h : isWord w = true) : ∀ c ∈ w, isWordChar c = true := by
  cases w with
  | nil => cases h
  | cons c w =>
    rw [isWord, Bool.and_eq_true, List.all_eq_true] at h
    exact h.2

theorem exists_cons_of_isWord (h : isWord w = true) :
    ∃ c t, w = c :: t ∧ c.isDigit = false ∧ isWordChar c = true := by
  have hclass := isWordChar_of_isWord h
  cases w with
  | nil => cases h
  | cons c w =>
    rw [isWord, Bool.and_eq_true, Bool.not_eq_true'] at h
    exact ⟨c, w, rfl, h.1, hclass c List.mem_cons_self⟩

theorem isWord_of_isName {name : String} (h : isName name = true) : isWord name.toList = true :=
  (Bool.and_eq_true _ _ ▸ h).1

theorem ne_of_isName {name word : String} (h : isName name = true) (hword : word ∈ reservedWords) :
    name.toList ≠ word.toList := by
  intro heq
  rw [String.toList_inj] at heq
  subst heq
  rw [isName, Bool.and_eq_true, Bool.not_eq_true'] at h
  rw [List.contains_iff_mem.2 hword] at h
  cases h.2

end Words

/-! ## What may follow -/

/-- Characters that do not end an operand. -/
def isOperandChar (c : Char) : Bool :=
  !(c == ' ' || c == ')' || c == ',')

/-- Characters that do not end a text on its own. -/
def isInnerChar (c : Char) : Bool :=
  !(c == ')' || c == ',')

section Stops

variable {r : List Char}

theorem isOperandChar_of_isWordChar {c : Char} (h : isWordChar c = true) :
    isOperandChar c = true := by
  rw [isOperandChar, Bool.not_eq_true', Bool.eq_false_iff]
  intro hc
  simp only [Bool.or_eq_true, beq_iff_eq] at hc
  rcases hc with (rfl | rfl) | rfl <;> exact absurd h (by decide +kernel)

theorem isOperandChar_of_isNumeralChar {c : Char} (h : isNumeralChar c = true) :
    isOperandChar c = true := by
  rw [isOperandChar, Bool.not_eq_true', Bool.eq_false_iff]
  intro hc
  simp only [Bool.or_eq_true, beq_iff_eq] at hc
  rcases hc with (rfl | rfl) | rfl <;> cases h

theorem isOperandChar_of_isInnerChar {c : Char} (h : isOperandChar c = true) :
    isInnerChar c = true := by
  simp_all [isOperandChar, isInnerChar]

theorem stops_word (h : Stops isOperandChar r) : Stops isWordChar r :=
  h.mono fun _ => isOperandChar_of_isWordChar

theorem stops_numeral (h : Stops isOperandChar r) : Stops isNumeralChar r :=
  h.mono fun _ => isOperandChar_of_isNumeralChar

theorem stops_operand (h : Stops isInnerChar r) : Stops isOperandChar r :=
  h.mono fun _ => isOperandChar_of_isInnerChar

theorem stops_blank (r : List Char) : Stops isOperandChar (' ' :: r) :=
  rfl

theorem stops_close (r : List Char) : Stops isInnerChar (')' :: r) :=
  rfl

theorem stops_comma (r : List Char) : Stops isInnerChar (',' :: r) :=
  rfl

end Stops

/-! ## Heads -/

/-- What the first characters of an operand show. -/
inductive Head where
  /-- A quote. -/
  | quote
  /-- An opening parenthesis. -/
  | paren
  /-- A minus sign. -/
  | minus
  /-- A digit. -/
  | number
  /-- A word, then neither a point nor a parenthesis. -/
  | bare (word : List Char)
  /-- A word and a point. -/
  | dotted (word : List Char)
  /-- A word and an opening parenthesis. -/
  | called (word : List Char)

namespace Head

/-- The head that a word has, by what follows it. -/
def ofWord (word : List Char) : List Char → Head
  | '.' :: _ => dotted word
  | '(' :: _ => called word
  | _ => bare word

/-- The head of a text. -/
def ofText : List Char → Head
  | '\'' :: _ => quote
  | '(' :: _ => paren
  | '-' :: _ => minus
  | text =>
    if (text.headD ' ').isDigit then number
    else ofWord (text.takeWhile isWordChar) (text.dropWhile isWordChar)

section OfText

variable {w r : List Char}

theorem takeWhile_word (hw : ∀ c ∈ w, isWordChar c = true) (hr : Stops isWordChar r) :
    (w ++ r).takeWhile isWordChar = w ∧ (w ++ r).dropWhile isWordChar = r := by
  rw [List.takeWhile_append_of_pos hw, List.dropWhile_append_of_pos hw]
  cases r with
  | nil => simp
  | cons c r =>
    have hc : ¬isWordChar c = true := by simpa using hr
    simp [List.takeWhile_cons_of_neg hc, List.dropWhile_cons_of_neg hc]

theorem ofText_word (hw : isWord w = true) (hr : Stops isWordChar r) :
    ofText (w ++ r) = ofWord w r := by
  obtain ⟨htake, hdrop⟩ := takeWhile_word (isWordChar_of_isWord hw) hr
  obtain ⟨c, t, rfl, hdigit, hclass⟩ := exists_cons_of_isWord hw
  have hquote : c ≠ '\'' := by
    rintro rfl
    exact absurd hclass (by decide +kernel)
  have hparen : c ≠ '(' := by
    rintro rfl
    exact absurd hclass (by decide +kernel)
  have hminus : c ≠ '-' := by
    rintro rfl
    exact absurd hclass (by decide +kernel)
  unfold ofText
  split
  · next h => exact absurd (List.cons.inj h).1 hquote
  · next h => exact absurd (List.cons.inj h).1 hparen
  · next h => exact absurd (List.cons.inj h).1 hminus
  · rw [htake, hdrop, List.cons_append, List.headD_cons, hdigit, if_neg (by decide)]

theorem ofText_bare (hw : isWord w = true) (hr : Stops isOperandChar r) :
    ofText (w ++ r) = bare w := by
  rw [ofText_word hw (stops_word hr)]
  unfold ofWord
  split
  · cases hr
  · cases hr
  · rfl

theorem ofText_dotted (hw : isWord w = true) : ofText (w ++ '.' :: r) = dotted w := by
  have hstop : Stops isWordChar ('.' :: r) := by
    show isWordChar '.' = false
    decide +kernel
  rw [ofText_word hw hstop]
  rfl

theorem ofText_called (hw : isWord w = true) : ofText (w ++ '(' :: r) = called w := by
  have hstop : Stops isWordChar ('(' :: r) := by
    show isWordChar '(' = false
    decide +kernel
  rw [ofText_word hw hstop]
  rfl

theorem ofText_digit {c : Char} (h : c.isDigit = true) : ofText (c :: r) = number := by
  unfold ofText
  split
  · next heq =>
    rw [(List.cons.inj heq).1] at h
    cases h
  · next heq =>
    rw [(List.cons.inj heq).1] at h
    cases h
  · next heq =>
    rw [(List.cons.inj heq).1] at h
    cases h
  · rw [List.headD_cons, if_pos h]

/-- Whether the head shows a word of no characters. -/
def isWordless : Head → Bool
  | bare [] => true
  | dotted [] => true
  | called [] => true
  | _ => false

/-- The characters that the text of an expression can start with. -/
def isStartChar (c : Char) : Bool :=
  isWordChar c || c == '\'' || c == '(' || c == '-'

/-- A text without a start has a head without a word. -/
theorem exists_start_of_ofText (h : (ofText r).isWordless = false) :
    ∃ c t, r = c :: t ∧ isStartChar c = true := by
  cases r with
  | nil => cases h
  | cons c t =>
    refine ⟨c, t, rfl, ?_⟩
    by_contra hc
    simp only [isStartChar, Bool.or_eq_true, beq_iff_eq, not_or] at hc
    obtain ⟨⟨⟨hword, hquote⟩, hparen⟩, hminus⟩ := hc
    have hdigit : ¬c.isDigit = true := by
      intro hd
      exact hword (by simp [isWordChar, isAlphanumeric, isNumeric_of_isDigit hd])
    unfold ofText at h
    split at h
    · next heq => exact hquote (List.cons.inj heq).1
    · next heq => exact hparen (List.cons.inj heq).1
    · next heq => exact hminus (List.cons.inj heq).1
    · rw [List.headD_cons, if_neg hdigit, List.takeWhile_cons_of_neg hword] at h
      unfold ofWord at h
      split at h <;> cases h

end OfText

end Head

namespace Expr

/-- The characters of the text on its own. -/
def chars (e : Expr) : List Char :=
  e.text.toList

/-- The characters of the text as an operand. -/
def operandChars (e : Expr) : List Char :=
  (operandText e.isBinary e.text).toList

/-- What the first characters of the expression as an operand show. -/
def head : Expr → Head
  | ref name => .bare name.toList
  | prop var _ => .dotted var.toList
  | int _ => .number
  | decimal _ => .number
  | str _ => .quote
  | bool value => .bare (if value then "true" else "false").toList
  | null => .bare "null".toList
  | binary .. => .paren
  | unary .neg _ => .minus
  | unary .not _ => .bare "NOT".toList
  | aggregateAll kind => .called (Callee.aggregate kind).name.toList
  | aggregate kind _ => .called (Callee.aggregate kind).name.toList
  | hasLabel .. => .called Callee.hasLabel.name.toList
  | labelOf _ => .called Callee.label.name.toList
  | call func _ => .called (Callee.builtin func).name.toList

/-! ### The characters of each kind -/

section Chars

variable {e lhs rhs operand arg : Expr}

theorem operandChars_of_isBinary (h : e.isBinary = true) :
    e.operandChars = '(' :: (e.chars ++ [')']) := by
  simp [operandChars, operandText, h, chars]

theorem operandChars_eq_chars (h : e.isBinary = false) : e.operandChars = e.chars := by
  simp [operandChars, operandText, h, chars]

theorem chars_binary (op : BinaryOp) (lhs rhs : Expr) :
    (binary op lhs rhs).chars =
      lhs.operandChars ++ ' ' :: (op.symbol.toList ++ ' ' :: rhs.operandChars) := by
  simp [chars, text, operandChars]

theorem chars_prop (var name : String) :
    (prop var name).chars = var.toList ++ '.' :: name.toList := by
  simp [chars, text]

theorem chars_neg (operand : Expr) : (unary .neg operand).chars = '-' :: operand.operandChars := by
  simp [chars, text, operandChars]

theorem chars_not (operand : Expr) :
    (unary .not operand).chars = "NOT".toList ++ ' ' :: operand.operandChars := by
  simp [chars, text, operandChars]

theorem chars_aggregateAll (kind : AggregateKind) :
    (aggregateAll kind).chars = kind.name.toList ++ ['(', '*', ')'] := by
  simp [chars, text]

theorem chars_aggregate (kind : AggregateKind) (arg : Expr) :
    (aggregate kind arg).chars = kind.name.toList ++ '(' :: (arg.chars ++ [')']) := by
  simp [chars, text]

theorem chars_hasLabel (var label : String) :
    (hasLabel var label).chars =
      "has_label".toList ++ '(' :: (var.toList ++ ',' :: ' ' :: ((quoted label).toList ++ [')'])) := by
  simp [chars, text]

theorem chars_labelOf (var : String) :
    (labelOf var).chars = "label".toList ++ '(' :: (var.toList ++ [')']) := by
  simp [chars, text]

/-- Arguments are divided by commas. -/
theorem toList_textList (args : List Expr) :
    (textList args).toList = [',', ' '].intercalate (args.map chars) := by
  induction args with
  | nil => rfl
  | cons arg args ih =>
    cases args with
    | nil => simp [textList, chars]
    | cons arg' args =>
      rw [textList, String.toList_append, String.toList_append, ih]
      · simp [List.intercalate_cons_cons, chars]
      · simp

theorem chars_call (func : Builtin) (args : List Expr) :
    (call func args).chars =
      func.name.toList ++ '(' :: ([',', ' '].intercalate (args.map chars) ++ [')']) := by
  rw [← toList_textList]
  simp [chars, text]

end Chars

/-- The first characters of an operand show its head. -/
theorem ofText_operandChars {e : Expr} (h : e.Plain) {r : List Char} (hr : Stops isOperandChar r) :
    Head.ofText (e.operandChars ++ r) = e.head := by
  have htop := h.top
  cases e with
  | ref name => exact Head.ofText_bare (isWord_of_isName htop) hr
  | prop var name =>
    rw [plainTop, Bool.and_eq_true] at htop
    rw [operandChars_eq_chars rfl, chars_prop, List.append_assoc, List.cons_append]
    exact Head.ofText_dotted (isWord_of_isName htop.1)
  | int value =>
    have hsign : ¬value.toInt < 0 := by
      have := of_decide_eq_true htop
      omega
    obtain ⟨d, ds, hd⟩ := List.exists_cons_of_ne_nil (repr_ne_nil value.toInt.natAbs)
    have hchars : (int value).operandChars = d :: ds := by
      show (intText value.toInt).toList = _
      rw [toList_intText, decide_eq_false hsign, if_neg (by decide), hd]
      rfl
    have hdigit : d.isDigit = true := isDigit_of_mem_repr (by rw [hd]; exact List.mem_cons_self)
    rw [hchars, List.cons_append, Head.ofText_digit hdigit]
    rfl
  | decimal value =>
    rw [plainTop, Bool.and_eq_true, Bool.not_eq_true'] at htop
    obtain ⟨d, ds, hd, hdigit⟩ := Layout.exists_digit_text (l := .expression) htop.1 htop.2
    have hchars : (decimal value).operandChars = d :: ds := hd
    rw [hchars, List.cons_append, Head.ofText_digit hdigit]
    rfl
  | str value =>
    show Head.ofText ((quoted value).toList ++ r) = _
    rw [toList_quoted]
    rfl
  | bool value =>
    have hword : isWord (if value then "true" else "false").toList = true := by
      cases value <;> decide +kernel
    exact Head.ofText_bare hword hr
  | null => exact Head.ofText_bare (by decide +kernel) hr
  | binary op lhs rhs =>
    rw [operandChars_of_isBinary rfl]
    rfl
  | unary op operand =>
    cases op with
    | neg =>
      rw [operandChars_eq_chars rfl, chars_neg]
      rfl
    | not =>
      rw [operandChars_eq_chars rfl, chars_not, List.append_assoc, List.cons_append]
      exact Head.ofText_bare (by decide +kernel) rfl
  | aggregateAll kind =>
    rw [operandChars_eq_chars rfl, chars_aggregateAll, List.append_assoc]
    exact Head.ofText_called (Callee.aggregate kind).isWord_name
  | aggregate kind arg =>
    rw [operandChars_eq_chars rfl, chars_aggregate, List.append_assoc, List.cons_append]
    exact Head.ofText_called (Callee.aggregate kind).isWord_name
  | hasLabel var label =>
    rw [operandChars_eq_chars rfl, chars_hasLabel, List.append_assoc, List.cons_append]
    exact Head.ofText_called Callee.hasLabel.isWord_name
  | labelOf var =>
    rw [operandChars_eq_chars rfl, chars_labelOf, List.append_assoc, List.cons_append]
    exact Head.ofText_called Callee.label.isWord_name
  | call func args =>
    rw [operandChars_eq_chars rfl, chars_call, List.append_assoc, List.cons_append]
    exact Head.ofText_called (Callee.builtin func).isWord_name

theorem isWordless_head {e : Expr} (h : e.Plain) : e.head.isWordless = false := by
  have hname : ∀ {name : String}, isName name = true → ∃ c t, name.toList = c :: t := by
    intro name hname
    obtain ⟨c, t, hc, -⟩ := exists_cons_of_isWord (isWord_of_isName hname)
    exact ⟨c, t, hc⟩
  have htop := h.top
  cases e with
  | ref name =>
    obtain ⟨c, t, hc⟩ := hname htop
    rw [head, hc]
    rfl
  | prop var name =>
    rw [plainTop, Bool.and_eq_true] at htop
    obtain ⟨c, t, hc⟩ := hname htop.1
    rw [head, hc]
    rfl
  | bool value => cases value <;> rfl
  | unary op operand => cases op <;> rfl
  | aggregateAll kind => cases kind <;> rfl
  | aggregate kind arg => cases kind <;> rfl
  | call func args => cases func <;> rfl
  | _ => rfl

theorem exists_start_operand {e : Expr} (h : e.Plain) :
    ∃ c t, e.operandChars = c :: t ∧ Head.isStartChar c = true := by
  refine Head.exists_start_of_ofText ?_
  have hhead := ofText_operandChars h (stops_nil _)
  rw [List.append_nil] at hhead
  rw [hhead, isWordless_head h]

theorem exists_start {e : Expr} (h : e.Plain) :
    ∃ c t, e.chars = c :: t ∧ Head.isStartChar c = true := by
  cases he : e.isBinary with
  | false =>
    rw [← operandChars_eq_chars he]
    exact exists_start_operand h
  | true =>
    cases e with
    | binary op lhs rhs =>
      obtain ⟨c, t, ht, hc⟩ := exists_start_operand (plain_binary.1 h).1
      rw [chars_binary, ht]
      exact ⟨c, _, rfl, hc⟩
    | _ => cases he

/-! ## Legible expressions -/

/-- Can be told from other plain expressions as an operand. -/
def LegibleOperand (e : Expr) : Prop :=
  Legible operandChars Plain (Stops isOperandChar) e

/-- Can be told from other plain expressions on its own. -/
def LegibleText (e : Expr) : Prop :=
  Legible chars Plain (Stops isInnerChar) e

section Legible

variable {e lhs rhs operand arg : Expr}

/-- Only expressions with the same head need to be told apart. -/
theorem legibleOperand_of_head (he : e.Plain)
    (h : ∀ e' r s, e'.Plain → Stops isOperandChar r → Stops isOperandChar s → e'.head = e.head →
      e.operandChars ++ r = e'.operandChars ++ s → e = e' ∧ r = s) : e.LegibleOperand := by
  intro e' r s he' hr hs heq
  refine h e' r s he' hr hs ?_ heq
  rw [← ofText_operandChars he' hs, ← heq, ofText_operandChars he hr]

/-- On its own, an expression that is no binary operation is not the left operand of one, since no
blank may follow it. -/
theorem LegibleOperand.legibleText (h : e.LegibleOperand) (hnot : e.isBinary = false) :
    e.LegibleText := by
  intro e' r s he' hr hs heq
  rw [← operandChars_eq_chars hnot] at heq
  cases he : e'.isBinary with
  | false =>
    rw [← operandChars_eq_chars he] at heq
    exact h he' (stops_operand hr) (stops_operand hs) heq
  | true =>
    cases e' with
    | binary op lhs rhs =>
      rw [chars_binary, List.append_assoc] at heq
      obtain ⟨-, rfl⟩ := h (plain_binary.1 he').1 (stops_operand hr) (stops_blank _) heq
      cases hr
    | _ => cases he

theorem LegibleText.legibleOperand_binary {op : BinaryOp} (h : (binary op lhs rhs).LegibleText)
    (he : (binary op lhs rhs).Plain) : (binary op lhs rhs).LegibleOperand := by
  refine legibleOperand_of_head he ?_
  intro e' r s he' _ _ hhead heq
  cases e' with
  | binary op' lhs' rhs' =>
    rw [operandChars_of_isBinary rfl, operandChars_of_isBinary rfl, List.cons_append,
      List.cons_append, List.append_assoc, List.append_assoc, List.cons.injEq] at heq
    obtain ⟨hsame, hrest⟩ := h he' (stops_close r) (stops_close s) heq.2
    exact ⟨hsame, (List.cons.inj hrest).2⟩
  | unary op => cases op <;> cases hhead
  | _ => cases hhead

theorem legibleText_binary (op : BinaryOp) (hl : lhs.LegibleOperand) (hr : rhs.LegibleOperand) :
    (binary op lhs rhs).LegibleText := by
  intro e' r s he' hstop hstop' heq
  cases hbin : e'.isBinary with
  | false =>
    -- the left operand cannot be the whole text, because a blank follows it
    rw [chars_binary, ← operandChars_eq_chars hbin, List.append_assoc] at heq
    obtain ⟨-, rfl⟩ := hl he' (stops_blank _) (stops_operand hstop') heq
    cases hstop'
  | true =>
    cases e' with
    | binary op' lhs' rhs' =>
      obtain ⟨hleft, hright⟩ := plain_binary.1 he'
      simp only [chars_binary, List.append_assoc, List.cons_append] at heq
      obtain ⟨rfl, hop⟩ := hl hleft (stops_blank _) (stops_blank _) heq
      have hblank : ∀ t : List Char, Stops (· != ' ') (' ' :: t) := fun _ => rfl
      obtain ⟨rfl, hrest⟩ := legible_symbol op trivial (hblank _) (hblank _) (List.cons.inj hop).2
      obtain ⟨rfl, rfl⟩ := hr hright (stops_operand hstop) (stops_operand hstop')
        (List.cons.inj hrest).2
      exact ⟨rfl, rfl⟩
    | _ => cases hbin

end Legible

/-! ### Expressions of one head -/

section SameHead

variable {e e' operand arg : Expr} {r s : List Char}

theorem eq_str_of_head (h : e.head = .quote) : ∃ value, e = str value := by
  cases e with
  | str value => exact ⟨value, rfl⟩
  | unary op => cases op <;> cases h
  | _ => cases h

theorem eq_neg_of_head (h : e.head = .minus) : ∃ operand, e = unary .neg operand := by
  cases e with
  | unary op operand =>
    cases op with
    | neg => exact ⟨operand, rfl⟩
    | not => cases h
  | _ => cases h

theorem eq_prop_of_head {w : List Char} (h : e.head = .dotted w) :
    ∃ var name, e = prop var name ∧ var.toList = w := by
  cases e with
  | prop var name =>
    cases h
    exact ⟨var, name, rfl, rfl⟩
  | unary op => cases op <;> cases h
  | _ => cases h

theorem eq_number_of_head (h : e.head = .number) :
    (∃ value, e = int value) ∨ ∃ value, e = decimal value := by
  cases e with
  | int value => exact Or.inl ⟨value, rfl⟩
  | decimal value => exact Or.inr ⟨value, rfl⟩
  | unary op => cases op <;> cases h
  | _ => cases h

/-- A word alone is a name, a truth value, the missing value or a negation. -/
theorem cases_of_head_bare {w : List Char} (h : e.head = .bare w) :
    (∃ name, e = ref name ∧ name.toList = w) ∨
      (∃ value, e = bool value ∧ (if value then "true" else "false").toList = w) ∨
      (e = null ∧ "null".toList = w) ∨
      (∃ operand, e = unary .not operand ∧ "NOT".toList = w) := by
  cases e with
  | ref name => exact Or.inl ⟨name, rfl, Head.bare.inj h⟩
  | bool value => exact Or.inr (Or.inl ⟨value, rfl, Head.bare.inj h⟩)
  | null => exact Or.inr (Or.inr (Or.inl ⟨rfl, Head.bare.inj h⟩))
  | unary op operand =>
    cases op with
    | neg => cases h
    | not => exact Or.inr (Or.inr (Or.inr ⟨operand, rfl, Head.bare.inj h⟩))
  | _ => cases h

/-- The expressions that call what a word stands for. -/
def Calls : Callee → Expr → Prop
  | .aggregate kind, e => e = aggregateAll kind ∨ ∃ arg, e = aggregate kind arg
  | .hasLabel, e => ∃ var label, e = hasLabel var label
  | .label, e => ∃ var, e = labelOf var
  | .builtin func, e => ∃ args, e = call func args

theorem calls_of_head {c : Callee} (h : e.head = .called c.name.toList) : Calls c e := by
  have hcallee : ∀ {d : Callee}, Head.called d.name.toList = .called c.name.toList → d = c :=
    fun hd => Callee.name_injective (Head.called.inj hd)
  cases e with
  | aggregateAll kind =>
    cases hcallee h
    exact Or.inl rfl
  | aggregate kind arg =>
    cases hcallee h
    exact Or.inr ⟨arg, rfl⟩
  | hasLabel var label =>
    cases hcallee h
    exact ⟨var, label, rfl⟩
  | labelOf var =>
    cases hcallee h
    exact ⟨var, rfl⟩
  | call func args =>
    cases hcallee h
    exact ⟨args, rfl⟩
  | unary op => cases op <;> cases h
  | _ => cases h

end SameHead

/-! ### One lemma per kind of expression -/

section Kinds

theorem legibleOperand_ref {name : String} (he : (ref name).Plain) :
    (ref name).LegibleOperand := by
  refine legibleOperand_of_head he ?_
  intro e' r s he' _ _ hhead heq
  have hreserved : ∀ {word : String}, word ∈ reservedWords → word.toList ≠ name.toList :=
    fun hword h => ne_of_isName he.top hword h.symm
  rcases cases_of_head_bare hhead with ⟨name', rfl, hw⟩ | ⟨value, rfl, hw⟩ | ⟨rfl, hw⟩ | ⟨x, rfl, hw⟩
  · cases String.toList_inj.1 hw
    exact ⟨rfl, List.append_cancel_left heq⟩
  · cases value
    · exact absurd hw (hreserved (by decide))
    · exact absurd hw (hreserved (by decide))
  · exact absurd hw (hreserved (by decide))
  · exact absurd hw (hreserved (by decide))

theorem legibleOperand_bool (value : Bool) : (bool value).LegibleOperand := by
  refine legibleOperand_of_head (by cases value <;> decide) ?_
  intro e' r s he' _ _ hhead heq
  rcases cases_of_head_bare hhead with ⟨name', rfl, hw⟩ | ⟨value', rfl, hw⟩ | ⟨rfl, hw⟩ | ⟨x, rfl, hw⟩
  · have hword : (if value then "true" else "false") ∈ reservedWords := by
      cases value <;> decide
    exact absurd hw (ne_of_isName he'.top hword)
  · have hvalue : value = value' := by
      cases value <;> cases value' <;> simp_all
    cases hvalue
    exact ⟨rfl, List.append_cancel_left heq⟩
  · cases value <;> exact absurd hw (by decide)
  · cases value <;> exact absurd hw (by decide)

theorem legibleOperand_null : null.LegibleOperand := by
  refine legibleOperand_of_head (by decide) ?_
  intro e' r s he' _ _ hhead heq
  rcases cases_of_head_bare hhead with ⟨name', rfl, hw⟩ | ⟨value', rfl, hw⟩ | ⟨rfl, hw⟩ | ⟨x, rfl, hw⟩
  · exact absurd hw (ne_of_isName he'.top (by decide))
  · cases value' <;> exact absurd hw (by decide)
  · exact ⟨rfl, List.append_cancel_left heq⟩
  · exact absurd hw (by decide)

theorem legibleOperand_not {operand : Expr} (h : operand.LegibleOperand) (he : operand.Plain) :
    (unary .not operand).LegibleOperand := by
  refine legibleOperand_of_head (plain_unary.2 he) ?_
  intro e' r s he' hr hs hhead heq
  rcases cases_of_head_bare hhead with ⟨name', rfl, hw⟩ | ⟨value', rfl, hw⟩ | ⟨rfl, hw⟩ | ⟨x, rfl, -⟩
  · exact absurd hw (ne_of_isName he'.top (by decide))
  · cases value' <;> exact absurd hw (by decide)
  · exact absurd hw (by decide)
  · simp only [operandChars_eq_chars (e := unary .not _) rfl, chars_not, List.append_assoc,
      List.cons_append] at heq
    obtain ⟨rfl, rfl⟩ := h (plain_unary.1 he') hr hs (List.cons.inj (List.append_cancel_left heq)).2
    exact ⟨rfl, rfl⟩

theorem legibleOperand_neg {operand : Expr} (h : operand.LegibleOperand) (he : operand.Plain) :
    (unary .neg operand).LegibleOperand := by
  refine legibleOperand_of_head (plain_unary.2 he) ?_
  intro e' r s he' hr hs hhead heq
  obtain ⟨x, rfl⟩ := eq_neg_of_head hhead
  simp only [operandChars_eq_chars (e := unary .neg _) rfl, chars_neg, List.cons_append] at heq
  obtain ⟨rfl, rfl⟩ := h (plain_unary.1 he') hr hs (List.cons.inj heq).2
  exact ⟨rfl, rfl⟩

theorem legibleOperand_str {value : String} (he : (str value).Plain) :
    (str value).LegibleOperand := by
  refine legibleOperand_of_head he ?_
  intro e' r s he' _ _ hhead heq
  obtain ⟨value', rfl⟩ := eq_str_of_head hhead
  obtain ⟨rfl, rfl⟩ := legible_quoted (of_decide_eq_true he.top) (of_decide_eq_true he'.top)
    trivial trivial heq
  exact ⟨rfl, rfl⟩

theorem legibleOperand_prop {var name : String} (he : (prop var name).Plain) :
    (prop var name).LegibleOperand := by
  refine legibleOperand_of_head he ?_
  intro e' r s he' hr hs hhead heq
  obtain ⟨var', name', rfl, hvar⟩ := eq_prop_of_head hhead
  cases String.toList_inj.1 hvar
  have hname : ∀ {name : String}, (prop var name).Plain → ∀ c ∈ name.toList, isWordChar c = true := by
    intro name h
    have htop := h.top
    rw [plainTop, Bool.and_eq_true] at htop
    exact isWordChar_of_isWord (isWord_of_isName htop.2)
  simp only [operandChars_eq_chars (e := prop _ _) rfl, chars_prop, List.append_assoc,
    List.cons_append] at heq
  obtain ⟨hsame, hrest⟩ := append_inj_of_stops (hname he) (hname he') (stops_word hr)
    (stops_word hs) (List.cons.inj (List.append_cancel_left heq)).2
  cases String.toList_inj.1 hsame
  exact ⟨rfl, hrest⟩

theorem ne_mark_of_mem_intText {i : Int} {c : Char} (h : c ∈ (intText i).toList) :
    ¬(c = '.' ∨ c = 'e') := by
  rintro (rfl | rfl) <;> rcases eq_minus_or_isDigit_of_mem_intText h with h | h <;> cases h

/-- An integer has neither a point nor an exponent, a decimal has one of them. -/
theorem int_ne_decimal {value : Int64} {value' : Binary64} (h : value'.isFinite = true) {r s : List Char}
    (hr : Stops isOperandChar r) (hs : Stops isOperandChar s) :
    (int value).operandChars ++ r ≠ (decimal value').operandChars ++ s := by
  intro heq
  obtain ⟨htoken, -⟩ := append_inj_of_stops (fun _ => isNumeralChar_of_mem_intText)
    (fun _ => Layout.isNumeralChar_of_mem_text h) (stops_numeral hr) (stops_numeral hs) heq
  obtain ⟨c, hc, hmark⟩ := Layout.exists_mark_text (l := .expression) h
  rw [← htoken] at hc
  exact ne_mark_of_mem_intText hc hmark

theorem legibleOperand_int {value : Int64} (he : (int value).Plain) :
    (int value).LegibleOperand := by
  refine legibleOperand_of_head he ?_
  intro e' r s he' hr hs hhead heq
  rcases eq_number_of_head hhead with ⟨value', rfl⟩ | ⟨value', rfl⟩
  · obtain ⟨rfl, rfl⟩ := legible_intText value trivial (stops_numeral hr) (stops_numeral hs) heq
    exact ⟨rfl, rfl⟩
  · have htop := he'.top
    rw [plainTop, Bool.and_eq_true] at htop
    exact absurd heq (int_ne_decimal htop.1 hr hs)

theorem legibleOperand_decimal {value : Binary64} (he : (decimal value).Plain) :
    (decimal value).LegibleOperand := by
  refine legibleOperand_of_head he ?_
  intro e' r s he' hr hs hhead heq
  have hfinite : ∀ {v : Binary64}, (decimal v).Plain → v.isFinite = true := by
    intro v hv
    have htop := hv.top
    rw [plainTop, Bool.and_eq_true] at htop
    exact htop.1
  rcases eq_number_of_head hhead with ⟨value', rfl⟩ | ⟨value', rfl⟩
  · exact absurd heq.symm (int_ne_decimal (hfinite he) hs hr)
  · obtain ⟨rfl, rfl⟩ := Layout.legible_text (hfinite he) (hfinite he') (stops_numeral hr)
      (stops_numeral hs) heq
    exact ⟨rfl, rfl⟩

/-- No argument is a star. -/
theorem chars_ne_star {arg : Expr} (h : arg.Plain) (r s : List Char) :
    arg.chars ++ r ≠ '*' :: s := by
  obtain ⟨c, t, hc, hstart⟩ := exists_start h
  intro heq
  rw [hc] at heq
  cases (List.cons.inj heq).1
  exact absurd hstart (by decide +kernel)

theorem legibleOperand_aggregateAll (kind : AggregateKind) :
    (aggregateAll kind).LegibleOperand := by
  refine legibleOperand_of_head (by cases kind <;> decide) ?_
  intro e' r s he' _ _ hhead heq
  rcases calls_of_head hhead with rfl | ⟨arg, rfl⟩
  · exact ⟨rfl, List.append_cancel_left heq⟩
  · simp only [operandChars_eq_chars (e := aggregateAll _) rfl,
      operandChars_eq_chars (e := aggregate _ _) rfl, chars_aggregateAll, chars_aggregate,
      List.append_assoc, List.cons_append] at heq
    have hstar := (List.cons.inj (List.append_cancel_left heq)).2
    exact absurd hstar.symm (chars_ne_star (plain_aggregate.1 he') _ _)

theorem legibleOperand_aggregate {kind : AggregateKind} {arg : Expr} (h : arg.LegibleText)
    (he : arg.Plain) : (aggregate kind arg).LegibleOperand := by
  refine legibleOperand_of_head (plain_aggregate.2 he) ?_
  intro e' r s he' _ _ hhead heq
  rcases calls_of_head hhead with rfl | ⟨arg', rfl⟩
  · simp only [operandChars_eq_chars (e := aggregateAll _) rfl,
      operandChars_eq_chars (e := aggregate _ _) rfl, chars_aggregateAll, chars_aggregate,
      List.append_assoc, List.cons_append] at heq
    have hstar := (List.cons.inj (List.append_cancel_left heq)).2
    exact absurd hstar (chars_ne_star he _ _)
  · simp only [operandChars_eq_chars (e := aggregate _ _) rfl, chars_aggregate, List.append_assoc,
      List.cons_append] at heq
    obtain ⟨rfl, hrest⟩ := h (plain_aggregate.1 he') (stops_close _) (stops_close _)
      (List.cons.inj (List.append_cancel_left heq)).2
    exact ⟨rfl, (List.cons.inj hrest).2⟩

/-- The name of a variable ends before a comma and before a parenthesis. -/
theorem name_append_inj {x y : String} {r s : List Char} (hx : isName x = true)
    (hy : isName y = true) (hr : Stops isInnerChar r) (hs : Stops isInnerChar s)
    (h : x.toList ++ r = y.toList ++ s) : x = y ∧ r = s := by
  obtain ⟨hxy, hrest⟩ := append_inj_of_stops (isWordChar_of_isWord (isWord_of_isName hx))
    (isWordChar_of_isWord (isWord_of_isName hy)) (stops_word (stops_operand hr))
    (stops_word (stops_operand hs)) h
  exact ⟨String.toList_inj.1 hxy, hrest⟩

theorem legibleOperand_hasLabel {var label : String} (he : (hasLabel var label).Plain) :
    (hasLabel var label).LegibleOperand := by
  refine legibleOperand_of_head he ?_
  intro e' r s he' _ _ hhead heq
  obtain ⟨var', label', rfl⟩ := calls_of_head (c := .hasLabel) hhead
  have htop := he.top
  have htop' := he'.top
  rw [plainTop, Bool.and_eq_true, decide_eq_true_eq] at htop htop'
  simp only [operandChars_eq_chars (e := hasLabel _ _) rfl, chars_hasLabel, List.append_assoc,
    List.cons_append] at heq
  obtain ⟨rfl, hlabel⟩ := name_append_inj htop.1 htop'.1 (stops_comma _) (stops_comma _)
    (List.cons.inj (List.append_cancel_left heq)).2
  obtain ⟨rfl, hrest⟩ := legible_quoted htop.2 htop'.2 trivial trivial
    (List.cons.inj (List.cons.inj hlabel).2).2
  exact ⟨rfl, (List.cons.inj hrest).2⟩

theorem legibleOperand_labelOf {var : String} (he : (labelOf var).Plain) :
    (labelOf var).LegibleOperand := by
  refine legibleOperand_of_head he ?_
  intro e' r s he' _ _ hhead heq
  obtain ⟨var', rfl⟩ := calls_of_head (c := .label) hhead
  simp only [operandChars_eq_chars (e := labelOf _) rfl, chars_labelOf, List.append_assoc,
    List.cons_append] at heq
  obtain ⟨rfl, hrest⟩ := name_append_inj he.top he'.top (stops_close _) (stops_close _)
    (List.cons.inj (List.append_cancel_left heq)).2
  exact ⟨rfl, (List.cons.inj hrest).2⟩

/-- Arguments end at the closing parenthesis. -/
def AtClose (r : List Char) : Prop :=
  r.head? = some ')'

theorem legible_args {args : List Expr} (hplain : ∀ arg ∈ args, arg.Plain)
    (h : ∀ arg ∈ args, arg.LegibleText) :
    Legible (fun args : List Expr => [',', ' '].intercalate (args.map chars))
      (fun args => ∀ arg ∈ args, arg.Plain) AtClose args := by
  have hcomma : ∀ t, Stops isInnerChar ([',', ' '] ++ t) := fun _ => stops_comma _
  refine legible_intercalate hcomma ?_ ?_ ?_ hplain h
  · intro t ht
    cases t with
    | nil => cases ht
    | cons c t =>
      cases Option.some.inj ht
      exact stops_close t
  · intro t ht
    exact absurd ht (by simp [AtClose])
  · intro arg harg t ht
    obtain ⟨c, t', hc, hstart⟩ := exists_start harg
    rw [hc] at ht
    cases Option.some.inj ht
    exact absurd hstart (by decide +kernel)

theorem legibleOperand_call {func : Builtin} {args : List Expr} (h : ∀ arg ∈ args, arg.LegibleText)
    (he : ∀ arg ∈ args, arg.Plain) : (call func args).LegibleOperand := by
  refine legibleOperand_of_head (plain_call.2 he) ?_
  intro e' r s he' _ _ hhead heq
  obtain ⟨args', rfl⟩ := calls_of_head (c := .builtin func) hhead
  simp only [operandChars_eq_chars (e := call _ _) rfl, chars_call, List.append_assoc,
    List.cons_append] at heq
  obtain ⟨rfl, hrest⟩ := legible_args he h (plain_call.1 he') (r := [')'] ++ r) (s := [')'] ++ s) rfl rfl
    (List.cons.inj (List.append_cancel_left heq)).2
  exact ⟨rfl, (List.cons.inj hrest).2⟩

end Kinds

/-! ## All expressions -/

mutual

/-- Every plain expression is legible, as an operand and on its own. -/
theorem legible (e : Expr) (h : e.Plain) : e.LegibleOperand ∧ e.LegibleText := by
  -- an expression without parentheses is read as an operand first; a binary operation is read on its
  -- own first, from its operands
  have hown : e.isBinary = false → e.LegibleOperand → e.LegibleOperand ∧ e.LegibleText :=
    fun hnot hop => ⟨hop, hop.legibleText hnot⟩
  cases e with
  | ref name => exact hown rfl (legibleOperand_ref h)
  | prop var name => exact hown rfl (legibleOperand_prop h)
  | int value => exact hown rfl (legibleOperand_int h)
  | decimal value => exact hown rfl (legibleOperand_decimal h)
  | str value => exact hown rfl (legibleOperand_str h)
  | bool value => exact hown rfl (legibleOperand_bool value)
  | null => exact hown rfl legibleOperand_null
  | binary op lhs rhs =>
    obtain ⟨hl, hr⟩ := plain_binary.1 h
    have htext := legibleText_binary op (legible lhs hl).1 (legible rhs hr).1
    exact ⟨htext.legibleOperand_binary h, htext⟩
  | unary op operand =>
    have hop := plain_unary.1 h
    cases op with
    | neg => exact hown rfl (legibleOperand_neg (legible operand hop).1 hop)
    | not => exact hown rfl (legibleOperand_not (legible operand hop).1 hop)
  | aggregateAll kind => exact hown rfl (legibleOperand_aggregateAll kind)
  | aggregate kind arg =>
    have harg := plain_aggregate.1 h
    exact hown rfl (legibleOperand_aggregate (legible arg harg).2 harg)
  | hasLabel var label => exact hown rfl (legibleOperand_hasLabel h)
  | labelOf var => exact hown rfl (legibleOperand_labelOf h)
  | call func args =>
    have hargs := plain_call.1 h
    exact hown rfl (legibleOperand_call (legibleText_args args hargs) hargs)

theorem legibleText_args (args : List Expr) (h : ∀ arg ∈ args, arg.Plain) :
    ∀ arg ∈ args, arg.LegibleText := by
  intro arg harg
  cases args with
  | nil => cases harg
  | cons first rest =>
    rcases List.mem_cons.1 harg with rfl | harg
    · exact (legible arg (h arg List.mem_cons_self)).2
    · exact legibleText_args rest (fun a ha => h a (List.mem_cons_of_mem _ ha)) arg harg

end

/-- Plain expressions with the same canonical text are the same expression. -/
theorem text_identifies {e e' : Expr} (he : e.Plain) (he' : e'.Plain) (h : e.text = e'.text) :
    e = e' :=
  (legible e he).2.eq he' (stops_nil _) (congrArg String.toList h)

theorem text_identifies_of_differences :
    let start := unary .neg (prop "a" "n")
    let first := binary .sub (binary .sub start (aggregateAll .count))
      (call .regex [decimal ⟨0x4004000000000000⟩, str "x, y)"])
    let second := [aggregateAll .count, call .regex [decimal ⟨0x4004000000000000⟩, str "x, y)"]].foldl
      (binary .sub) start
    first.Plain ∧ second.Plain ∧ first.text = "(-a.n - COUNT(*)) - regex(2.5, 'x, y)')" ∧
      first = second :=
  ⟨by decide +kernel, by decide +kernel, by decide +kernel,
    text_identifies (by decide +kernel) (by decide +kernel) rfl⟩

end Expr

end GraphPlan
