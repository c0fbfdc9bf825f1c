import GraphPlan.Proofs.Algebra.ScalarText
import GraphPlan.Proofs.Planner.Similar

/-!
# The text of a plan determines the plan

The text of an operator is a word, an opening parenthesis, the texts of its inputs and its
arguments. The word says which operator it is, with two exceptions: both scans of objects start with
the same word, and so do both filters. The first are told apart by their arguments, the second by a
blank after the parenthesis. Arguments stand in a fixed order, and each of them shows where it ends,
as long as no name, label or string contains a quote. So a plan can be read off its text from left to
right, and two plans of one configuration with the same text are the same
(`Query.plan_text_identifies`).
-/

namespace GraphPlan

open Text

/-- Goes on with a blank. -/
def AtBlank (r : List Char) : Prop :=
  ∃ t, r = ' ' :: t

theorem AtBlank.stops {p : Char → Bool} {r : List Char} (h : AtBlank r) (hp : p ' ' = false) :
    Stops p r := by
  obtain ⟨t, rfl⟩ := h
  exact hp

/-! ## Literals of scans -/

namespace ScanValue

/-- No quote in a string, and no decimal without digits. -/
def Readable : ScanValue → Prop
  | str value => QuoteFree value
  | decimal value => value.isFinite = true
  | _ => True

/-- The digits of the text, with sign, point and exponent. -/
def numeral : ScanValue → List Char
  | int value => (intText value.toInt).toList
  | decimal value => (Layout.expression.text value).toList
  | _ => []

/-- The text after the digits. -/
def tail : ScanValue → List Char
  | str value => (Expr.quoted value).toList
  | int _ => []
  | decimal _ => ['F']
  | bool value => if value then ['T', 'r', 'u', 'e'] else ['F', 'a', 'l', 's', 'e']

theorem toList_text (v : ScanValue) : v.text.toList = v.numeral ++ v.tail := by
  cases v with
  | bool value => cases value <;> rfl
  | _ => simp [text, numeral, tail]

theorem isNumeralChar_of_mem_numeral {v : ScanValue} (h : v.Readable) :
    ∀ c ∈ v.numeral, isNumeralChar c = true := by
  cases v with
  | int value => exact fun _ => isNumeralChar_of_mem_intText
  | decimal value => exact fun _ => Layout.isNumeralChar_of_mem_text h
  | _ => simp [numeral]

theorem stops_tail (v : ScanValue) {r : List Char} (hr : AtBlank r) :
    Stops isNumeralChar (v.tail ++ r) := by
  cases v with
  | str value =>
    rw [tail, toList_quoted]
    rfl
  | int value => exact hr.stops rfl
  | decimal value => rfl
  | bool value => cases value <;> rfl

/-- The digits are the same, and so is the text after them, which shows of which kind the literal is.
-/
theorem legible {v : ScanValue} (h : v.Readable) :
    Legible (fun v => v.text.toList) Readable AtBlank v := by
  intro w r s hw hr hs heq
  simp only [toList_text, List.append_assoc] at heq
  obtain ⟨hnumeral, htail⟩ := append_inj_of_stops (isNumeralChar_of_mem_numeral h)
    (isNumeralChar_of_mem_numeral hw) (v.stops_tail hr) (w.stops_tail hs) heq
  obtain ⟨r, rfl⟩ := hr
  obtain ⟨s, rfl⟩ := hs
  cases v with
  | str value =>
    cases w with
    | str value' =>
      obtain ⟨rfl, hrest⟩ := legible_quoted h hw trivial trivial htail
      exact ⟨rfl, hrest⟩
    | bool value' => cases value' <;> simp [tail, toList_quoted] at htail
    | _ => simp [tail, toList_quoted] at htail
  | int value =>
    cases w with
    | int value' => exact ⟨congrArg int (Int64.toInt_inj.1 (intText_injective hnumeral)), htail⟩
    | bool value' => cases value' <;> simp [tail] at htail
    | _ => simp [tail, toList_quoted] at htail
  | decimal value =>
    cases w with
    | decimal value' =>
      have hvalue := Layout.text_injective h hw (String.toList_inj.1 hnumeral)
      exact ⟨congrArg decimal hvalue, (List.cons.inj htail).2⟩
    | bool value' => cases value' <;> simp [tail] at htail
    | _ => simp [tail, toList_quoted] at htail
  | bool value =>
    cases w with
    | bool value' => cases value <;> cases value' <;> simp_all [tail]
    | _ => cases value <;> simp [tail, toList_quoted] at htail

end ScanValue

/-! ## Lists of positions -/

/-- The end of a list in brackets. -/
def AtBracket (r : List Char) : Prop :=
  ∃ t, r = ' ' :: ']' :: t

namespace Operator

theorem legible_positions (columns : List Nat) :
    Legible (fun columns => (positionsText columns).toList) (fun _ => True) (fun _ => True)
      columns := by
  intro columns' r s _ _ _ heq
  have hlist : Legible (fun columns : List Nat =>
      [',', ' '].intercalate (columns.map fun i => (Nat.repr i).toList))
      (fun columns => ∀ i ∈ columns, True) AtBracket columns := by
    have hcomma : ∀ t : List Char, Stops Char.isDigit ([',', ' '] ++ t) := fun _ => rfl
    refine legible_intercalate hcomma ?_ ?_ ?_ (fun _ _ => trivial) fun i _ => legible_repr i
    · rintro _ ⟨t, rfl⟩
      rfl
    · rintro t ⟨u, hu⟩
      cases hu
    · rintro i _ t ⟨u, hu⟩
      obtain ⟨d, ds, hd⟩ := List.exists_cons_of_ne_nil (repr_ne_nil i)
      have hdigit : d.isDigit = true := isDigit_of_mem_repr (by rw [hd]; exact List.mem_cons_self)
      rw [hd] at hu
      cases (List.cons.inj hu).1
      cases hdigit
  simp only [positionsText, String.toList_append, String.toList_intercalate, List.map_map,
    List.append_assoc] at heq
  obtain ⟨rfl, hrest⟩ := hlist (fun _ _ => trivial) ⟨_, rfl⟩ ⟨_, rfl⟩
    (List.append_cancel_left heq)
  exact ⟨rfl, (List.cons.inj (List.cons.inj hrest).2).2⟩

/-! ## Further arguments -/

/-- An equation of two columns shows its end, if no digit follows. -/
theorem legible_pair (pair : Nat × Nat) :
    Legible (fun pair => (pairText pair).toList) (fun _ => True) (Stops Char.isDigit) pair := by
  intro pair' r s _ hr hs heq
  have hequals : ∀ t : List Char, Stops Char.isDigit ('=' :: '%' :: t) := fun _ => rfl
  simp only [pairText, Scalar.columnText, String.toList_append, List.append_assoc] at heq
  obtain ⟨hfirst, htail⟩ := legible_repr pair.1 trivial (hequals _) (hequals _)
    (List.append_cancel_left heq)
  obtain ⟨hsecond, hrest⟩ := legible_repr pair.2 trivial hr hs
    (List.cons.inj (List.cons.inj htail).2).2
  exact ⟨Prod.ext hfirst hsecond, hrest⟩

/-- The end of the arguments. -/
def AtParenthesis (r : List Char) : Prop :=
  ∃ t, r = ' ' :: ')' :: t

/-- The equations of several pairs, each in parentheses. -/
theorem pairsText_of_ne {pairs : List (Nat × Nat)} (h : ∀ pair, pairs ≠ [pair]) :
    (pairsText pairs).toList =
      [' ', 'A', 'N', 'D', ' '].intercalate
        (pairs.map fun pair => '(' :: ((pairText pair).toList ++ [')'])) := by
  unfold pairsText
  split
  · next pair => exact absurd rfl (h pair)
  · rw [String.toList_intercalate, List.map_map]
    congr 2
    funext pair
    simp

/-- A single equation does not look like several or none, which start with a parenthesis or at once
with the end. -/
theorem single_ne_several {pair : Nat × Nat} {pairs : List (Nat × Nat)} {r s : List Char}
    (h : ∀ pair, pairs ≠ [pair]) (hs : AtParenthesis s) :
    (pairsText [pair]).toList ++ r ≠ (pairsText pairs).toList ++ s := by
  obtain ⟨s, rfl⟩ := hs
  rw [pairsText_of_ne h]
  intro heq
  cases pairs with
  | nil => simp [pairsText, pairText, Scalar.columnText] at heq
  | cons other pairs =>
    rw [intercalate_map_cons] at heq
    simp [pairsText, pairText, Scalar.columnText] at heq

theorem legible_several (pairs : List (Nat × Nat)) :
    Legible (fun pairs : List (Nat × Nat) => [' ', 'A', 'N', 'D', ' '].intercalate
        (pairs.map fun pair => '(' :: ((pairText pair).toList ++ [')'])))
      (fun pairs => ∀ pair ∈ pairs, True) AtParenthesis pairs := by
  refine legible_intercalate (fun _ => trivial) (fun _ _ => trivial) ?_ ?_ (fun _ _ => trivial) ?_
  · rintro t ⟨u, hu⟩
    cases hu
  · rintro pair _ t ⟨u, hu⟩
    cases hu
  · intro pair _ pair' r s _ _ _ heq
    have hparen : ∀ t : List Char, Stops Char.isDigit (')' :: t) := fun _ => rfl
    simp only [List.cons_append, List.append_assoc, List.cons.injEq, true_and] at heq
    obtain ⟨rfl, hrest⟩ := legible_pair pair trivial (hparen _) (hparen _) heq
    exact ⟨rfl, (List.cons.inj hrest).2⟩

theorem legible_pairs (pairs : List (Nat × Nat)) :
    Legible (fun pairs => (pairsText pairs).toList) (fun _ => True) AtParenthesis pairs := by
  intro pairs' r s _ hr hs heq
  by_cases hsingle : ∃ pair, pairs = [pair]
  · obtain ⟨pair, rfl⟩ := hsingle
    by_cases hsingle' : ∃ pair', pairs' = [pair']
    · obtain ⟨pair', rfl⟩ := hsingle'
      have hstop : ∀ {t : List Char}, AtParenthesis t → Stops Char.isDigit t := by
        rintro _ ⟨t, rfl⟩
        rfl
      obtain ⟨rfl, hrest⟩ := legible_pair pair trivial (hstop hr) (hstop hs) heq
      exact ⟨rfl, hrest⟩
    · exact absurd heq (single_ne_several (fun pair' h => hsingle' ⟨pair', h⟩) hs)
  · by_cases hsingle' : ∃ pair', pairs' = [pair']
    · obtain ⟨pair', rfl⟩ := hsingle'
      exact absurd heq.symm (single_ne_several (fun pair h => hsingle ⟨pair, h⟩) hr)
    · simp only [pairsText_of_ne fun pair h => hsingle ⟨pair, h⟩,
        pairsText_of_ne fun pair' h => hsingle' ⟨pair', h⟩] at heq
      exact legible_several pairs (fun _ _ => trivial) hr hs heq

theorem legible_bound (bound : Option UInt64) :
    Legible (fun bound => (boundText bound).toList) (fun _ => True) (Stops Char.isAlphanum)
      bound := by
  have hnone : ∀ n : UInt64, (boundText (some n)).toList ≠ (boundText none).toList := by
    intro n h
    have hmem : 'N' ∈ (Nat.repr n.toNat).toList := by
      rw [show (Nat.repr n.toNat).toList = ['N', 'U', 'L', 'L'] from h]
      exact List.mem_cons_self
    cases isDigit_of_mem_repr hmem
  refine legible_of_token (fun bound _ c hc => ?_) trivial fun bound' _ h => ?_
  · cases bound with
    | none =>
      have hall : ['N', 'U', 'L', 'L'].all Char.isAlphanum = true := by decide
      exact List.all_eq_true.1 hall c hc
    | some n => simp [Char.isAlphanum, isDigit_of_mem_repr hc]
  · cases bound with
    | none =>
      cases bound' with
      | none => rfl
      | some n => exact absurd h.symm (hnone n)
    | some n =>
      cases bound' with
      | none => exact absurd h (hnone n)
      | some n' => rw [UInt64.toNat_inj.1 (repr_injective h)]

theorem legible_keyword (d : Direction) :
    Legible (fun d => d.keyword.toList) (fun _ => True) (fun _ => True) d := by
  intro d' r s _ _ _ heq
  cases d <;> cases d'
  · exact ⟨rfl, List.append_cancel_left heq⟩
  · cases heq
  · cases heq
  · exact ⟨rfl, List.append_cancel_left heq⟩

end Operator

/-! ## Aggregates and attributes -/

namespace Aggregation

/-- The function that is applied. -/
def function : Aggregation → AggregateKind
  | all kind => kind
  | column kind _ => kind
  | verbatim _ => .count

/-- What it is applied to. -/
def argument : Aggregation → List Char
  | column _ position => (Nat.repr position).toList
  | _ => ['A', 'L', 'L']

theorem toList_text {a : Aggregation} (h : a.explicit = true) :
    a.text.toList = a.function.name.toList ++ '(' :: (a.argument ++ [')']) := by
  cases a with
  | verbatim text => cases h
  | _ => simp [text, text.aggregateCall, function, argument]

theorem isAlphanum_of_mem_argument {a : Aggregation} {c : Char} (h : c ∈ a.argument) :
    c.isAlphanum = true := by
  have hall : ['A', 'L', 'L'].all Char.isAlphanum = true := by decide
  cases a with
  | column kind position => simp [Char.isAlphanum, isDigit_of_mem_repr h]
  | _ => exact List.all_eq_true.1 hall c h

theorem all_ne_repr (n : Nat) : ['A', 'L', 'L'] ≠ (Nat.repr n).toList := by
  intro h
  have hmem : 'A' ∈ (Nat.repr n).toList := by
    rw [← h]
    exact List.mem_cons_self
  cases isDigit_of_mem_repr hmem

theorem legible {a : Aggregation} (h : a.explicit = true) :
    Legible (fun a => a.text.toList) (fun a => a.explicit = true) (fun _ => True) a := by
  intro b r s hb _ _ heq
  have hname : ∀ k : AggregateKind, ∀ c ∈ k.name.toList, (c != '(') = true := by
    intro k
    exact List.all_eq_true.1 (by cases k <;> decide)
  have hopen : ∀ t : List Char, Stops (· != '(') ('(' :: t) := fun _ => rfl
  have hclose : ∀ t : List Char, Stops Char.isAlphanum (')' :: t) := fun _ => rfl
  simp only [toList_text h, toList_text hb, List.append_assoc, List.cons_append] at heq
  obtain ⟨hfunction, htail⟩ := append_inj_of_stops (hname _) (hname _) (hopen _) (hopen _) heq
  obtain ⟨hargument, hrest⟩ := append_inj_of_stops (fun _ => isAlphanum_of_mem_argument)
    (fun _ => isAlphanum_of_mem_argument) (hclose _) (hclose _) (List.cons.inj htail).2
  refine ⟨?_, (List.cons.inj hrest).2⟩
  have hkind := aggregateName_injective hfunction
  cases a with
  | all kind =>
    cases b with
    | all kind' => exact congrArg all hkind
    | column kind' n => exact absurd hargument (all_ne_repr n)
    | verbatim text => cases hb
  | column kind n =>
    cases b with
    | all kind' => exact absurd hargument.symm (all_ne_repr n)
    | column kind' n' => exact congrArg₂ column hkind (repr_injective hargument)
    | verbatim text => cases hb
  | verbatim text => cases h

theorem exists_start {a : Aggregation} (h : a.explicit = true) :
    ∃ c t, a.text.toList = c :: t ∧ c.isUpper = true := by
  rw [toList_text h]
  cases a.function <;> exact ⟨_, _, rfl, rfl⟩

end Aggregation

namespace Operator

/-- A non-empty list does not look like the word for none: the names of functions are in capitals. -/
theorem legible_aggregates {aggregates : List Aggregation}
    (h : ∀ a ∈ aggregates, a.explicit = true) :
    Legible (fun aggregates => (aggregatesText aggregates).toList)
      (fun aggregates => ∀ a ∈ aggregates, a.explicit = true) AtBracket aggregates := by
  intro aggregates' r s h' hr hs heq
  have hnone : ∀ {a : Aggregation} {as : List Aggregation} {r s : List Char}, a.explicit = true →
      (aggregatesText []).toList ++ r ≠ (aggregatesText (a :: as)).toList ++ s := by
    intro a as r s ha heq
    obtain ⟨c, t, hc, hupper⟩ := Aggregation.exists_start ha
    simp only [aggregatesText, String.toList_intercalate, List.map_map, intercalate_map_cons,
      Function.comp_apply, hc] at heq
    cases (List.cons.inj heq).1
    cases hupper
  cases aggregates with
  | nil =>
    cases aggregates' with
    | nil => exact ⟨rfl, List.append_cancel_left heq⟩
    | cons b bs => exact absurd heq (hnone (h' b List.mem_cons_self))
  | cons a as =>
    cases aggregates' with
    | nil => exact absurd heq.symm (hnone (h a List.mem_cons_self))
    | cons b bs =>
      simp only [aggregatesText, String.toList_intercalate, List.map_map] at heq
      refine legible_intercalate (fun _ => trivial) (fun _ _ => trivial) ?_ ?_ h
        (fun a ha => Aggregation.legible (h a ha)) h' hr hs heq
      · rintro t ⟨u, hu⟩
        cases hu
      · rintro b hb t ⟨u, hu⟩
        obtain ⟨c, v, hc, hupper⟩ := Aggregation.exists_start hb
        rw [hc] at hu
        cases (List.cons.inj hu).1
        cases hupper

/-- An attribute with a blank in front. -/
theorem toList_attributeText (scope attr : String) :
    (attributeText scope attr).toList = scope.toList ++ ' ' :: (Expr.quoted attr).toList := by
  simp [attributeText]

theorem legible_attribute (scope : String) {attr : String} (h : QuoteFree attr) :
    Legible (fun attr => (attributeText scope attr).toList) QuoteFree (fun _ => True) attr := by
  intro attr' r s h' _ _ heq
  simp only [toList_attributeText, List.append_assoc, List.cons_append] at heq
  exact legible_quoted h h' trivial trivial (List.cons.inj (List.append_cancel_left heq)).2

/-- The attributes of a list, of which there is at least one. -/
theorem legible_attributes (scope : String) {attrs : List String} (hne : attrs ≠ [])
    (h : ∀ a ∈ attrs, QuoteFree a) :
    Legible
      (fun attrs => (",".intercalate (attrs.map fun a => " " ++ attributeText scope a)).toList)
      (fun attrs => attrs ≠ [] ∧ ∀ a ∈ attrs, QuoteFree a) AtBracket attrs := by
  intro attrs' r s h' hr hs heq
  have hitem : ∀ a, QuoteFree a → Legible (fun a => (" " ++ attributeText scope a).toList)
      QuoteFree (fun _ => True) a := by
    intro a ha a' r s ha' _ _ heq
    simp only [String.toList_append, List.append_assoc] at heq
    exact legible_attribute scope ha ha' trivial trivial (List.append_cancel_left heq)
  obtain ⟨a, as, rfl⟩ := List.exists_cons_of_ne_nil hne
  obtain ⟨b, bs, rfl⟩ := List.exists_cons_of_ne_nil h'.1
  simp only [String.toList_intercalate, List.map_map, intercalate_map_cons, List.append_assoc]
    at heq
  obtain ⟨rfl, htail⟩ := hitem a (h a List.mem_cons_self) (h'.2 b List.mem_cons_self) trivial
    trivial heq
  have hmore : ∀ t : List Char, ¬AtBracket (",".toList ++ t) := by
    rintro t ⟨u, hu⟩
    cases hu
  obtain ⟨rfl, rfl⟩ := legible_flatMap (fun _ => trivial) (fun _ _ => trivial) hmore
    (fun c hc => hitem c (h c (List.mem_cons_of_mem _ hc)))
    (fun c hc => h'.2 c (List.mem_cons_of_mem _ hc)) hr hs htail
  exact ⟨rfl, rfl⟩

end Operator

/-! ## Operators -/

/-- The words with which operators start. -/
inductive Keyword where
  | scan | scanAttribute | select | adjacent | explode | getAttributes | getType | join | product
  | extend | group | sort | project | slice
deriving DecidableEq

namespace Keyword

/-- The word. -/
def word : Keyword → String
  | scan => "GRAPH::SCAN"
  | scanAttribute => "GRAPH::SELECT"
  | select => "SELECT"
  | adjacent => "GRAPH::ADJACENT"
  | explode => "GRAPH::EXPLODE"
  | getAttributes => "GRAPH::GET"
  | getType => "GRAPH::GET_TYPE"
  | join => "JOIN"
  | product => "PRODUCT"
  | extend => "EXTEND"
  | group => "GROUP"
  | sort => "SORT"
  | project => "PROJECT"
  | slice => "SLICE"

/-- All of them. -/
def allKeywords : List Keyword :=
  [scan, scanAttribute, select, adjacent, explode, getAttributes, getType, join, product, extend,
    group, sort, project, slice]

theorem mem_allKeywords (k : Keyword) : k ∈ allKeywords := by
  cases k <;> decide

theorem word_injective {k l : Keyword} (h : k.word.toList = l.word.toList) : k = l := by
  have hall : ∀ k ∈ allKeywords, ∀ l ∈ allKeywords, k.word = l.word → k = l := by decide +kernel
  exact hall k k.mem_allKeywords l l.mem_allKeywords (String.toList_inj.1 h)

theorem ne_open_of_mem_word (k : Keyword) : ∀ c ∈ k.word.toList, (c != '(') = true := by
  have hall : ∀ k ∈ allKeywords, k.word.toList.all (· != '(') = true := by decide +kernel
  exact List.all_eq_true.1 (hall k k.mem_allKeywords)

theorem stops_blank_word (k : Keyword) (r : List Char) :
    Stops (· == ' ') (k.word.toList ++ '(' :: r) := by
  cases k <;> rfl

end Keyword

namespace Operator

/-- The word with which the operator starts. -/
def keyword : Operator → Keyword
  | scanNodes => .scan
  | scanLabel _ => .scan
  | scanAttribute .. => .scanAttribute
  | matchColumns _ => .select
  | select _ => .select
  | adjacent _ => .adjacent
  | explode .. => .explode
  | getAttributes .. => .getAttributes
  | getType _ => .getType
  | join .. => .join
  | product => .product
  | extend .. => .extend
  | group .. => .group
  | sort _ => .sort
  | project _ => .project
  | slice .. => .slice

/-- Whether a blank comes after the parenthesis. -/
def spaced : Operator → Bool
  | scanAttribute .. | select _ | getType _ | join .. | product | extend .. | group .. | slice .. =>
    true
  | _ => false

/-- The texts of the inputs. -/
def inputsText (first second : String) (op : Operator) : String :=
  match op.arity with
  | 0 => ""
  | 1 => first
  | _ => first ++ ", " ++ second

/-- The text after the inputs. -/
def arguments : Operator → String
  | scanNodes => "NODES)"
  | scanLabel label => Expr.quoted label ++ ")"
  | scanAttribute scope attr op value =>
    attributeText scope attr ++ " " ++ op.symbol ++ " " ++ value.text ++ " )"
  | matchColumns pairs => ", " ++ pairsText pairs ++ " )"
  | select predicate => ", " ++ predicate.text ++ " )"
  | adjacent edge => ", " ++ Nat.repr edge ++ ")"
  | explode start direction =>
    ", " ++ Nat.repr start ++ ", [ ALL " ++ direction.keyword ++
      " ], \x7b'neighbor'=true\x7d )"
  | getAttributes object scope attrs =>
    ", " ++ Nat.repr object ++ ", [" ++
      ",".intercalate (attrs.map fun attr => " " ++ attributeText scope attr) ++ " ])"
  | getType object => ", " ++ Nat.repr object ++ " )"
  | join predicate joinType =>
    ", " ++ predicate.text ++ ", \x7b'type'=" ++ Expr.quoted joinType ++ "\x7d )"
  | product => " )"
  | extend resultType value =>
    ", [ " ++ resultType ++ " ], [ " ++ resultType ++ "(" ++ value.text ++ ") ] )"
  | group columns aggregates =>
    ", " ++ positionsText columns ++ ", [ " ++ aggregatesText aggregates ++ " ])"
  | sort columns => ", " ++ positionsText columns ++ ")"
  | project columns => ", " ++ positionsText columns ++ ")"
  | slice offset limit => ", " ++ boundText offset ++ ", " ++ boundText limit ++ " )"

theorem text_eq (op : Operator) (first second : String) :
    op.text first second =
      op.keyword.word ++ (if op.spaced then "( " else "(") ++ op.inputsText first second ++
        op.arguments := by
  unfold text arguments
  cases op <;> simp [keyword, Keyword.word, spaced, inputsText, arity, String.append_assoc]

section Arguments

variable {r s : List Char}

theorem closes_end (t : List Char) : Scalar.Closes (" )".toList ++ t) :=
  trivial

theorem atBlank_end (t : List Char) : AtBlank (" )".toList ++ t) :=
  ⟨_, rfl⟩

theorem atParenthesis_end (t : List Char) : AtParenthesis (" )".toList ++ t) :=
  ⟨_, rfl⟩

theorem atBracket_end (t : List Char) : AtBracket (" ])".toList ++ t) :=
  ⟨_, rfl⟩

theorem scanNodes_ne_scanLabel (label : String) :
    scanNodes.arguments.toList ++ r ≠ (scanLabel label).arguments.toList ++ s := by
  intro heq
  unfold arguments at heq
  simp only [String.toList_append, toList_quoted, List.cons_append] at heq
  cases (List.cons.inj heq).1

theorem scanLabel_inj {label label' : String} (h : QuoteFree label) (h' : QuoteFree label')
    (heq : (scanLabel label).arguments.toList ++ r = (scanLabel label').arguments.toList ++ s) :
    label = label' ∧ r = s := by
  unfold arguments at heq
  simp only [String.toList_append, List.append_assoc] at heq
  obtain ⟨rfl, hrest⟩ := legible_quoted h h' trivial trivial heq
  exact ⟨rfl, List.append_cancel_left hrest⟩

theorem scanAttribute_inj {scope attr attr' : String} {op op' : Comparison}
    {value value' : ScanValue} (hattr : QuoteFree attr) (hattr' : QuoteFree attr')
    (hvalue : value.Readable) (hvalue' : value'.Readable)
    (heq : (scanAttribute scope attr op value).arguments.toList ++ r =
      (scanAttribute scope attr' op' value').arguments.toList ++ s) :
    attr = attr' ∧ op = op' ∧ value = value' ∧ r = s := by
  unfold arguments at heq
  simp only [String.toList_append, List.append_assoc] at heq
  obtain ⟨rfl, hop⟩ := legible_attribute scope hattr hattr' trivial trivial heq
  have hblank : ∀ t, Stops (· != ' ') (" ".toList ++ t) := fun _ => rfl
  obtain ⟨hsymbol, htail⟩ := legible_symbol (.compare op) trivial (b := .compare op') (hblank _)
    (hblank _) (List.append_cancel_left hop)
  cases hsymbol
  obtain ⟨rfl, hrest⟩ := ScanValue.legible hvalue hvalue' (atBlank_end _) (atBlank_end _)
    (List.append_cancel_left htail)
  exact ⟨rfl, rfl, rfl, List.append_cancel_left hrest⟩

theorem matchColumns_inj {pairs pairs' : List (Nat × Nat)}
    (heq : (matchColumns pairs).arguments.toList ++ r =
      (matchColumns pairs').arguments.toList ++ s) : pairs = pairs' ∧ r = s := by
  unfold arguments at heq
  simp only [String.toList_append, List.append_assoc] at heq
  obtain ⟨rfl, hrest⟩ := legible_pairs pairs trivial (atParenthesis_end _) (atParenthesis_end _)
    (List.append_cancel_left heq)
  exact ⟨rfl, List.append_cancel_left hrest⟩

theorem select_inj {t t' : Scalar} (h : t.Readable) (h' : t'.Readable)
    (heq : (select t).arguments.toList ++ r = (select t').arguments.toList ++ s) :
    t = t' ∧ r = s := by
  unfold arguments at heq
  simp only [String.toList_append, List.append_assoc] at heq
  obtain ⟨rfl, hrest⟩ := t.isLegible h h' (closes_end _) (closes_end _)
    (List.append_cancel_left heq)
  exact ⟨rfl, List.append_cancel_left hrest⟩

theorem adjacent_inj {edge edge' : Nat}
    (heq : (adjacent edge).arguments.toList ++ r = (adjacent edge').arguments.toList ++ s) :
    edge = edge' ∧ r = s := by
  unfold arguments at heq
  simp only [String.toList_append, List.append_assoc] at heq
  have hclose : ∀ t, Stops Char.isDigit (")".toList ++ t) := fun _ => rfl
  obtain ⟨rfl, hrest⟩ := legible_repr edge trivial (hclose _) (hclose _)
    (List.append_cancel_left heq)
  exact ⟨rfl, List.append_cancel_left hrest⟩

theorem explode_inj {start start' : Nat} {direction direction' : Direction}
    (heq : (explode start direction).arguments.toList ++ r =
      (explode start' direction').arguments.toList ++ s) :
    start = start' ∧ direction = direction' ∧ r = s := by
  unfold arguments at heq
  simp only [String.toList_append, List.append_assoc] at heq
  have hcomma : ∀ t, Stops Char.isDigit (", [ ALL ".toList ++ t) := fun _ => rfl
  obtain ⟨rfl, htail⟩ := legible_repr start trivial (hcomma _) (hcomma _)
    (List.append_cancel_left heq)
  obtain ⟨rfl, hrest⟩ := legible_keyword direction trivial trivial trivial
    (List.append_cancel_left htail)
  exact ⟨rfl, rfl, List.append_cancel_left hrest⟩

theorem getAttributes_inj {object object' : Nat} {scope : String} {attrs attrs' : List String}
    (h : attrs ≠ [] ∧ ∀ a ∈ attrs, QuoteFree a) (h' : attrs' ≠ [] ∧ ∀ a ∈ attrs', QuoteFree a)
    (heq : (getAttributes object scope attrs).arguments.toList ++ r =
      (getAttributes object' scope attrs').arguments.toList ++ s) :
    object = object' ∧ attrs = attrs' ∧ r = s := by
  unfold arguments at heq
  simp only [String.toList_append, List.append_assoc] at heq
  have hcomma : ∀ t, Stops Char.isDigit (", [".toList ++ t) := fun _ => rfl
  obtain ⟨rfl, htail⟩ := legible_repr object trivial (hcomma _) (hcomma _)
    (List.append_cancel_left heq)
  obtain ⟨rfl, hrest⟩ := legible_attributes scope h.1 h.2 h' (atBracket_end _) (atBracket_end _)
    (List.append_cancel_left htail)
  exact ⟨rfl, rfl, List.append_cancel_left hrest⟩

theorem getType_inj {object object' : Nat}
    (heq : (getType object).arguments.toList ++ r = (getType object').arguments.toList ++ s) :
    object = object' ∧ r = s := by
  unfold arguments at heq
  simp only [String.toList_append, List.append_assoc] at heq
  obtain ⟨rfl, hrest⟩ := legible_repr object trivial (closes_end _).stops_digit
    (closes_end _).stops_digit (List.append_cancel_left heq)
  exact ⟨rfl, List.append_cancel_left hrest⟩

theorem join_inj {t t' : Scalar} {joinType : String} (h : t.Readable) (h' : t'.Readable)
    (heq : (join t joinType).arguments.toList ++ r = (join t' joinType).arguments.toList ++ s) :
    t = t' ∧ r = s := by
  unfold arguments at heq
  simp only [String.toList_append, List.append_assoc] at heq
  have hcomma : ∀ t, Scalar.Closes (", \x7b'type'=".toList ++ t) := fun _ => trivial
  obtain ⟨rfl, hrest⟩ := t.isLegible h h' (hcomma _) (hcomma _) (List.append_cancel_left heq)
  rw [← List.append_assoc, ← List.append_assoc, ← List.append_assoc, ← List.append_assoc] at hrest
  exact ⟨rfl, List.append_cancel_left hrest⟩

theorem extend_inj {t t' : Scalar} {resultType : String} (h : t.Readable) (h' : t'.Readable)
    (heq : (extend resultType t).arguments.toList ++ r =
      (extend resultType t').arguments.toList ++ s) : t = t' ∧ r = s := by
  unfold arguments at heq
  simp only [String.toList_append, List.append_assoc] at heq
  simp only [List.append_cancel_left_eq] at heq
  have hclose : ∀ t, Scalar.Closes (") ] )".toList ++ t) := fun _ => trivial
  obtain ⟨rfl, hrest⟩ := t.isLegible h h' (hclose _) (hclose _) heq
  exact ⟨rfl, List.append_cancel_left hrest⟩

theorem group_inj {columns columns' : List Nat} {aggregates aggregates' : List Aggregation}
    (h : ∀ a ∈ aggregates, a.explicit = true) (h' : ∀ a ∈ aggregates', a.explicit = true)
    (heq : (group columns aggregates).arguments.toList ++ r =
      (group columns' aggregates').arguments.toList ++ s) :
    columns = columns' ∧ aggregates = aggregates' ∧ r = s := by
  unfold arguments at heq
  simp only [String.toList_append, List.append_assoc] at heq
  obtain ⟨rfl, htail⟩ := legible_positions columns trivial trivial trivial
    (List.append_cancel_left heq)
  obtain ⟨rfl, hrest⟩ := legible_aggregates h h' (atBracket_end _) (atBracket_end _)
    (List.append_cancel_left htail)
  exact ⟨rfl, rfl, List.append_cancel_left hrest⟩

/-- Sorting and projecting have their columns as arguments. -/
theorem columns_inj {columns columns' : List Nat}
    (heq : (sort columns).arguments.toList ++ r = (sort columns').arguments.toList ++ s) :
    columns = columns' ∧ r = s := by
  unfold arguments at heq
  simp only [String.toList_append, List.append_assoc] at heq
  obtain ⟨rfl, hrest⟩ := legible_positions columns trivial trivial trivial
    (List.append_cancel_left heq)
  exact ⟨rfl, List.append_cancel_left hrest⟩

theorem slice_inj {offset limit offset' limit' : Option UInt64}
    (heq : (slice offset limit).arguments.toList ++ r =
      (slice offset' limit').arguments.toList ++ s) :
    offset = offset' ∧ limit = limit' ∧ r = s := by
  unfold arguments at heq
  simp only [String.toList_append, List.append_assoc] at heq
  have hcomma : ∀ t, Stops Char.isAlphanum (", ".toList ++ t) := fun _ => rfl
  obtain ⟨rfl, htail⟩ := legible_bound offset trivial (hcomma _) (hcomma _)
    (List.append_cancel_left heq)
  have hclose : ∀ t, Stops Char.isAlphanum (" )".toList ++ t) := fun _ => rfl
  obtain ⟨rfl, hrest⟩ := legible_bound limit trivial (hclose _) (hclose _)
    (List.append_cancel_left htail)
  exact ⟨rfl, rfl, List.append_cancel_left hrest⟩

end Arguments

/-- No quote in names, labels and strings, no decimal without digits, no text of a caller, and the
dialect words of the configuration. -/
def Readable (config : Config) : Operator → Prop
  | scanLabel label => QuoteFree label
  | scanAttribute scope attr _ value =>
    scope = config.attributeScope ∧ QuoteFree attr ∧ value.Readable
  | select predicate => predicate.Readable
  | getAttributes _ scope attrs =>
    scope = config.attributeScope ∧ attrs ≠ [] ∧ ∀ a ∈ attrs, QuoteFree a
  | join predicate joinType => predicate.Readable ∧ joinType = config.joinType
  | extend resultType value => resultType = config.extendResultType ∧ value.Readable
  | group _ aggregates => ∀ a ∈ aggregates, a.explicit = true
  | _ => True

/-- Among the operators that start alike, the arguments show which one it is. -/
theorem legible_arguments {config : Config} {op : Operator} (h : op.Readable config) :
    Legible (fun op => op.arguments.toList)
      (fun op' => op'.Readable config ∧ op'.keyword = op.keyword ∧ op'.spaced = op.spaced)
      (fun _ => True) op := by
  rintro op' r s ⟨h', hkeyword, hspaced⟩ _ _ heq
  -- two kinds of scan share a word and differ in a quote; two kinds of selection differ in the blank
  cases op with
  | scanNodes =>
    cases op' with
    | scanNodes => exact ⟨rfl, List.append_cancel_left heq⟩
    | scanLabel label => exact absurd heq (scanNodes_ne_scanLabel label)
    | _ => cases hkeyword
  | scanLabel label =>
    cases op' with
    | scanNodes => exact absurd heq.symm (scanNodes_ne_scanLabel label)
    | scanLabel label' =>
      obtain ⟨rfl, rfl⟩ := scanLabel_inj h h' heq
      exact ⟨rfl, rfl⟩
    | _ => cases hkeyword
  | scanAttribute scope attr op value =>
    cases op' with
    | scanAttribute scope' attr' op' value' =>
      obtain ⟨rfl, hattr, hvalue⟩ := h
      obtain ⟨rfl, hattr', hvalue'⟩ := h'
      obtain ⟨rfl, rfl, rfl, rfl⟩ := scanAttribute_inj hattr hattr' hvalue hvalue' heq
      exact ⟨rfl, rfl⟩
    | _ => cases hkeyword
  | matchColumns pairs =>
    cases op' with
    | matchColumns pairs' =>
      obtain ⟨rfl, rfl⟩ := matchColumns_inj heq
      exact ⟨rfl, rfl⟩
    | select predicate' => cases hspaced
    | _ => cases hkeyword
  | select predicate =>
    cases op' with
    | matchColumns pairs' => cases hspaced
    | select predicate' =>
      obtain ⟨rfl, rfl⟩ := select_inj h h' heq
      exact ⟨rfl, rfl⟩
    | _ => cases hkeyword
  | adjacent edge =>
    cases op' with
    | adjacent edge' =>
      obtain ⟨rfl, rfl⟩ := adjacent_inj heq
      exact ⟨rfl, rfl⟩
    | _ => cases hkeyword
  | explode start direction =>
    cases op' with
    | explode start' direction' =>
      obtain ⟨rfl, rfl, rfl⟩ := explode_inj heq
      exact ⟨rfl, rfl⟩
    | _ => cases hkeyword
  | getAttributes object scope attrs =>
    cases op' with
    | getAttributes object' scope' attrs' =>
      obtain ⟨rfl, hattrs⟩ := h
      obtain ⟨rfl, hattrs'⟩ := h'
      obtain ⟨rfl, rfl, rfl⟩ := getAttributes_inj hattrs hattrs' heq
      exact ⟨rfl, rfl⟩
    | _ => cases hkeyword
  | getType object =>
    cases op' with
    | getType object' =>
      obtain ⟨rfl, rfl⟩ := getType_inj heq
      exact ⟨rfl, rfl⟩
    | _ => cases hkeyword
  | join predicate joinType =>
    cases op' with
    | join predicate' joinType' =>
      obtain ⟨hp, rfl⟩ := h
      obtain ⟨hp', rfl⟩ := h'
      obtain ⟨rfl, rfl⟩ := join_inj hp hp' heq
      exact ⟨rfl, rfl⟩
    | _ => cases hkeyword
  | product =>
    cases op' with
    | product => exact ⟨rfl, List.append_cancel_left heq⟩
    | _ => cases hkeyword
  | extend resultType value =>
    cases op' with
    | extend resultType' value' =>
      obtain ⟨rfl, hvalue⟩ := h
      obtain ⟨rfl, hvalue'⟩ := h'
      obtain ⟨rfl, rfl⟩ := extend_inj hvalue hvalue' heq
      exact ⟨rfl, rfl⟩
    | _ => cases hkeyword
  | group columns aggregates =>
    cases op' with
    | group columns' aggregates' =>
      obtain ⟨rfl, rfl, rfl⟩ := group_inj h h' heq
      exact ⟨rfl, rfl⟩
    | _ => cases hkeyword
  | sort columns =>
    cases op' with
    | sort columns' =>
      obtain ⟨rfl, rfl⟩ := columns_inj heq
      exact ⟨rfl, rfl⟩
    | _ => cases hkeyword
  | project columns =>
    cases op' with
    | project columns' =>
      obtain ⟨rfl, rfl⟩ := columns_inj heq
      exact ⟨rfl, rfl⟩
    | _ => cases hkeyword
  | slice offset limit =>
    cases op' with
    | slice offset' limit' =>
      obtain ⟨rfl, rfl, rfl⟩ := slice_inj heq
      exact ⟨rfl, rfl⟩
    | _ => cases hkeyword

/-- The text up to the inputs. -/
def opening (op : Operator) : List Char :=
  op.keyword.word.toList ++ '(' :: if op.spaced then [' '] else []

theorem toList_text (op : Operator) (first second : String) :
    (op.text first second).toList =
      op.opening ++ ((op.inputsText first second).toList ++ op.arguments.toList) := by
  rw [text_eq]
  simp only [opening, String.toList_append, List.append_assoc, List.cons_append]
  split <;> rfl

theorem opening_append_inj {op op' : Operator} {r s : List Char}
    (h : op.opening ++ r = op'.opening ++ s) :
    op.keyword = op'.keyword ∧
      (if op.spaced then [' '] else []) ++ r = (if op'.spaced then [' '] else []) ++ s := by
  simp only [opening, List.append_assoc, List.cons_append] at h
  have hopen : ∀ t : List Char, Stops (· != '(') ('(' :: t) := fun _ => rfl
  obtain ⟨hword, htail⟩ := append_inj_of_stops (Keyword.ne_open_of_mem_word _)
    (Keyword.ne_open_of_mem_word _) (hopen _) (hopen _) h
  exact ⟨Keyword.word_injective hword, (List.cons.inj htail).2⟩

/-- The number of inputs depends on the word only. -/
theorem arity_eq {op op' : Operator} (h : op.keyword = op'.keyword) : op.arity = op'.arity := by
  have hkeyword : ∀ op : Operator, op.arity = match op.keyword with
      | .scan | .scanAttribute => 0
      | .join | .product => 2
      | _ => 1 := by
    intro op
    cases op <;> rfl
  rw [hkeyword op, hkeyword op', h]

/-- Without inputs, the blank depends on the word only. -/
theorem spaced_eq {op op' : Operator} (h : op.keyword = op'.keyword) (harity : op.arity = 0) :
    op.spaced = op'.spaced := by
  have hspaced : ∀ op : Operator, op.arity = 0 → op.spaced = decide (op.keyword = .scanAttribute) := by
    intro op hop
    cases op <;> cases hop <;> rfl
  rw [hspaced op harity, hspaced op' (arity_eq h ▸ harity), h]

end Operator

/-! ## Trees -/

/-- Trees of readable operators, each with as many inputs as it takes. -/
inductive PlanNode.Readable (config : Config) : PlanNode → Prop where
  | leaf {op : Operator} (hop : op.Readable config) (harity : op.arity = 0) :
      Readable config (.node op [])
  | wrap {op : Operator} {t : PlanNode} (hop : op.Readable config) (harity : op.arity = 1)
      (h : Readable config t) : Readable config (.node op [t])
  | combine {op : Operator} {t u : PlanNode} (hop : op.Readable config) (harity : op.arity = 2)
      (ht : Readable config t) (hu : Readable config u) : Readable config (.node op [t, u])

namespace PlanNode

variable {config : Config} {op : Operator} {t t' u : PlanNode} {r s : List Char}

/-- The characters of the text. -/
def chars (t : PlanNode) : List Char :=
  t.text.toList

theorem chars_leaf (h : op.arity = 0) : (node op []).chars = op.opening ++ op.arguments.toList := by
  show (op.text "" "").toList = _
  rw [Operator.toList_text, Operator.inputsText, h]
  rfl

theorem chars_wrap (h : op.arity = 1) :
    (node op [t]).chars = op.opening ++ (t.chars ++ op.arguments.toList) := by
  show (op.text t.text "").toList = _
  rw [Operator.toList_text, Operator.inputsText, h]
  rfl

theorem chars_combine (h : op.arity = 2) :
    (node op [t, u]).chars =
      op.opening ++ (t.chars ++ (", ".toList ++ (u.chars ++ op.arguments.toList))) := by
  show (op.text t.text u.text).toList = _
  rw [Operator.toList_text, Operator.inputsText, h]
  simp only [String.toList_append, List.append_assoc, chars]

theorem Readable.exists_chars (h : t.Readable config) :
    ∃ rest, t.chars = t.op.opening ++ rest := by
  cases h with
  | leaf _ harity => exact ⟨_, chars_leaf harity⟩
  | wrap _ harity _ => exact ⟨_, chars_wrap harity⟩
  | combine _ harity _ _ => exact ⟨_, chars_combine harity⟩

theorem Readable.stops_blank (h : t.Readable config) (r : List Char) :
    Stops (· == ' ') (t.chars ++ r) := by
  obtain ⟨rest, hrest⟩ := h.exists_chars
  rw [hrest, Operator.opening]
  simp only [List.append_assoc, List.cons_append]
  exact Keyword.stops_blank_word _ _

/-- Trees with the same text have as many inputs at their roots. -/
theorem Readable.arity_eq (h : t.Readable config) (h' : t'.Readable config)
    (heq : t.chars ++ r = t'.chars ++ s) : t.op.arity = t'.op.arity := by
  obtain ⟨rest, hrest⟩ := h.exists_chars
  obtain ⟨rest', hrest'⟩ := h'.exists_chars
  rw [hrest, hrest', List.append_assoc, List.append_assoc] at heq
  exact Operator.arity_eq (Operator.opening_append_inj heq).1

/-- A tree can be read off its text, whatever comes after. -/
theorem Readable.legible (h : t.Readable config) :
    Legible chars (Readable config) (fun _ => True) t := by
  -- anything may follow a tree, which is what lets the induction go on to a second input
  induction h with
  | @leaf op hop harity =>
    intro t' r s ht' _ _ heq
    have hsame := (Readable.leaf hop harity).arity_eq ht' heq
    cases ht' with
    | leaf hop' harity' =>
      simp only [chars_leaf harity, chars_leaf harity', List.append_assoc] at heq
      obtain ⟨hkeyword, htail⟩ := Operator.opening_append_inj heq
      -- there is no input whose first character would show where the blank belongs
      have hspaced := Operator.spaced_eq hkeyword harity
      rw [hspaced] at htail
      obtain ⟨rfl, rfl⟩ := Operator.legible_arguments hop ⟨hop', hkeyword.symm, hspaced.symm⟩
        trivial trivial (List.append_cancel_left htail)
      exact ⟨rfl, rfl⟩
    | wrap _ harity' _ => cases harity.symm.trans (hsame.trans harity')
    | combine _ harity' _ _ => cases harity.symm.trans (hsame.trans harity')
  | @wrap op t hop harity ht ih =>
    intro t' r s ht' _ _ heq
    have hsame := (Readable.wrap hop harity ht).arity_eq ht' heq
    cases ht' with
    | leaf _ harity' => cases harity.symm.trans (hsame.trans harity')
    | wrap hop' harity' ht' =>
      simp only [chars_wrap harity, chars_wrap harity', List.append_assoc] at heq
      obtain ⟨hkeyword, htail⟩ := Operator.opening_append_inj heq
      obtain ⟨hspaced, hinput⟩ := optional_append_inj (ht.stops_blank _) (ht'.stops_blank _) htail
      obtain ⟨rfl, harguments⟩ := ih ht' trivial trivial hinput
      obtain ⟨rfl, rfl⟩ := Operator.legible_arguments hop ⟨hop', hkeyword.symm, hspaced.symm⟩
        trivial trivial harguments
      exact ⟨rfl, rfl⟩
    | combine _ harity' _ _ => cases harity.symm.trans (hsame.trans harity')
  | @combine op t u hop harity ht hu iht ihu =>
    intro t' r s ht' _ _ heq
    have hsame := (Readable.combine hop harity ht hu).arity_eq ht' heq
    cases ht' with
    | leaf _ harity' => cases harity.symm.trans (hsame.trans harity')
    | wrap _ harity' _ => cases harity.symm.trans (hsame.trans harity')
    | combine hop' harity' ht' hu' =>
      simp only [chars_combine harity, chars_combine harity', List.append_assoc] at heq
      obtain ⟨hkeyword, htail⟩ := Operator.opening_append_inj heq
      obtain ⟨hspaced, hinput⟩ := optional_append_inj (ht.stops_blank _) (ht'.stops_blank _) htail
      obtain ⟨rfl, hsecond⟩ := iht ht' trivial trivial hinput
      obtain ⟨rfl, harguments⟩ := ihu hu' trivial trivial (List.append_cancel_left hsecond)
      obtain ⟨rfl, rfl⟩ := Operator.legible_arguments hop ⟨hop', hkeyword.symm, hspaced.symm⟩
        trivial trivial harguments
      exact ⟨rfl, rfl⟩

end PlanNode

/-! ## Plans of queries -/

/-- No quote in names, labels and strings, and no decimal without digits. -/
def Datum.Clean : Datum → Prop
  | .property name => QuoteFree name
  | d => d.Readable

instance : DecidablePred Datum.Clean := fun d =>
  match d with
  | .string value => inferInstanceAs (Decidable (QuoteFree value))
  | .label value => inferInstanceAs (Decidable (QuoteFree value))
  | .property name => inferInstanceAs (Decidable (QuoteFree name))
  | .decimal value => inferInstanceAs (Decidable (value.isFinite = true))

section Clean

variable {left right : Config} {R : Datum → Datum → Prop}

theorem Operator.Similar.readable (hR : ∀ d d', R d d' → d.Clean) {op op' : Operator}
    (h : op.Similar left right R op') : op.Readable left := by
  have hscalar : ∀ {t t' : Scalar}, Scalar.Similar R t t' → t.Readable := by
    refine fun ht => ht.readable fun d d' hd => ?_
    have hclean := hR d d' hd
    cases d with
    | property name => trivial
    | _ => exact hclean
  cases h with
  | scanLabel h => exact hR _ _ h
  | scanAttribute op hattr h =>
    refine ⟨rfl, hR _ _ hattr, ?_⟩
    cases h with
    | str h => exact hR _ _ h
    | decimal h => exact hR _ _ h
    | int | bool => trivial
  | select h => exact hscalar h
  | getAttributes object hne h => exact ⟨rfl, hne, fun a ha => hR _ _ (h a ha)⟩
  | join h => exact ⟨hscalar h, rfl⟩
  | extend h => exact ⟨rfl, hscalar h⟩
  | group columns h => exact h
  | _ => trivial

theorem PlanNode.Similar.readable (hR : ∀ d d', R d d' → d.Clean) {t t' : PlanNode}
    (h : t.Similar left right R t') : t.Readable left := by
  induction h with
  | leaf hop harity => exact .leaf (hop.readable hR) harity
  | wrap hop harity _ ih => exact .wrap (hop.readable hR) harity ih
  | combine hop harity _ _ iht ihu => exact .combine (hop.readable hR) harity iht ihu

end Clean

/-- The data of a plan are those of its query. -/
theorem Query.readable_plan {config : Config} {q : Query} {p : Plan} (hq : ∀ d ∈ q.data, d.Clean)
    (h : q.plan config = .ok p) : p.root.Readable config := by
  have hself : q.Similar (fun d _ => d.Clean) q := Query.Similar.refl q hq
  obtain ⟨p', -, hp⟩ := (q.related_plan config config hself).exists_ok h
  exact hp.root.readable fun _ _ => id

/-- Two plans of one configuration with the same text are the same tree. -/
theorem Query.plan_text_identifies {config : Config} {q q' : Query} {p p' : Plan}
    (hq : ∀ d ∈ q.data, d.Clean) (hq' : ∀ d ∈ q'.data, d.Clean) (hp : q.plan config = .ok p)
    (hp' : q'.plan config = .ok p') (htext : p.text = p'.text) : p.root = p'.root := by
  have hlegible := (Query.readable_plan hq hp).legible
  exact hlegible.eq (Query.readable_plan hq' hp') trivial (congrArg String.toList htext)

/-- A pattern with other names for its variables, and a string that looks like a piece of a plan. -/
theorem Query.plan_text_identifies_of_renamed_variables :
    let query := fun x y e : String => { Query.empty with
      connections := [⟨⟨x, false⟩, ⟨y, false⟩, ⟨e, false⟩⟩]
      constraints := [.hasLabel x "City",
        .binary (.compare .eq) (.prop y "name") (.str "%0 ), [ 1 ])")]
      projection := [⟨.aggregate .sum (.prop e "cost"), none⟩]
      limit := some 3 }
    ∃ p p', (query "a" "b" "r").plan Config.default = .ok p ∧
      (query "u" "v" "w").plan Config.default = .ok p' ∧ p.text = p'.text ∧ p.root = p'.root := by
  intro query
  have hclean : ∀ x y e, ∀ d ∈ (query x y e).data, d.Clean := by
    intro x y e
    show ∀ d ∈ [Datum.label "City", .property "name", .string "%0 ), [ 1 ])", .property "cost"],
      d.Clean
    decide
  obtain ⟨p, p', hp, hp', htext⟩ : ∃ p p', (query "a" "b" "r").plan Config.default = .ok p ∧
      (query "u" "v" "w").plan Config.default = .ok p' ∧ p.text = p'.text := ⟨_, _, rfl, rfl, rfl⟩
  exact ⟨p, p', hp, hp', htext,
    plan_text_identifies (hclean "a" "b" "r") (hclean "u" "v" "w") hp hp' htext⟩

end GraphPlan
