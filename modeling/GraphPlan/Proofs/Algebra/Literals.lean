import GraphPlan.Algebra.Operator
import GraphPlan.Proofs.Decimal.TwoPlaces
import GraphPlan.Proofs.Json.Spelling

/-!
# What literals stand for

A literal has one text in a scan and another one in a predicate. `ReadValue.read?` says what a text
stands for, whichever of the two it is: words are read in both spellings, and a number is a decimal
if it has a point, an exponent or the mark of the scans. A decimal is kept as it is written, so that
reading does not round. `ScanValue.denotedBy_texts` compares the two texts of every literal.
-/

namespace GraphPlan

open Text

/-- What a literal of the algebra stands for. -/
inductive ReadValue where
  /-- A string. -/
  | str (value : String)
  /-- An integer. -/
  | int (value : Int)
  /-- A decimal, digit by digit. -/
  | decimal (value : Numeral)
  /-- A truth value. -/
  | bool (value : Bool)
deriving DecidableEq

namespace ReadValue

/-- The number that a text stands for. -/
def readNumber? (text : List Char) : Option ReadValue :=
  (Json.parseNumber text).bind fun (n, rest) =>
    if rest = ['F'] then
      some (.decimal n)
    else if rest = [] then
      some (n.toInt?.elim (.decimal n) .int)
    else
      none

/-- What a text stands for. A string goes from the quote in front to the one at the end. -/
def read? (text : List Char) : Option ReadValue :=
  if text.head? = some '\'' then
    if text.tail.getLast? = some '\'' then
      some (.str (String.ofList text.tail.dropLast))
    else
      none
  else if text = "TRUE".toList ∨ text = "True".toList then
    some (.bool true)
  else if text = "FALSE".toList ∨ text = "False".toList then
    some (.bool false)
  else
    readNumber? text

theorem read?_quoted (s : String) : read? (Expr.quoted s).toList = some (.str s) := by
  have hlast : (s.toList ++ ['\'']).getLast? = some '\'' := List.getLast?_concat
  rw [toList_quoted, read?, List.head?_cons, if_pos rfl, List.tail_cons, if_pos hlast,
    List.dropLast_concat, String.ofList_toList]

/-- What starts as a number is read as one. -/
theorem read?_of_head {c : Char} {cs : List Char} (hc : c = '-' ∨ c.isDigit = true) :
    read? (c :: cs) = readNumber? (c :: cs) := by
  have hquote : (c :: cs).head? ≠ some '\'' := by
    intro h
    exact Json.ne_of_head hc (by decide) (by decide) (Option.some.inj h)
  have hword : ∀ (d : Char) (ds : List Char), d.isDigit = false → d ≠ '-' → c :: cs ≠ d :: ds := by
    intro d ds hd hminus h
    exact Json.ne_of_head hc hd hminus (List.cons.inj h).1
  have htrue : ¬ (c :: cs = "TRUE".toList ∨ c :: cs = "True".toList) := by
    rintro (h | h)
    · exact hword 'T' _ (by decide) (by decide) h
    · exact hword 'T' _ (by decide) (by decide) h
  have hfalse : ¬ (c :: cs = "FALSE".toList ∨ c :: cs = "False".toList) := by
    rintro (h | h)
    · exact hword 'F' _ (by decide) (by decide) h
    · exact hword 'F' _ (by decide) (by decide) h
  rw [read?, if_neg hquote, if_neg htrue, if_neg hfalse]

section Numerals

variable {n : Numeral} (plus : Bool) (hwell : n.WellFormed) (hlead : n.NoLeadingZero)

include hwell hlead

theorem read?_numeral :
    read? (n.text plus).toList = some (n.toInt?.elim (.decimal n) .int) := by
  have hparse : Json.parseNumber (n.text plus).toList = some (n, []) := by
    rw [← List.append_nil (n.text plus).toList]
    exact Json.parseNumber_append plus hwell hlead trivial
  obtain ⟨c, cs, htext, hc⟩ := Json.exists_head_text plus hwell
  rw [htext] at hparse ⊢
  rw [read?_of_head hc, readNumber?, hparse]
  rfl

theorem read?_marked : read? ((n.text plus).toList ++ ['F']) = some (.decimal n) := by
  have hstop : Stops Json.continuesNumber ['F'] := rfl
  have hparse := Json.parseNumber_append plus hwell hlead hstop
  obtain ⟨c, cs, htext, hc⟩ := Json.exists_head_text plus hwell
  rw [htext, List.cons_append] at hparse ⊢
  rw [read?_of_head hc, readNumber?, hparse]
  rfl

end Numerals

theorem read?_intText (i : Int) : read? (intText i).toList = some (.int i) := by
  have htext : (intText i).toList = ((Numeral.ofInt i).text false).toList := by
    have hdigits : (Nat.repr i.natAbs).toList = natDigits i.natAbs := Nat.toList_repr
    rw [toList_intText, Numeral.toList_text, hdigits]
    show _ = (if decide (i < 0) then ['-'] else []) ++ (natDigits i.natAbs ++ ([] ++ []))
    rw [List.append_nil, List.append_nil]
  rw [htext, read?_numeral false (Numeral.wellFormed_ofInt i) (Numeral.noLeadingZero_ofInt i),
    Numeral.toInt?_ofInt]
  rfl

end ReadValue

/-! ## Decimals -/

theorem Numeral.noLeadingZero_ofHundredths (negative : Bool) (count : Nat) :
    (ofHundredths negative count).NoLeadingZero := by
  by_cases h : count / 100 = 0
  · intro digits hdigits
    have hwhole : natDigits (count / 100) = '0' :: digits := hdigits
    rw [h] at hwhole
    exact (List.cons.inj hwhole).2.symm
  · exact noLeadingZero_of_head? (head?_natDigits h)

/-- A number of hundredths has a point, so it is no integer. -/
theorem Numeral.toInt?_ofHundredths (negative : Bool) (count : Nat) :
    (ofHundredths negative count).toInt? = none := by
  have hpoint : (Hundredths.fractionText count).toList.isEmpty = false := by
    rw [Hundredths.toList_fractionText, toList_repr_digit (by omega)]
    rfl
  unfold toInt? ofHundredths
  dsimp only
  rw [hpoint]
  rfl

/-- A finite double that is written to two places is read as its number of hundredths. -/
theorem ReadValue.read?_text_toHundredths {v : Binary64} (hfinite : v.isFinite = true) :
    read? v.toHundredths.text.toList =
      some (.decimal (Numeral.ofHundredths v.negative v.hundredths)) := by
  have hwell := Numeral.wellFormed_ofHundredths v.negative v.hundredths
  have hlead := Numeral.noLeadingZero_ofHundredths v.negative v.hundredths
  rw [Binary64.toHundredths_of_isFinite hfinite, Numeral.toList_text_finite_eq,
    read?_numeral false hwell hlead, Numeral.toInt?_ofHundredths]
  rfl

/-- What two numerals for a double have to do with it, if the first is exact enough to be read back
and the second has two places only. -/
structure Binary64.WrittenAs (v : Binary64) (scan predicate : Numeral) : Prop where
  /-- The first is read as the double. -/
  scan_reads : scan.toBinary64? = some v
  /-- The second stands for a whole number of hundredths, -/
  exists_hundredths : ∃ k : Int, predicate.value = k / 100
  /-- which is a nearest one. -/
  abs_sub_le : |predicate.value - v.value| ≤ 1 / 200
  /-- It stands for the double itself if that is a whole number of hundredths, -/
  value_eq_iff : predicate.value = v.value ↔ ∃ k : Int, v.value = k / 100
  /-- and it is read as the double if any number of hundredths is. -/
  predicate_reads_iff : predicate.toBinary64? = some v ↔
    ∃ count, ofDecimal v.negative count (-2) = some v

namespace Binary64

variable {v : Binary64}

theorem abs_value (v : Binary64) : |v.value| = v.magnitude := by
  have hnonneg : 0 ≤ v.magnitude := by
    unfold magnitude
    positivity
  unfold value
  split
  · rw [abs_neg, abs_of_nonneg hnonneg]
  · exact abs_of_nonneg hnonneg

theorem abs_value_ofHundredths_sub_le (v : Binary64) :
    |(Numeral.ofHundredths v.negative v.hundredths).value - v.value| ≤ 1 / 200 := by
  have hclose := abs_hundredths_sub_le v
  rw [Numeral.value_ofHundredths, value]
  cases v.negative with
  | true =>
    rw [if_pos rfl, if_pos rfl, neg_sub_neg, abs_sub_comm]
    exact hclose
  | false =>
    rw [if_neg (by decide), if_neg (by decide)]
    exact hclose

/-- A whole number of hundredths is its own nearest one. -/
theorem value_ofHundredths_of_eq {k : Int} (h : v.value = k / 100) :
    (Numeral.ofHundredths v.negative v.hundredths).value = v.value := by
  have hcount : 100 * v.magnitude = (k.natAbs : ℚ) := by
    rw [← abs_value, h, abs_div, abs_of_pos (by norm_num : (0 : ℚ) < 100), Nat.cast_natAbs]
    push_cast
    ring
  have hmagnitude : (v.hundredths : ℚ) / 100 = v.magnitude := by
    rw [hundredths_eq hcount, ← hcount]
    ring
  rw [Numeral.value_ofHundredths, hmagnitude, value]

theorem exists_hundredths_value (negative : Bool) (count : Nat) :
    ∃ k : Int, (Numeral.ofHundredths negative count).value = k / 100 := by
  rw [Numeral.value_ofHundredths]
  cases negative with
  | true =>
    refine ⟨-count, ?_⟩
    rw [if_pos rfl]
    push_cast
    ring
  | false => exact ⟨count, by rw [if_neg (by decide)]; push_cast; rfl⟩

theorem writtenAs_ofHundredths (l : Layout) (hfinite : v.isFinite = true) :
    v.WrittenAs (l.numeral v) (Numeral.ofHundredths v.negative v.hundredths) where
  scan_reads := Layout.toBinary64?_numeral l hfinite
  exists_hundredths := exists_hundredths_value v.negative v.hundredths
  abs_sub_le := abs_value_ofHundredths_sub_le v
  value_eq_iff := by
    constructor
    · intro h
      rw [← h]
      exact exists_hundredths_value v.negative v.hundredths
    · rintro ⟨k, hk⟩
      exact value_ofHundredths_of_eq hk
  predicate_reads_iff := by
    rw [Numeral.toBinary64?_ofHundredths]
    exact ofDecimal_hundredths_iff hfinite

end Binary64

/-! ## The two texts of a literal -/

namespace ScanValue

/-- The literal as it stands in a predicate. -/
def scalar : ScanValue → Scalar
  | str value => .str value
  | int value => .int value
  | decimal value => .decimal value.toHundredths
  | bool value => .bool value

/-- The two texts stand for the value. A finite decimal is read back from the first and written to
two places in the second. -/
def DenotedBy (scan predicate : List Char) : ScanValue → Prop
  | str value =>
    ReadValue.read? scan = some (.str value) ∧ ReadValue.read? predicate = some (.str value)
  | int value =>
    ReadValue.read? scan = some (.int value.toInt) ∧ ReadValue.read? predicate = some (.int value.toInt)
  | decimal value =>
    value.isFinite = true → ∃ m n, ReadValue.read? scan = some (.decimal m) ∧
      ReadValue.read? predicate = some (.decimal n) ∧ value.WrittenAs m n
  | bool value =>
    ReadValue.read? scan = some (.bool value) ∧ ReadValue.read? predicate = some (.bool value)

theorem denotedBy_texts (value : ScanValue) :
    value.DenotedBy value.text.toList value.scalar.text.toList := by
  cases value with
  | str value => exact ⟨ReadValue.read?_quoted value, ReadValue.read?_quoted value⟩
  | int value => exact ⟨ReadValue.read?_intText value.toInt, ReadValue.read?_intText value.toInt⟩
  | bool value => cases value <;> exact ⟨rfl, rfl⟩
  | decimal v =>
    intro hfinite
    refine ⟨_, _, ?_, ?_, v.writtenAs_ofHundredths .expression hfinite⟩
    · have hwell := Layout.wellFormed_numeral .expression v
      have hlead := Layout.noLeadingZero_numeral .expression hfinite
      rw [text, String.toList_append, Layout.text_of_isFinite hfinite]
      exact ReadValue.read?_marked false hwell hlead
    · rw [scalar, Scalar.text]
      exact ReadValue.read?_text_toHundredths hfinite

end ScanValue

end GraphPlan
