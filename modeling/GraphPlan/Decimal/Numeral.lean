import GraphPlan.Decimal.Shortest

/-!
# Numerals

A numeral is a number as it is written: sign, digits before and after the point, and an exponent.
Nothing is evaluated, so a numeral may be out of the range of every number type. `Layout` holds the
decisions a format makes when it writes a double; the digits themselves come from
`Binary64.shortest`.
-/

namespace GraphPlan

/-- A number as written. -/
structure Numeral where
  /-- Whether a minus sign stands in front. -/
  negative : Bool
  /-- The digits before the point. -/
  whole : List Char
  /-- The digits after the point; empty when there is no point. -/
  fraction : List Char
  /-- The exponent of ten, if one is written. -/
  exponent : Option Int
deriving DecidableEq, Inhabited

/-- The number that a list of decimal digits denotes. -/
def digitsValue (digits : List Char) : Nat :=
  digits.foldl (fun n c => 10 * n + (c.toNat - '0'.toNat)) 0

/-- The digits of a natural number. -/
def natDigits (n : Nat) : List Char :=
  Nat.toDigits 10 n

/-- A further digit multiplies the value by ten. -/
theorem digitsValue_append (digits : List Char) (c : Char) :
    digitsValue (digits ++ [c]) = 10 * digitsValue digits + (c.toNat - '0'.toNat) := by
  simp [digitsValue]

/-- The digits of a number denote the number. -/
theorem digitsValue_natDigits (n : Nat) : digitsValue (natDigits n) = n := by
  unfold natDigits
  induction n using Nat.strongRecOn with
  | ind n ih =>
    have digit : ∀ d < 10, (Nat.digitChar d).toNat - '0'.toNat = d := by decide
    have hlt : n % 10 < 10 := Nat.mod_lt n (by decide)
    by_cases h : n < 10
    · rw [Nat.toDigits_of_lt_base h]
      simpa [digitsValue] using digit n h
    · have split := Nat.toDigits_append_toDigits (b := 10) (n := n / 10) (d := n % 10) (by decide)
        (by omega) hlt
      rw [Nat.div_add_mod] at split
      rw [← split, Nat.toDigits_of_lt_base hlt, digitsValue_append, ih (n / 10) (by omega),
        digit _ hlt]
      omega

/-- The text of an integer. -/
def intText (i : Int) : String :=
  (if i < 0 then "-" else "") ++ Nat.repr i.natAbs

namespace Numeral

/-- The numeral of an integer. -/
def ofInt (i : Int) : Numeral :=
  ⟨decide (i < 0), natDigits i.natAbs, [], none⟩

/-- The integer that the numeral denotes. A numeral with a fraction or an exponent is no integer,
and neither is minus zero. -/
def toInt? (n : Numeral) : Option Int :=
  if n.fraction.isEmpty && n.exponent.isNone then
    let value := digitsValue n.whole
    if n.negative then
      if value = 0 then none else some (-value)
    else
      some value
  else
    none

/-- The numeral of an integer denotes the integer. -/
@[simp]
theorem toInt?_ofInt (i : Int) : (ofInt i).toInt? = some i := by
  unfold ofInt toInt?
  simp only [digitsValue_natDigits, List.isEmpty_nil, Option.isNone_none, Bool.and_self, if_true]
  by_cases h : i < 0
  · have value : -(i.natAbs : Int) = i := by omega
    rw [if_pos (decide_eq_true h), if_neg (by omega), value]
  · have value : (i.natAbs : Int) = i := by omega
    rw [if_neg (by simpa using h), value]

/-- The nearest double; `none` on overflow. -/
def toBinary64? (n : Numeral) : Option Binary64 :=
  Binary64.ofDecimal n.negative (digitsValue (n.whole ++ n.fraction))
    (n.exponent.getD 0 - n.fraction.length)

/-- The text of a numeral. With `plus`, an exponent that is not negative has a sign too. -/
def text (plus : Bool) (n : Numeral) : String :=
  (if n.negative then "-" else "") ++ String.ofList n.whole ++
    (if n.fraction.isEmpty then "" else "." ++ String.ofList n.fraction) ++
    match n.exponent with
    | none => ""
    | some e => "e" ++ (if plus && 0 ≤ e then "+" else "") ++ intText e

end Numeral

/-- How a format lays out a finite double. -/
structure Layout where
  /-- The least exponent of the first digit that is written without an exponent. -/
  lowest : Int
  /-- The largest such exponent. -/
  highest : Int
  /-- Whether exponents that are not negative have a sign. -/
  plus : Bool
  /-- Which of two equally near shortest decimals is taken. -/
  tie : Tie

namespace Layout

/-- The text of doubles in expressions: positional from `0.0001` up to sixteen digits before the
point, bare exponents, ties upward. -/
def expression : Layout := ⟨-4, 15, false, .up⟩

/-- The text of doubles in JSON: positional from `0.00001` up to sixteen digits before the point,
signed exponents, ties to even. -/
def json : Layout := ⟨-5, 15, true, .even⟩

/-- Digits of a decimal laid out around a point. -/
def positional (negative : Bool) (d : ShortDecimal) : Numeral :=
  let digits := natDigits d.digits
  if 0 ≤ d.exponent then
    ⟨negative, digits ++ List.replicate d.exponent.toNat '0', ['0'], none⟩
  else
    let places := (-d.exponent).toNat
    if places < digits.length then
      ⟨negative, digits.take (digits.length - places), digits.drop (digits.length - places), none⟩
    else
      ⟨negative, ['0'], List.replicate (places - digits.length) '0' ++ digits, none⟩

/-- Digits of a decimal with one digit before the point and an exponent. -/
def scientific (negative : Bool) (d : ShortDecimal) : Numeral :=
  let digits := natDigits d.digits
  ⟨negative, digits.take 1, digits.drop 1, some d.leadingExponent⟩

/-- The numeral of a finite double. -/
def numeral (l : Layout) (v : Binary64) : Numeral :=
  if v.significand = 0 then
    ⟨v.negative, ['0'], ['0'], none⟩
  else
    let d := v.shortest l.tie
    if l.lowest ≤ d.leadingExponent ∧ d.leadingExponent ≤ l.highest then
      positional v.negative d
    else
      scientific v.negative d

/-- The text of a double, infinities and NaN included. -/
def text (l : Layout) (v : Binary64) : String :=
  if v.isFinite then
    (l.numeral v).text l.plus
  else if v.isNaN then
    "NaN"
  else if v.negative then
    "-inf"
  else
    "inf"

end Layout

end GraphPlan
