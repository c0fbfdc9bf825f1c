import GraphPlan.Decimal.Binary64

/-!
# Decimals to two places

Predicates of the algebra write a decimal with one or two digits after the point. `Hundredths` is
what such a text can say: a sign and a whole number of hundredths. A double becomes the nearest
number of hundredths, computed from its exact value, with ties to even.
-/

namespace GraphPlan

/-- A decimal with two places, or one of the values that have no digits. -/
inductive Hundredths where
  /-- A sign, kept also for zero, and a count of hundredths. -/
  | finite (negative : Bool) (count : Nat)
  /-- An infinity. -/
  | infinite (negative : Bool)
  /-- No number. -/
  | nan
deriving DecidableEq, Inhabited

/-- The nearest number of hundredths. -/
def Binary64.toHundredths (v : Binary64) : Hundredths :=
  if v.isFinite then
    .finite v.negative (roundHalfEven (100 * v.numerator) v.denominator)
  else if v.isNaN then
    .nan
  else
    .infinite v.negative

namespace Hundredths

/-- The text with two places: sign, whole part, point, both digits after it. -/
def twoPlaces : Hundredths → String
  | finite negative n =>
    (if negative then "-" else "") ++ Nat.repr (n / 100) ++ "." ++ Nat.repr (n % 100 / 10) ++
      Nat.repr (n % 10)
  | infinite negative => if negative then "-inf" else "inf"
  | nan => "NaN"

/-- Drops a zero at the end, one only. -/
def dropZero (text : String) : String :=
  if text.toList.getLast? = some '0' then String.ofList text.toList.dropLast else text

/-- The text of a decimal: two places, of which the second is dropped when it is zero. -/
def text (h : Hundredths) : String :=
  dropZero h.twoPlaces

end Hundredths

end GraphPlan
