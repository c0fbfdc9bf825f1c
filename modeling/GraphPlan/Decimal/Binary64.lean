/-!
# Doubles as bit patterns

A double is kept as its 64 bits, so that every value, the two zeros and the NaNs included, has one
representation and equality is decidable. A finite value has magnitude `significand * 2 ^ exponent`,
read here as an exact ratio of natural numbers; in the other direction `ofRatio` rounds a ratio to
the nearest double, ties to even.
-/

namespace GraphPlan

/-- An IEEE-754 double, given by its bits. -/
structure Binary64 where
  /-- Sign bit, eleven exponent bits, fifty-two fraction bits. -/
  bits : UInt64
deriving DecidableEq, Inhabited

/-- The quotient `n / d` rounded to the nearest natural number; a tie goes to the even one. -/
def roundHalfEven (n d : Nat) : Nat :=
  let q := n / d
  let r := n % d
  if 2 * r < d ∨ (2 * r = d ∧ q % 2 = 0) then q else q + 1

/-- The rounded quotient is at most half a unit too large. -/
theorem roundHalfEven_le {n d : Nat} (hd : 0 < d) : 2 * (d * roundHalfEven n d) ≤ 2 * n + d := by
  have h := Nat.div_add_mod n d
  have hr := Nat.mod_lt n hd
  unfold roundHalfEven
  dsimp only
  split
  · omega
  · rw [Nat.mul_add]
    omega

/-- The rounded quotient is at most half a unit too small. -/
theorem le_roundHalfEven {n d : Nat} (hd : 0 < d) : 2 * n ≤ 2 * (d * roundHalfEven n d) + d := by
  have h := Nat.div_add_mod n d
  have hr := Nat.mod_lt n hd
  unfold roundHalfEven
  dsimp only
  split
  · omega
  · rw [Nat.mul_add]
    omega

namespace Binary64

/-- Whether the sign bit is set. -/
def negative (v : Binary64) : Bool :=
  decide (Nat.pow 2 63 ≤ v.bits.toNat)

/-- The biased exponent. -/
def exponentField (v : Binary64) : Nat :=
  v.bits.toNat / Nat.pow 2 52 % Nat.pow 2 11

/-- The fraction bits. -/
def fractionField (v : Binary64) : Nat :=
  v.bits.toNat % Nat.pow 2 52

/-- Neither an infinity nor a NaN. -/
def isFinite (v : Binary64) : Bool :=
  v.exponentField != 2047

/-- An exponent field of ones with a fraction other than zero. -/
def isNaN (v : Binary64) : Bool :=
  v.exponentField == 2047 && v.fractionField != 0

/-- The integer significand of a finite value, the implicit leading one included. -/
def significand (v : Binary64) : Nat :=
  if v.exponentField = 0 then v.fractionField else Nat.pow 2 52 + v.fractionField

/-- The power of two that scales `significand`. -/
def exponent (v : Binary64) : Int :=
  (max v.exponentField 1 : Nat) - 1075

/-- Numerator of the magnitude of a finite value. -/
def numerator (v : Binary64) : Nat :=
  v.significand * Nat.pow 2 v.exponent.toNat

/-- Denominator of the magnitude of a finite value. -/
def denominator (v : Binary64) : Nat :=
  Nat.pow 2 (-v.exponent).toNat

/-- The double with the given sign and the given lower 63 bits. -/
def ofMagnitudeBits (negative : Bool) (magnitude : Nat) : Binary64 :=
  ⟨UInt64.ofNat (if negative then Nat.pow 2 63 + magnitude else magnitude)⟩

/-- Positive or negative zero. -/
def zero (negative : Bool) : Binary64 :=
  ofMagnitudeBits negative 0

/-- The lower 63 bits of positive infinity: magnitudes from here on are out of range. -/
def infinityBits : Nat :=
  2047 * Nat.pow 2 52

/-- The exponent of two of the largest power of two that is at most `num / den`, for positive
`num` and `den`. -/
def floorLog2 (num den : Nat) : Int :=
  let guess : Int := (num.log2 : Int) - den.log2
  if den * Nat.pow 2 guess.toNat ≤ num * Nat.pow 2 (-guess).toNat then guess else guess - 1

/-- The double nearest to `num / den` with the given sign, ties to even; `none` if the magnitude
rounds beyond the largest finite double. The rounded significand `m` at exponent `q` has lower bits
`(q + 1074) * 2 ^ 52 + m`, which is right for subnormal values too and carries into the exponent
when `m` reaches `2 ^ 53`. -/
def ofRatio (negative : Bool) (num den : Nat) : Option Binary64 :=
  if num = 0 then
    some (zero negative)
  else
    let q := max (floorLog2 num den - 52) (-1074)
    let m := roundHalfEven (num * Nat.pow 2 (-q).toNat) (den * Nat.pow 2 q.toNat)
    let magnitude := (q + 1074).toNat * Nat.pow 2 52 + m
    if magnitude < infinityBits then some (ofMagnitudeBits negative magnitude) else none

/-- The number of decimal digits of `n`; one for zero. -/
def decimalWidth (n : Nat) : Nat :=
  (Nat.toDigits 10 n).length

/-- The double nearest to `digits * 10 ^ exponent`; `none` on overflow. Exponents that put the value
far outside the range of doubles are answered without computing the power of ten. -/
def ofDecimal (negative : Bool) (digits : Nat) (exponent : Int) : Option Binary64 :=
  if digits = 0 then
    some (zero negative)
  else
    let top : Int := decimalWidth digits + exponent
    if top > 400 then
      none
    else if top < -400 then
      some (zero negative)
    else
      ofRatio negative (digits * Nat.pow 10 exponent.toNat) (Nat.pow 10 (-exponent).toNat)

end Binary64

end GraphPlan
