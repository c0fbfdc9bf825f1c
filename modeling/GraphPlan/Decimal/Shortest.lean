import GraphPlan.Decimal.Binary64

/-!
# The fewest digits that read back

`Binary64.shortest` finds, for a finite value other than zero, a decimal with as few digits as
possible that rounds to the value. For one digit, two digits and so on up to seventeen it tries the
two neighbours of the value on the decimal grid of that many digits; the first grid with a neighbour
that reads back wins, and of two such neighbours the nearer. When both are equally near, the caller
says which one to take.
-/

namespace GraphPlan

/-- A positive decimal `digits * 10 ^ exponent`. -/
structure ShortDecimal where
  /-- The digits, read as one number. -/
  digits : Nat
  /-- The power of ten of the last digit. -/
  exponent : Int
deriving DecidableEq, Inhabited

/-- Which of two equally near decimals is taken. -/
inductive Tie where
  /-- The larger one. -/
  | up
  /-- The one whose last digit is even. -/
  | even
deriving DecidableEq

namespace ShortDecimal

/-- Drops zeros at the end of the digits, at most `fuel` of them. -/
def trimZeros : Nat → ShortDecimal → ShortDecimal
  | 0, d => d
  | fuel + 1, d =>
    if d.digits % 10 = 0 then trimZeros fuel ⟨d.digits / 10, d.exponent + 1⟩ else d

/-- The power of ten of the first digit. -/
def leadingExponent (d : ShortDecimal) : Int :=
  d.exponent + Binary64.decimalWidth d.digits - 1

end ShortDecimal

namespace Binary64

/-- The exponent of ten of the first digit of `num / den`, for positive `num` and `den`. -/
def floorLog10 (num den : Nat) : Int :=
  if den ≤ num then
    (decimalWidth (num / den) : Int) - 1
  else
    -(decimalWidth ((den + num - 1) / num - 1) : Int)

/-- Whether a decimal rounds to the magnitude of `v`. -/
def readsBack (v : Binary64) (d : ShortDecimal) : Bool :=
  ofDecimal v.negative d.digits d.exponent == some v

/-- The neighbour of `v` on the grid of multiples of `10 ^ e` that reads back and is nearest. -/
def nearestOnGrid? (tie : Tie) (v : Binary64) (e : Int) : Option ShortDecimal :=
  let num := v.numerator * Nat.pow 10 (-e).toNat
  let den := v.denominator * Nat.pow 10 e.toNat
  let below : ShortDecimal := ⟨num / den, e⟩
  let above : ShortDecimal := ⟨num / den + 1, e⟩
  let rest := 2 * (num % den)
  let preferBelow :=
    rest < den || (rest == den && (tie == Tie.even && below.digits % 2 == 0))
  match v.readsBack below, v.readsBack above with
  | true, true => some (if preferBelow then below else above)
  | true, false => some below
  | false, true => some above
  | false, false => none

/-- What is found on a grid reads back. -/
theorem readsBack_of_nearestOnGrid? {tie : Tie} {v : Binary64} {e : Int} {d : ShortDecimal}
    (h : nearestOnGrid? tie v e = some d) : v.readsBack d = true := by
  unfold nearestOnGrid? at h
  dsimp only at h
  split at h
  · next hb ha =>
    obtain rfl := Option.some.inj h
    split
    · exact hb
    · exact ha
  · next hb _ => exact Option.some.inj h ▸ hb
  · next _ ha => exact Option.some.inj h ▸ ha
  · cases h

/-- The value with all its digits: a fraction of a power of two is one of a power of ten. -/
def exactDecimal (v : Binary64) : ShortDecimal :=
  ⟨v.numerator * Nat.pow 5 (-v.exponent).toNat, -(-v.exponent).toNat⟩

/-- Tries grids of `17 - fuel + 1`, … digits below the leading exponent `top`, and in the end takes
all digits. -/
def shortestFrom (tie : Tie) (v : Binary64) (top : Int) : Nat → ShortDecimal
  | 0 => v.exactDecimal
  | fuel + 1 =>
    match nearestOnGrid? tie v (top - (16 - fuel : Nat)) with
    | some d => d
    | none => shortestFrom tie v top fuel

/-- A shortest decimal that reads back as the finite value `v` other than zero. -/
def shortest (tie : Tie) (v : Binary64) : ShortDecimal :=
  (shortestFrom tie v (floorLog10 v.numerator v.denominator) 17).trimZeros 17

end Binary64

end GraphPlan
