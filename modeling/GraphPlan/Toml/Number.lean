import GraphPlan.Decimal.Numeral
import GraphPlan.Json.Basic
import GraphPlan.Toml.Basic

/-!
# TOML numbers, dates and times

The type of a value that starts with a digit or a sign follows from its spelling. Underscores may
stand between digits. Integers have 64 bits, no floating-point number is above the range of doubles,
and the parts of dates and times are in their usual ranges.
-/

namespace GraphPlan.Toml

/-- Digits with single underscores between them: the digits and what follows. The first argument
says whether a digit came right before. -/
def readDigits (isDigit : Char → Bool) : Bool → List Char → List Char × List Char
  | after, c :: d :: rest =>
    if isDigit c then
      let (digits, rest) := readDigits isDigit true (d :: rest)
      (c :: digits, rest)
    else if after && c == '_' && isDigit d then
      readDigits isDigit false (d :: rest)
    else
      ([], c :: d :: rest)
  | _, [c] => if isDigit c then ([c], []) else ([], [c])
  | _, [] => ([], [])

/-- Decimal digits with single underscores between them, at least one. -/
def readDecimal? (cs : List Char) : Option (List Char × List Char) :=
  match readDigits Char.isDigit false cs with
  | ([], _) => none
  | r => some r

/-- The sign of a number. -/
def readSign : List Char → Option Bool × List Char
  | '+' :: cs => (some false, cs)
  | '-' :: cs => (some true, cs)
  | cs => (none, cs)

/-- The digits of a number in base `2 ^ k`, which has to fit into 63 bits. -/
def readPower? (base : Nat) (cs : List Char) : Option (List Char) := do
  let isDigit (c : Char) : Bool := (Json.hexValue? c).any (· < base)
  match readDigits isDigit false cs with
  | ([], _) => none
  | (digits, rest) =>
    let value := digits.foldl (fun n c => base * n + (Json.hexValue? c).getD 0) 0
    if value < Nat.pow 2 63 then some rest else none

/-- Decimal digits without a superfluous zero in front. -/
def readWhole? (cs : List Char) : Option (List Char × List Char) :=
  match cs with
  | '0' :: rest => some (['0'], rest)
  | _ => readDecimal? cs

/-- The fraction of a floating-point number. -/
def readFraction? : List Char → Option (List Char × List Char)
  | '.' :: cs => readDecimal? cs
  | _ => none

/-- The exponent of a floating-point number. -/
def readExponent? : List Char → Option (Int × List Char)
  | 'e' :: cs | 'E' :: cs => do
    let (sign, cs) := readSign cs
    let (digits, rest) ← readDecimal? cs
    let value : Int := digitsValue digits
    return (if sign == some true then -value else value, rest)
  | _ => none

/-- A floating-point number with digits. One below the range of doubles counts as negative
infinity, one above it is refused. -/
def readFloat? (cs : List Char) : Option (List Char) := do
  let (sign, cs) := readSign cs
  let (whole, cs) ← readWhole? cs
  let (fraction, exponent, rest) ← match readFraction? cs with
    | some (fraction, cs) =>
      match readExponent? cs with
      | some (exponent, rest) => some (fraction, exponent, rest)
      | none => some (fraction, 0, cs)
    | none => (readExponent? cs).map fun (exponent, rest) => ([], exponent, rest)
  let magnitude :=
    Binary64.ofDecimal false (digitsValue (whole ++ fraction)) (exponent - fraction.length)
  if sign == some true || magnitude.isSome then return rest else none

/-- An infinity or a NaN. -/
def readSpecial? (cs : List Char) : Option (List Char) :=
  match (readSign cs).2 with
  | 'i' :: 'n' :: 'f' :: rest => some rest
  | 'n' :: 'a' :: 'n' :: rest => some rest
  | _ => none

/-- An integer. -/
def readInteger? (cs : List Char) : Option (List Char) :=
  match cs with
  | '0' :: 'x' :: rest => readPower? 16 rest
  | '0' :: 'o' :: rest => readPower? 8 rest
  | '0' :: 'b' :: rest => readPower? 2 rest
  | _ => do
    let (sign, cs) := readSign cs
    let (digits, rest) ← readWhole? cs
    let limit := if sign == some true then Nat.pow 2 63 else Nat.pow 2 63 - 1
    if digitsValue digits ≤ limit then return rest else none

/-- Exactly `n` decimal digits as a number. -/
def readExactly? (n : Nat) (cs : List Char) : Option (Nat × List Char) :=
  let digits := cs.take n
  if digits.length = n ∧ digits.all Char.isDigit then some (digitsValue digits, cs.drop n) else none

/-- The text after a given character. -/
def expect? (c : Char) : List Char → Option (List Char)
  | d :: rest => if c = d then some rest else none
  | [] => none

/-- Whether a year has a twenty-ninth of February. -/
def isLeapYear (year : Nat) : Bool :=
  (year % 4 == 0 && year % 100 != 0) || year % 400 == 0

/-- The number of days of a month. -/
def daysOfMonth (year month : Nat) : Nat :=
  if month = 2 then (if isLeapYear year then 29 else 28)
  else if month = 4 ∨ month = 6 ∨ month = 9 ∨ month = 11 then 30
  else 31

/-- A date. -/
def readDate? (cs : List Char) : Option (List Char) := do
  let (year, cs) ← readExactly? 4 cs
  let (month, cs) ← readExactly? 2 (← expect? '-' cs)
  let (day, cs) ← readExactly? 2 (← expect? '-' cs)
  if 1 ≤ month ∧ month ≤ 12 ∧ 1 ≤ day ∧ day ≤ daysOfMonth year month then return cs else none

/-- Parts of a second. -/
def readSecondFraction? (cs : List Char) : Option (List Char) :=
  match cs with
  | '.' :: rest =>
    let digits := rest.takeWhile Char.isDigit
    if digits.isEmpty then none else some (rest.drop digits.length)
  | _ => some cs

/-- A time of day. -/
def readTime? (cs : List Char) : Option (List Char) := do
  let (hour, cs) ← readExactly? 2 cs
  let (minute, cs) ← readExactly? 2 (← expect? ':' cs)
  let (second, cs) ← readExactly? 2 (← expect? ':' cs)
  if hour ≤ 23 ∧ minute ≤ 59 ∧ second ≤ 60 then readSecondFraction? cs else none

/-- A distance from universal time, if one stands here. -/
def readOffset? (cs : List Char) : Option (List Char) :=
  match cs with
  | 'Z' :: rest | 'z' :: rest => some rest
  | '+' :: rest | '-' :: rest => do
    let (hour, rest) ← readExactly? 2 rest
    let (minute, rest) ← readExactly? 2 (← expect? ':' rest)
    if hour ≤ 23 ∧ minute ≤ 59 then return rest else none
  | _ => some cs

/-- A date, a time, or a date and a time. A blank divides the two only if a digit follows it. -/
def readDatetime? (cs : List Char) : Option (List Char) :=
  if (readExactly? 2 cs).isSome && ((cs.drop 2).head? == some ':') then
    readTime? cs
  else do
    let rest ← readDate? cs
    match rest with
    | 'T' :: time | 't' :: time => readOffset? (← readTime? time)
    | ' ' :: d :: time => if d.isDigit then readOffset? (← readTime? (d :: time)) else some rest
    | _ => some rest

/-- Whether the text has the shape of a date or a time at its start. -/
def looksLikeDatetime (cs : List Char) : Bool :=
  ((readExactly? 4 cs).isSome && (cs.drop 4).head? == some '-') ||
    ((readExactly? 2 cs).isSome && (cs.drop 2).head? == some ':')

/-- A value that starts with a digit or a sign. -/
def readNumber? (cs : List Char) : Option (Value × List Char) :=
  if looksLikeDatetime cs then
    (readDatetime? cs).map fun rest => (.datetime, rest)
  else
    match (readFloat? cs).or (readSpecial? cs) with
    | some rest => some (.float, rest)
    | none => (readInteger? cs).map fun rest => (.integer, rest)

end GraphPlan.Toml
