import GraphPlan.Config.Toml
import GraphPlan.Regex.Parser

/-!
# Log filters

A log filter is a list of directives, divided by commas. A directive names a target, a span between
brackets and a field of the span between braces, each of them optional, followed by an equals sign
and a level or nothing. A field may have a value, which is a number or a regular expression.

Blanks around a directive are passed over when its parts are found. Fields and levels are then taken
at those byte offsets from the directive as it is written, blanks included.
-/

namespace GraphPlan.LogFilter

/-! ## Levels -/

/-- The names of levels; case makes no difference. -/
def levelNames : List String :=
  ["off", "error", "warn", "info", "debug", "trace"]

/-- The greatest number of a level. -/
def maxLevel : Nat := 5

/-- Whether a text is the number of a level. -/
def isLevelNumber (cs : List Char) : Bool :=
  let digits := match cs with
    | '+' :: rest => rest
    | _ => cs
  !digits.isEmpty && digits.all Char.isDigit && digitsValue digits ≤ maxLevel

/-- Whether a text is a level. Nothing counts as one. -/
def isLevel (cs : List Char) : Bool :=
  cs.isEmpty || isLevelNumber cs || levelNames.contains (String.ofList (cs.map Char.toLower))

/-! ## Fields -/

/-- A text without its sign. -/
def skipSign : List Char → List Char
  | '+' :: cs => cs
  | '-' :: cs => cs
  | cs => cs

/-- Whether a text is nothing or an exponent. -/
def isExponent : List Char → Bool
  | [] => true
  | c :: cs =>
    let digits := skipSign cs
    (c == 'e' || c == 'E') && !digits.isEmpty && digits.all Char.isDigit

/-- Whether a text is a number: digits with at most one point among them and an exponent, an
infinity, or something that is not a number by name. -/
def isNumber (cs : List Char) : Bool :=
  let cs := skipSign cs
  let (whole, rest) := cs.span Char.isDigit
  let (fraction, rest) := match rest with
    | '.' :: rest => rest.span Char.isDigit
    | _ => ([], rest)
  (!(whole.isEmpty && fraction.isEmpty) && isExponent rest) ||
    ["inf", "infinity", "nan"].contains (String.ofList (cs.map Char.toLower))

/-- Whether a text is a field: a name, and a value after an equals sign if there is one. What stands
after another equals sign is passed over. -/
def isField (cs : List Char) : Bool :=
  match cs.dropWhile (· ≠ '=') with
  | [] => !cs.isEmpty
  | _ :: rest =>
    let value := rest.takeWhile (· ≠ '=')
    isNumber value || Regex.isPattern value

/-! ## Directives -/

/-- The text from a byte offset on, which must not lie within a character. -/
def dropBytes? : Nat → List Char → Option (List Char)
  | 0, cs => some cs
  | _ + 1, [] => none
  | n + 1, c :: cs => if c.utf8Size ≤ n + 1 then dropBytes? (n + 1 - c.utf8Size) cs else none

/-- The text before a byte offset, which must not lie within a character. -/
def takeBytes? (n : Nat) (cs : List Char) : Option (List Char) :=
  (dropBytes? n cs).map fun rest => cs.take (cs.length - rest.length)

/-- How far a directive has been read. Offsets count bytes. -/
inductive Progress where
  /-- Nothing yet. -/
  | start
  /-- Within the target, or within a level that stands alone. -/
  | target
  /-- Within the name of the span. -/
  | span
  /-- Within a field that starts at an offset. -/
  | field (first : Nat)
  /-- After the field. -/
  | fieldEnd
  /-- After the span. -/
  | spanEnd
  /-- Within a level that starts at an offset. -/
  | level (first : Nat)
deriving DecidableEq

/-- Characters that a target can start with. -/
def startsTarget (c : Char) : Bool :=
  Text.isAlphanumeric c || c == '-' || c == ':' || c == '_'

/-- Whether the text between two offsets of a directive is a field. -/
def isFieldAt (directive : List Char) (first stop : Nat) : Bool :=
  (takeBytes? stop directive).any fun front => (dropBytes? first front).any isField

/-- Reads the character at an offset of a directive. -/
def Progress.step? (directive : List Char) (offset : Nat) (c : Char) : Progress → Option Progress
  | start =>
    if c = '[' then some span else if startsTarget c then some target else none
  | target =>
    if c = '=' then some (level (offset + 1)) else if c = '[' then some span else some target
  | span =>
    if c = ']' then some spanEnd
    else if c = '\x7b' then some (field (offset + 1))
    else some span
  | field first =>
    if c ≠ '\x7d' then some (field first)
    else if isFieldAt directive first offset then some fieldEnd
    else none
  | fieldEnd => if c = ']' then some spanEnd else none
  | spanEnd => if c = '=' then some (level (offset + 1)) else none
  | level first => some (level first)

/-- Reads the characters of a directive from an offset on. -/
def Progress.run? (directive : List Char) : Nat → List Char → Progress → Option Progress
  | _, [], p => some p
  | offset, c :: cs, p => do
    (← p.step? directive offset c).run? directive (offset + c.utf8Size) cs

/-- Whether a directive may end here. -/
def Progress.isComplete (directive : List Char) : Progress → Bool
  | target => true
  | spanEnd => true
  | level first => (dropBytes? first directive).any isLevel
  | _ => false

/-- Whether a directive is well-formed. -/
def isDirective (directive : List Char) : Bool :=
  (Progress.start.run? directive 0 (Text.trim directive)).any fun p => p.isComplete directive

/-- Whether a log filter is well-formed. Nothing between commas is passed over. -/
def isValid (filter : String) : Bool :=
  (filter.splitOn ",").all fun directive => directive.isEmpty || isDirective directive.toList

end GraphPlan.LogFilter

namespace GraphPlan.Config

/-- Sets up the filtering of log messages; `installed` says whether that has been done before.
Without a filter there is nothing to do. -/
def installLogging (installed : Bool) (c : Config) : Except ConfigError Unit :=
  match c.logFilter with
  | none => .ok ()
  | some filter =>
    if !LogFilter.isValid filter then .error .invalidFilter
    else if installed then .error .alreadyInstalled
    else .ok ()

end GraphPlan.Config
