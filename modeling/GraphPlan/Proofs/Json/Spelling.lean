import GraphPlan.Json.Parser
import GraphPlan.Json.Printer
import GraphPlan.Proofs.Decimal.Texts

/-!
# Documents are read back from their text

A document is spelled by the rules if its numbers have no superfluous zero in front and its strings
hold the escapes that they need and no others. The compact text of such a document is read as the
document. Every parser is followed through what comes after its value: a number ends where neither a
digit nor a point nor an exponent follows, which is the case at the end of the text and before the
three characters that may follow a value.
-/

namespace GraphPlan

open Text

/-! ## Numerals in JSON -/

namespace Numeral

/-- A zero in front is the only digit before the point. -/
def NoLeadingZero (n : Numeral) : Prop :=
  ∀ digits, n.whole = '0' :: digits → digits = []

end Numeral

/-- Only zero is written with a zero in front. -/
theorem head?_natDigits {n : Nat} (h : n ≠ 0) : (natDigits n).head? ≠ some '0' := by
  induction n using Nat.strongRecOn with
  | ind n ih =>
    by_cases hlt : n < 10
    · have hdigit : ∀ d < 10, d ≠ 0 → Nat.digitChar d ≠ '0' := by decide
      rw [natDigits, Nat.toDigits_of_lt_base hlt]
      simpa using hdigit n hlt h
    · have hsplit : natDigits n = natDigits (n / 10) ++ [Nat.digitChar (n % 10)] :=
        Nat.toDigits_of_base_le (by omega) (by omega)
      rw [hsplit, List.head?_append_of_ne_nil _ (natDigits_ne_nil _)]
      exact ih (n / 10) (by omega) (by omega)

theorem Numeral.noLeadingZero_of_head? {n : Numeral} (h : n.whole.head? ≠ some '0') :
    n.NoLeadingZero := by
  intro digits hdigits
  rw [hdigits] at h
  exact absurd rfl h

theorem Numeral.noLeadingZero_ofInt (i : Int) : (ofInt i).NoLeadingZero := by
  by_cases h : i.natAbs = 0
  · intro digits hdigits
    rw [ofInt, h] at hdigits
    exact (List.cons.inj hdigits).2.symm
  · exact noLeadingZero_of_head? (head?_natDigits h)

theorem Numeral.wellFormed_ofInt (i : Int) : (ofInt i).WellFormed :=
  ⟨natDigits_ne_nil _, fun _ => isDigit_of_mem_natDigits, by simp [ofInt]⟩

namespace Layout

/-- The shortest decimal of a double other than zero is not zero. -/
theorem digits_shortest_ne_zero {v : Binary64} (hfinite : v.isFinite = true)
    (h : v.significand ≠ 0) (tie : Tie) : (v.shortest tie).digits ≠ 0 := by
  intro hdigits
  have hread := Binary64.ofDecimal_shortest hfinite h tie
  rw [hdigits, Binary64.ofDecimal, if_pos rfl] at hread
  have hzero := Option.some.inj hread
  apply h
  rw [← hzero]
  cases v.negative <;> rfl

theorem noLeadingZero_positional (negative : Bool) {d : ShortDecimal} (h : d.digits ≠ 0) :
    (positional negative d).NoLeadingZero := by
  have hhead := head?_natDigits h
  unfold positional
  dsimp only
  split
  · refine Numeral.noLeadingZero_of_head? ?_
    rwa [List.head?_append_of_ne_nil _ (natDigits_ne_nil _)]
  · split
    · next hplaces =>
      refine Numeral.noLeadingZero_of_head? ?_
      rwa [List.head?_take, if_neg (by omega)]
    · exact fun digits hdigits => (List.cons.inj hdigits).2.symm

theorem noLeadingZero_scientific (negative : Bool) (d : ShortDecimal) :
    (scientific negative d).NoLeadingZero := by
  intro digits hdigits
  have hlen := congrArg List.length hdigits
  simp only [scientific, List.length_take, List.length_cons] at hlen
  exact List.eq_nil_of_length_eq_zero (by omega)

theorem noLeadingZero_numeral (l : Layout) {v : Binary64} (hfinite : v.isFinite = true) :
    (l.numeral v).NoLeadingZero := by
  unfold numeral
  split
  · exact fun digits hdigits => (List.cons.inj hdigits).2.symm
  · next hzero =>
    dsimp only
    split
    · exact noLeadingZero_positional _ (digits_shortest_ne_zero hfinite hzero _)
    · exact noLeadingZero_scientific _ _

end Layout

namespace Json

/-! ## Numbers -/

/-- What may follow a value: nothing, a comma or a closing bracket. -/
def Delimited (rest : List Char) : Prop :=
  ∀ c ∈ rest.head?, c = ',' ∨ c = ']' ∨ c = '\x7d'

variable {rest : List Char}

theorem Delimited.stops {p : Char → Bool} (h : Delimited rest) (hp : p ',' = false ∧ p ']' = false ∧
    p '\x7d' = false) : Stops p rest := by
  cases rest with
  | nil => trivial
  | cons c rest =>
    rcases h c rfl with rfl | rfl | rfl
    · exact hp.1
    · exact hp.2.1
    · exact hp.2.2

theorem spanDigits_of_stops {digits : List Char} (hdigits : ∀ c ∈ digits, c.isDigit = true)
    (hrest : Stops Char.isDigit rest) : spanDigits (digits ++ rest) = (digits, rest) := by
  have htake : rest.takeWhile Char.isDigit = [] := by
    cases rest with
    | nil => rfl
    | cons c rest => exact List.takeWhile_cons_of_neg (by rw [stops_cons.1 hrest]; decide)
  have hdrop : rest.dropWhile Char.isDigit = rest := by
    cases rest with
    | nil => rfl
    | cons c rest => exact List.dropWhile_cons_of_neg (by rw [stops_cons.1 hrest]; decide)
  rw [spanDigits, List.span_eq_takeWhile_dropWhile, List.takeWhile_append_of_pos hdigits,
    List.dropWhile_append_of_pos hdigits, htake, hdrop, List.append_nil]

theorem parseFraction_append {fraction : List Char} (hdigits : ∀ c ∈ fraction, c.isDigit = true)
    (hrest : Stops (fun c => c.isDigit || c == '.') rest) :
    parseFraction (Numeral.fractionChars fraction ++ rest) = some (fraction, rest) := by
  cases fraction with
  | nil =>
    rw [Numeral.fractionChars, List.nil_append, parseFraction]
    rintro cs rfl
    cases hrest
  | cons c fraction =>
    have hspan := spanDigits_of_stops hdigits (hrest.mono fun c hc => by simp [hc])
    simp only [Numeral.fractionChars, List.cons_append, parseFraction]
    rw [← List.cons_append, hspan]
    rfl

theorem parseExponentDigits_append (negative : Bool) (n : Nat) (hrest : Stops Char.isDigit rest) :
    parseExponentDigits negative (natDigits n ++ rest) =
      some (some (if negative then -(n : Int) else n), rest) := by
  unfold parseExponentDigits
  rw [spanDigits_of_stops (fun c => isDigit_of_mem_natDigits) hrest]
  simp only [List.isEmpty_eq_false_iff.2 (natDigits_ne_nil n), digitsValue_natDigits]
  rfl

/-- The characters by which a number that has ended could go on. -/
def continuesNumber (c : Char) : Bool :=
  c.isDigit || c == '.' || c == 'e' || c == 'E'

theorem exponentChars_some (plus : Bool) (e : Int) :
    Numeral.exponentChars plus (some e) =
      'e' :: ((if e < 0 then ['-'] else if plus then ['+'] else []) ++ natDigits e.natAbs) := by
  have hdigits : (Nat.repr e.natAbs).toList = natDigits e.natAbs := Nat.toList_repr
  rw [Numeral.exponentChars, intText, String.toList_append, hdigits]
  by_cases h : e < 0
  · rw [if_pos h, if_pos h, if_neg (by simpa using fun _ => h)]
    rfl
  · rw [if_neg h, if_neg h]
    cases plus with
    | true =>
      rw [if_pos (by simpa using h), if_pos rfl]
      rfl
    | false => rfl

theorem parseExponent_append (plus : Bool) (exponent : Option Int)
    (hrest : Stops continuesNumber rest) :
    parseExponent (Numeral.exponentChars plus exponent ++ rest) = some (exponent, rest) := by
  cases exponent with
  | none =>
    rw [Numeral.exponentChars, List.nil_append, parseExponent]
    all_goals
      rintro cs rfl
      cases hrest
  | some e =>
    have hdigits : Stops Char.isDigit rest := hrest.mono fun c hc => by simp [continuesNumber, hc]
    rw [exponentChars_some]
    by_cases h : e < 0
    · rw [if_pos h, List.cons_append, List.append_assoc, List.singleton_append, parseExponent,
        parseExponentDigits_append true _ hdigits, if_pos rfl]
      exact congrArg (fun e => some (some e, rest)) (by omega)
    · have hread : parseExponentDigits false (natDigits e.natAbs ++ rest) = some (some e, rest) := by
        rw [parseExponentDigits_append false _ hdigits, if_neg (by decide)]
        exact congrArg (fun e => some (some e, rest)) (by omega)
      rw [if_neg h]
      cases plus with
      | true =>
        rw [if_pos rfl, List.cons_append, List.append_assoc, List.singleton_append, parseExponent,
          hread]
      | false =>
        rw [if_neg (by decide), List.nil_append, List.cons_append, parseExponent, hread]
        -- a digit is none of the signs
        all_goals
          intro cs hcs
          obtain ⟨d, ds, hd⟩ := List.exists_cons_of_ne_nil (natDigits_ne_nil e.natAbs)
          have hdigit : d.isDigit = true :=
            isDigit_of_mem_natDigits (n := e.natAbs) (by rw [hd]; exact List.mem_cons_self)
          rw [hd] at hcs
          cases (List.cons.inj hcs).1
          cases hdigit

theorem parseMagnitude_append (plus negative : Bool) {n : Numeral} (hwell : n.WellFormed)
    (hlead : n.NoLeadingZero) (hnegative : n.negative = negative)
    (hrest : Stops continuesNumber rest) :
    parseMagnitude negative (n.whole ++ (Numeral.fractionChars n.fraction ++
      (Numeral.exponentChars plus n.exponent ++ rest))) = some (n, rest) := by
  obtain ⟨sign, whole, fraction, exponent⟩ := n
  have hexponent : Stops (fun c => c.isDigit || c == '.')
      (Numeral.exponentChars plus exponent ++ rest) := by
    cases exponent with
    | none =>
      refine hrest.mono fun c hc => ?_
      rw [continuesNumber, hc]
      rfl
    | some e => exact rfl
  have hfraction : Stops Char.isDigit
      (Numeral.fractionChars fraction ++ (Numeral.exponentChars plus exponent ++ rest)) := by
    cases fraction with
    | nil => exact hexponent.mono fun c hc => by simp [hc]
    | cons c fraction => exact rfl
  unfold parseMagnitude
  rw [spanDigits_of_stops hwell.isDigit_whole hfraction]
  dsimp only
  split
  · exact absurd rfl hwell.whole_ne_nil
  · cases hlead _ rfl
  · rw [parseFraction_append hwell.isDigit_fraction hexponent]
    show (parseExponent _).bind _ = _
    rw [parseExponent_append plus exponent hrest]
    cases hnegative
    rfl

/-- A number is read up to its end. -/
theorem parseNumber_append (plus : Bool) {n : Numeral} (hwell : n.WellFormed)
    (hlead : n.NoLeadingZero) (hrest : Stops continuesNumber rest) :
    parseNumber ((n.text plus).toList ++ rest) = some (n, rest) := by
  rw [Numeral.toList_text, List.append_assoc, List.append_assoc, List.append_assoc]
  cases hsign : n.negative with
  | true => exact parseMagnitude_append plus true hwell hlead hsign hrest
  | false =>
    rw [if_neg (by decide), List.nil_append, parseNumber]
    · exact parseMagnitude_append plus false hwell hlead hsign hrest
    · intro cs hcs
      have hstops := stops_minus_of_digits hwell.whole_ne_nil hwell.isDigit_whole
        (Numeral.fractionChars n.fraction ++ (Numeral.exponentChars plus n.exponent ++ rest))
      rw [hcs] at hstops
      cases hstops

/-! ## Strings -/

/-- A character is spelled by a letter after a backslash, by its number, or as itself. -/
theorem escapeChar_cases (c : Char) :
    (∃ d, escapeChar c = ['\\', d] ∧ d ≠ 'u' ∧ (simpleEscape? d).isSome) ∨
    (∃ a b, escapeChar c = ['\\', 'u', '0', '0', a, b] ∧ (hex4? '0' '0' a b).isSome) ∨
    (escapeChar c = [c] ∧ c ≠ '"' ∧ c ≠ '\\' ∧ ¬ c.toNat < 0x20) := by
  by_cases hsimple : c ∈ ['"', '\\', '\x08', '\x0c', '\n', '\r', '\t']
  · simp only [List.mem_cons, List.not_mem_nil, or_false] at hsimple
    rcases hsimple with rfl | rfl | rfl | rfl | rfl | rfl | rfl
    all_goals exact Or.inl ⟨_, rfl, by decide, rfl⟩
  · simp only [List.mem_cons, List.not_mem_nil, or_false, not_or] at hsimple
    refine Or.inr ?_
    by_cases hcontrol : c.toNat < 0x20
    · have hdigits : ∀ n < 0x20,
          (hex4? '0' '0' (hexDigit (n / 16)) (hexDigit (n % 16))).isSome := by
        decide
      refine Or.inl ⟨hexDigit (c.toNat / 16), hexDigit (c.toNat % 16), ?_, hdigits _ hcontrol⟩
      simp [escapeChar, hsimple, hcontrol]
    · refine Or.inr ⟨?_, hsimple.1, hsimple.2.1, hcontrol⟩
      simp [escapeChar, hsimple, hcontrol]

/-- The spelling of a character is kept. -/
theorem scanString_escapeChar (c : Char) (rest : List Char) :
    scanString (escapeChar c ++ rest) = prepend (escapeChar c) (scanString rest) := by
  rcases escapeChar_cases c with ⟨d, hspelled, hu, hd⟩ | ⟨a, b, hspelled, hhex⟩ |
      ⟨hspelled, hquote, hslash, hplain⟩ <;> rw [hspelled]
  · rw [List.cons_append, List.cons_append, List.nil_append, scanString, if_pos hd]
    simp [hu]
  · simp only [List.cons_append, List.nil_append]
    rw [scanString, if_pos hhex]
  · rw [List.cons_append, List.nil_append, scanString, if_neg hplain]
    all_goals simp [hquote, hslash]

/-- The spelling of a text is kept up to the closing quote. -/
theorem scanString_escape (text rest : List Char) :
    scanString (escape text ++ '"' :: rest) = some (escape text, rest) := by
  induction text with
  | nil => rfl
  | cons c text ih =>
    rw [escape, List.flatMap_cons, List.append_assoc, scanString_escapeChar, ← escape, ih]
    rfl

/-! ## Documents -/

/-- A document is spelled by the rules: its numbers are in the range of doubles and have no
superfluous zeros in front, and its strings hold the escapes that they need. -/
inductive Spelled : Json → Prop where
  | null : Spelled .null
  | bool (b : Bool) : Spelled (.bool b)
  | num {n : Numeral} (hwell : n.WellFormed) (hlead : n.NoLeadingZero)
      (hrange : n.toBinary64?.isSome) : Spelled (.num n)
  | str (text : List Char) : Spelled (.str (escape text))
  | arr {items : List Json} (h : ∀ item ∈ items, Spelled item) : Spelled (.arr items)
  | obj {fields : List (List Char × Json)}
      (hnames : ∀ field ∈ fields, ∃ text, field.1 = escape text)
      (hvalues : ∀ field ∈ fields, Spelled field.2) : Spelled (.obj fields)

/-- The text of the document is read as the document, whatever follows it. Twice the length of the
text bounds the number of nested calls: an array or an object takes two of them. -/
def ReadsBack (j : Json) : Prop :=
  ∀ (fuel : Nat) (rest : List Char), 2 * j.compact.toList.length ≤ fuel → Delimited rest →
    parseValue (fuel + 1) (j.compact.toList ++ rest) = some (j, rest)

variable {fuel : Nat}

theorem delimited_cons {c : Char} (h : c = ',' ∨ c = ']' ∨ c = '\x7d') : Delimited (c :: rest) := by
  intro d hd
  cases hd
  exact h

theorem skipBlank_cons {c : Char} (h : isBlank c = false) (cs : List Char) :
    skipBlank (c :: cs) = c :: cs :=
  List.dropWhile_cons_of_neg (by rw [h]; decide)

theorem toList_quoted (raw : List Char) : (quoted raw).toList = '"' :: (raw ++ ['"']) := by
  simp [quoted]

theorem toList_compact_arr (items : List Json) :
    (Json.arr items).compact.toList = '[' :: ((compactItems items).toList ++ [']']) := by
  simp [compact]

theorem toList_compact_obj (fields : List (List Char × Json)) :
    (Json.obj fields).compact.toList = '\x7b' :: ((compactFields fields).toList ++ ['\x7d']) := by
  simp [compact]

theorem toList_compactItems_cons (item next : Json) (items : List Json) :
    (compactItems (item :: next :: items)).toList =
      item.compact.toList ++ ',' :: (compactItems (next :: items)).toList := by
  simp [compactItems]

/-- Items start with the first item. -/
theorem exists_toList_compactItems (item : Json) (items : List Json) :
    ∃ tail, (compactItems (item :: items)).toList = item.compact.toList ++ tail := by
  cases items with
  | nil => exact ⟨[], by simp [compactItems]⟩
  | cons next items => exact ⟨_, toList_compactItems_cons item next items⟩

theorem toList_compactFields_single (name : List Char) (value : Json) :
    (compactFields [(name, value)]).toList =
      '"' :: (name ++ '"' :: ':' :: value.compact.toList) := by
  simp [compactFields, toList_quoted]

theorem toList_compactFields_cons (name : List Char) (value : Json) (next : List Char × Json)
    (fields : List (List Char × Json)) :
    (compactFields ((name, value) :: next :: fields)).toList =
      '"' :: (name ++ '"' :: ':' :: (value.compact.toList ++
        ',' :: (compactFields (next :: fields)).toList)) := by
  simp [compactFields, toList_quoted]

/-- Fields start with the quote of the first name. -/
theorem exists_toList_compactFields (field : List Char × Json) (fields : List (List Char × Json)) :
    ∃ tail, (compactFields (field :: fields)).toList = '"' :: tail := by
  cases fields with
  | nil => exact ⟨_, toList_compactFields_single field.1 field.2⟩
  | cons next fields => exact ⟨_, toList_compactFields_cons field.1 field.2 next fields⟩

/-- A number starts with its sign or with a digit. -/
theorem exists_head_text (plus : Bool) {n : Numeral} (hwell : n.WellFormed) :
    ∃ c cs, (n.text plus).toList = c :: cs ∧ (c = '-' ∨ c.isDigit = true) := by
  obtain ⟨d, ds, hds⟩ := List.exists_cons_of_ne_nil hwell.whole_ne_nil
  rw [Numeral.toList_text]
  cases n.negative with
  | true => exact ⟨'-', _, rfl, Or.inl rfl⟩
  | false =>
    rw [hds]
    exact ⟨d, _, rfl, Or.inr (hwell.isDigit_whole d (by rw [hds]; exact List.mem_cons_self))⟩

theorem ne_of_head {c d : Char} (h : c = '-' ∨ c.isDigit = true) (hd : d.isDigit = false)
    (hminus : d ≠ '-') : c ≠ d := by
  rintro rfl
  rcases h with h | h
  · exact hminus h
  · rw [hd] at h
    cases h

theorem isBlank_of_head {c : Char} (h : c = '-' ∨ c.isDigit = true) : isBlank c = false := by
  simp [isBlank, ne_of_head h]

theorem parseValue_number {c : Char} (h : c = '-' ∨ c.isDigit = true) (cs : List Char) :
    parseValue (fuel + 1) (c :: cs) =
      (parseNumber (c :: cs)).map fun (n, rest) => (.num n, rest) := by
  rw [parseValue, skipBlank_cons (isBlank_of_head h)]
  split
  case h_7 => rfl
  all_goals
    next heq => exact absurd (List.cons.inj heq).1 (ne_of_head h (by decide) (by decide))

/-- A value starts with a character that is neither a blank nor a closing bracket. -/
theorem Spelled.exists_head {j : Json} (h : Spelled j) :
    ∃ c cs, j.compact.toList = c :: cs ∧ isBlank c = false ∧ c ≠ ']' := by
  cases h with
  | null => exact ⟨'n', _, rfl, by decide, by decide⟩
  | bool b =>
    cases b with
    | true => exact ⟨'t', _, rfl, by decide, by decide⟩
    | false => exact ⟨'f', _, rfl, by decide, by decide⟩
  | num hwell =>
    obtain ⟨c, cs, htext, hc⟩ := exists_head_text true hwell
    exact ⟨c, cs, htext, isBlank_of_head hc, ne_of_head hc (by decide) (by decide)⟩
  | str text => exact ⟨'"', _, toList_quoted _, by decide, by decide⟩
  | arr h => exact ⟨'[', _, toList_compact_arr _, by decide, by decide⟩
  | obj hnames hvalues => exact ⟨'\x7b', _, toList_compact_obj _, by decide, by decide⟩

theorem parseValue_items {c : Char} {cs : List Char} (hblank : isBlank c = false) (hc : c ≠ ']') :
    parseValue (fuel + 1) ('[' :: c :: cs) =
      (parseItems fuel (c :: cs)).map fun (items, rest) => (.arr items, rest) := by
  have hopen := skipBlank_cons (c := '[') rfl
  simp only [parseValue, hopen, skipBlank_cons hblank]
  split
  · next heq => exact absurd (List.cons.inj heq).1 hc
  · rfl

/-- Items are read back up to the closing bracket. -/
theorem parseItems_append (fuel : Nat) (rest : List Char) {items : List Json} (hne : items ≠ [])
    (h : ∀ item ∈ items, ReadsBack item)
    (hfuel : 2 * (compactItems items).toList.length + 2 ≤ fuel) :
    parseItems fuel ((compactItems items).toList ++ ']' :: rest) = some (items, rest) := by
  induction items generalizing fuel with
  | nil => exact absurd rfl hne
  | cons item items ih =>
    obtain ⟨fuel, rfl⟩ : ∃ k, fuel = k + 2 := ⟨fuel - 2, by omega⟩
    have hitem := h item List.mem_cons_self
    cases items with
    | nil =>
      have hread := hitem fuel (']' :: rest) (by simpa [compactItems] using hfuel)
        (delimited_cons (Or.inr (Or.inl rfl)))
      rw [parseItems, compactItems, hread]
      rfl
    | cons next items =>
      rw [toList_compactItems_cons, List.length_append, List.length_cons] at hfuel
      have hread := hitem fuel (',' :: ((compactItems (next :: items)).toList ++ ']' :: rest))
        (by omega) (delimited_cons (Or.inl rfl))
      have hitems := ih (fuel + 1) (by simp)
        (fun item hitem => h item (List.mem_cons_of_mem _ hitem)) (by omega)
      rw [parseItems, toList_compactItems_cons, List.append_assoc, List.cons_append, hread]
      show (parseItems (fuel + 1) _).bind _ = _
      rw [hitems]
      rfl

section Field

variable {text cs cs' : List Char} {value : Json}

theorem parseFields_last (h : parseValue fuel cs = some (value, '\x7d' :: rest)) :
    parseFields (fuel + 1) ('"' :: (escape text ++ '"' :: ':' :: cs)) =
      some ([(escape text, value)], rest) := by
  have hquote := skipBlank_cons (c := '"') rfl
  have hcolon := skipBlank_cons (c := ':') rfl
  have hclose := skipBlank_cons (c := '\x7d') rfl
  simp only [parseFields, hquote, scanString_escape, Option.bind_eq_bind, Option.bind_some, hcolon,
    h, hclose, Option.pure_def]

theorem parseFields_next (h : parseValue fuel cs = some (value, ',' :: cs')) :
    parseFields (fuel + 1) ('"' :: (escape text ++ '"' :: ':' :: cs)) =
      (parseFields fuel cs').bind fun (fields, rest) =>
        some ((escape text, value) :: fields, rest) := by
  have hquote := skipBlank_cons (c := '"') rfl
  have hcolon := skipBlank_cons (c := ':') rfl
  have hcomma := skipBlank_cons (c := ',') rfl
  simp only [parseFields, hquote, scanString_escape, Option.bind_eq_bind, Option.bind_some, hcolon,
    h, hcomma, Option.pure_def]

end Field

/-- Fields are read back up to the closing brace. -/
theorem parseFields_append (fuel : Nat) (rest : List Char) {fields : List (List Char × Json)}
    (hne : fields ≠ [])
    (hnames : ∀ field ∈ fields, ∃ text, field.1 = escape text)
    (h : ∀ field ∈ fields, ReadsBack field.2)
    (hfuel : 2 * (compactFields fields).toList.length + 2 ≤ fuel) :
    parseFields fuel ((compactFields fields).toList ++ '\x7d' :: rest) = some (fields, rest) := by
  induction fields generalizing fuel with
  | nil => exact absurd rfl hne
  | cons field fields ih =>
    obtain ⟨fuel, rfl⟩ : ∃ k, fuel = k + 2 := ⟨fuel - 2, by omega⟩
    obtain ⟨name, value⟩ := field
    obtain ⟨text, rfl⟩ := hnames _ List.mem_cons_self
    have hvalue : ReadsBack value := h (escape text, value) List.mem_cons_self
    cases fields with
    | nil =>
      rw [toList_compactFields_single] at hfuel ⊢
      simp only [List.length_cons, List.length_append] at hfuel
      have hread := hvalue fuel ('\x7d' :: rest) (by omega)
        (delimited_cons (Or.inr (Or.inr rfl)))
      simp only [List.cons_append, List.append_assoc]
      exact parseFields_last hread
    | cons next fields =>
      rw [toList_compactFields_cons] at hfuel ⊢
      simp only [List.length_cons, List.length_append] at hfuel
      have hread := hvalue fuel (',' :: ((compactFields (next :: fields)).toList ++ '\x7d' :: rest))
        (by omega) (delimited_cons (Or.inl rfl))
      have hfields := ih (fuel + 1) (by simp)
        (fun field hfield => hnames field (List.mem_cons_of_mem _ hfield))
        (fun field hfield => h field (List.mem_cons_of_mem _ hfield)) (by omega)
      simp only [List.cons_append, List.append_assoc]
      rw [parseFields_next hread, hfields]
      rfl

/-- A document that is spelled by the rules is read back, its items and fields first. -/
theorem Spelled.readsBack {j : Json} (h : Spelled j) : ReadsBack j := by
  induction h with
  | null => exact fun fuel rest hfuel hrest => rfl
  | bool b =>
    intro fuel rest hfuel hrest
    cases b <;> rfl
  | num hwell hlead hrange =>
    intro fuel rest hfuel hrest
    obtain ⟨c, cs, htext, hc⟩ := exists_head_text true hwell
    rw [compact, htext, List.cons_append, parseValue_number hc, ← List.cons_append, ← htext,
      parseNumber_append true hwell hlead (hrest.stops (by decide))]
    rfl
  | str text =>
    intro fuel rest hfuel hrest
    rw [compact, toList_quoted, List.cons_append, List.append_assoc, parseValue]
    show (scanString _).map _ = _
    rw [List.cons_append, List.nil_append, scanString_escape]
    rfl
  | @arr items h ih =>
    intro fuel rest hfuel hrest
    rw [toList_compact_arr] at hfuel ⊢
    simp only [List.length_cons, List.length_append, List.length_nil] at hfuel
    rw [List.cons_append, List.append_assoc, List.cons_append, List.nil_append]
    cases items with
    | nil => rfl
    | cons item items =>
      have hitems := parseItems_append fuel rest (by simp) ih (by omega)
      obtain ⟨c, cs, hhead, hblank, hc⟩ := (h item List.mem_cons_self).exists_head
      obtain ⟨tail, htail⟩ := exists_toList_compactItems item items
      rw [htail, hhead, List.cons_append, List.cons_append] at hitems ⊢
      rw [parseValue_items hblank hc, hitems]
      rfl
  | @obj fields hnames hvalues ih =>
    intro fuel rest hfuel hrest
    rw [toList_compact_obj] at hfuel ⊢
    simp only [List.length_cons, List.length_append, List.length_nil] at hfuel
    rw [List.cons_append, List.append_assoc, List.cons_append, List.nil_append]
    cases fields with
    | nil => rfl
    | cons field fields =>
      have hfields := parseFields_append fuel rest (by simp) hnames ih (by omega)
      obtain ⟨tail, htail⟩ := exists_toList_compactFields field fields
      rw [htail, List.cons_append] at hfields ⊢
      rw [parseValue]
      show (parseFields fuel _).map _ = _
      rw [hfields]
      rfl

end Json

end GraphPlan
