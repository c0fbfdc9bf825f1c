import GraphPlan.Decimal.Hundredths
import GraphPlan.Proofs.Decimal.ReadBack
import GraphPlan.Proofs.Text.Reading

/-!
# Texts of decimals

The text of a numeral determines the numeral, and a finite double is read back from its numeral, so
two finite doubles with the same text are the same. Decimals of the algebra keep two places only;
their texts determine the number of hundredths.
-/

namespace GraphPlan

open Text

/-- The characters of numerals. -/
def isNumeralChar (c : Char) : Bool :=
  c.isDigit || c == '.' || c == 'e' || c == '-' || c == '+'

theorem isNumeralChar_of_isDigit {c : Char} (h : c.isDigit = true) : isNumeralChar c = true := by
  simp [isNumeralChar, h]

theorem isNumeralChar_of_mem_sign {m : Bool} {c : Char} (h : c ∈ if m then ['-'] else []) :
    isNumeralChar c = true := by
  cases m with
  | false => cases h
  | true =>
    cases List.mem_singleton.1 h
    rfl

theorem isNumeralChar_of_mem_intText {i : Int} {c : Char} (h : c ∈ (intText i).toList) :
    isNumeralChar c = true := by
  rcases eq_minus_or_isDigit_of_mem_intText h with rfl | h
  · rfl
  · exact isNumeralChar_of_isDigit h

/-- An integer is legible where no character of a numeral follows. -/
theorem legible_intText (value : Int64) :
    Legible (fun value : Int64 => (intText value.toInt).toList) (fun _ => True)
      (Stops isNumeralChar) value :=
  legible_of_token (fun _ _ _ => isNumeralChar_of_mem_intText) trivial
    fun _ _ h => Int64.toInt_inj.1 (intText_injective h)

/-! ## Numerals -/

namespace Numeral

/-- The digits before and after the point are digits, and there is one before it. -/
structure WellFormed (n : Numeral) : Prop where
  whole_ne_nil : n.whole ≠ []
  isDigit_whole : ∀ c ∈ n.whole, c.isDigit = true
  isDigit_fraction : ∀ c ∈ n.fraction, c.isDigit = true

/-- The point and the digits after it. -/
def fractionChars : List Char → List Char
  | [] => []
  | fraction => '.' :: fraction

/-- The exponent as it is written. -/
def exponentChars (plus : Bool) : Option Int → List Char
  | none => []
  | some e => 'e' :: ((if plus && decide (0 ≤ e) then ['+'] else []) ++ (intText e).toList)

theorem toList_text (plus : Bool) (n : Numeral) :
    (n.text plus).toList = (if n.negative then ['-'] else []) ++
      (n.whole ++ (fractionChars n.fraction ++ exponentChars plus n.exponent)) := by
  obtain ⟨negative, whole, fraction, exponent⟩ := n
  have hsign : (if negative then "-" else "").toList = if negative then ['-'] else [] := by
    cases negative <;> rfl
  have hfraction : (if fraction.isEmpty then "" else "." ++ String.ofList fraction).toList =
      fractionChars fraction := by
    cases fraction <;> simp [fractionChars]
  unfold text
  cases exponent with
  | none =>
    simp only [String.toList_append, String.toList_ofList, hsign, hfraction, exponentChars]
    simp
  | some e =>
    have hplus : (if plus && decide (0 ≤ e) then "+" else "").toList =
        if plus && decide (0 ≤ e) then ['+'] else [] := by
      split <;> rfl
    simp only [String.toList_append, String.toList_ofList, hsign, hfraction, hplus, exponentChars]
    simp

theorem stops_exponentChars (plus : Bool) (exponent : Option Int) :
    Stops Char.isDigit (exponentChars plus exponent) := by
  cases exponent with
  | none => trivial
  | some e => exact rfl

theorem stops_fractionChars (plus : Bool) (fraction : List Char) (exponent : Option Int) :
    Stops Char.isDigit (fractionChars fraction ++ exponentChars plus exponent) := by
  cases fraction with
  | nil => exact stops_exponentChars plus exponent
  | cons c fraction => exact rfl

theorem exponentChars_injective {plus : Bool} {e f : Option Int}
    (h : exponentChars plus e = exponentChars plus f) : e = f := by
  -- an integer has no plus sign of its own
  have hplus : ∀ (i : Int) (t : List Char), (intText i).toList ≠ '+' :: t := by
    intro i t hi
    have hmem : '+' ∈ (intText i).toList := by
      rw [hi]
      exact List.mem_cons_self
    rcases eq_minus_or_isDigit_of_mem_intText hmem with h | h <;> cases h
  cases e <;> cases f
  · rfl
  · cases h
  · cases h
  · next e f =>
    have h := (List.cons.inj h).2
    refine congrArg some ?_
    split at h <;> split at h
    · exact intText_injective (List.cons.inj h).2
    · exact absurd h.symm (hplus f _)
    · exact absurd h (hplus e _)
    · exact intText_injective h

theorem fractionChars_append_inj {plus : Bool} {a b : List Char} {e f : Option Int}
    (ha : ∀ c ∈ a, c.isDigit = true) (hb : ∀ c ∈ b, c.isDigit = true)
    (h : fractionChars a ++ exponentChars plus e = fractionChars b ++ exponentChars plus f) :
    a = b ∧ e = f := by
  -- without digits after the point the next character is an `e`, with some it is the point
  have hpoint : ∀ (k : Option Int) (t : List Char), exponentChars plus k ≠ '.' :: t := by
    intro k t hk
    cases k <;> cases hk
  cases a <;> cases b
  · exact ⟨rfl, exponentChars_injective h⟩
  · exact absurd h (hpoint e _)
  · exact absurd h.symm (hpoint f _)
  · obtain ⟨hdigits, hexponent⟩ := append_inj_of_stops ha hb (stops_exponentChars plus e)
      (stops_exponentChars plus f) (List.cons.inj h).2
    exact ⟨hdigits, exponentChars_injective hexponent⟩

/-- The text of a numeral determines it. -/
theorem WellFormed.eq_of_text {plus : Bool} {m n : Numeral} (hm : m.WellFormed) (hn : n.WellFormed)
    (h : m.text plus = n.text plus) : m = n := by
  have h := congrArg String.toList h
  rw [toList_text, toList_text] at h
  obtain ⟨hsign, h⟩ := optional_append_inj (stops_minus_of_digits hm.whole_ne_nil hm.isDigit_whole _)
    (stops_minus_of_digits hn.whole_ne_nil hn.isDigit_whole _) h
  obtain ⟨hwhole, h⟩ := append_inj_of_stops hm.isDigit_whole hn.isDigit_whole
    (stops_fractionChars plus _ _) (stops_fractionChars plus _ _) h
  obtain ⟨hfraction, hexponent⟩ :=
    fractionChars_append_inj hm.isDigit_fraction hn.isDigit_fraction h
  cases m
  cases n
  simp_all

theorem WellFormed.isNumeralChar_of_mem {plus : Bool} {n : Numeral} (hn : n.WellFormed) {c : Char}
    (h : c ∈ (n.text plus).toList) : isNumeralChar c = true := by
  rw [toList_text, List.mem_append, List.mem_append, List.mem_append] at h
  rcases h with h | h | h | h
  · exact isNumeralChar_of_mem_sign h
  · exact isNumeralChar_of_isDigit (hn.isDigit_whole c h)
  · have hfraction := hn.isDigit_fraction
    cases hf : n.fraction with
    | nil =>
      rw [hf] at h
      cases h
    | cons d ds =>
      rw [hf] at h hfraction
      rcases List.mem_cons.1 h with rfl | h
      · rfl
      · exact isNumeralChar_of_isDigit (hfraction c h)
  · cases he : n.exponent with
    | none =>
      rw [he] at h
      cases h
    | some e =>
      rw [he] at h
      rcases List.mem_cons.1 h with rfl | h
      · rfl
      rcases List.mem_append.1 h with h | h
      · split at h
        · cases List.mem_singleton.1 h
          rfl
        · cases h
      · exact isNumeralChar_of_mem_intText h

end Numeral

/-! ## Doubles -/

theorem isDigit_of_mem_natDigits {n : Nat} {c : Char} (h : c ∈ natDigits n) : c.isDigit = true :=
  Nat.isDigit_of_mem_toDigits (by omega) (by omega) h

theorem natDigits_ne_nil (n : Nat) : natDigits n ≠ [] :=
  Nat.toDigits_ne_nil

theorem isDigit_of_mem_zeros {k : Nat} {c : Char} (h : c ∈ List.replicate k '0') :
    c.isDigit = true := by
  rw [List.eq_of_mem_replicate h]
  rfl

namespace Layout

theorem wellFormed_positional (negative : Bool) (d : ShortDecimal) :
    (positional negative d).WellFormed := by
  unfold positional
  dsimp only
  split
  · refine ⟨by simp [natDigits_ne_nil], fun c hc => ?_,
      fun c hc => isDigit_of_mem_zeros (k := 1) hc⟩
    rcases List.mem_append.1 hc with hc | hc
    · exact isDigit_of_mem_natDigits hc
    · exact isDigit_of_mem_zeros hc
  · split
    · next hplaces =>
      refine ⟨?_, fun c hc => isDigit_of_mem_natDigits (List.mem_of_mem_take hc),
        fun c hc => isDigit_of_mem_natDigits (List.mem_of_mem_drop hc)⟩
      intro hnil
      have hlen := congrArg List.length hnil
      simp only [List.length_take, List.length_nil] at hlen
      omega
    · refine ⟨by simp, fun c hc => isDigit_of_mem_zeros (k := 1) hc, fun c hc => ?_⟩
      rcases List.mem_append.1 hc with hc | hc
      · exact isDigit_of_mem_zeros hc
      · exact isDigit_of_mem_natDigits hc

theorem wellFormed_scientific (negative : Bool) (d : ShortDecimal) :
    (scientific negative d).WellFormed := by
  refine ⟨?_, fun c hc => isDigit_of_mem_natDigits (List.mem_of_mem_take hc),
    fun c hc => isDigit_of_mem_natDigits (List.mem_of_mem_drop hc)⟩
  intro hnil
  have hne := natDigits_ne_nil d.digits
  rcases List.take_eq_nil_iff.1 hnil with h | h
  · cases h
  · exact hne h

theorem wellFormed_numeral (l : Layout) (v : Binary64) : (l.numeral v).WellFormed := by
  unfold numeral
  split
  · have hzero : ∀ c ∈ ['0'], c.isDigit = true := List.all_eq_true.1 (by decide)
    exact ⟨by simp, hzero, hzero⟩
  · dsimp only
    split
    · exact wellFormed_positional _ _
    · exact wellFormed_scientific _ _

theorem negative_numeral (l : Layout) (v : Binary64) : (l.numeral v).negative = v.negative := by
  unfold numeral positional scientific
  dsimp only
  split
  · rfl
  · split
    · split
      · rfl
      · split <;> rfl
    · rfl

/-- A double is written with a point or with an exponent. -/
theorem marked_numeral (l : Layout) (v : Binary64) :
    (l.numeral v).fraction ≠ [] ∨ (l.numeral v).exponent ≠ none := by
  unfold numeral
  split
  · exact Or.inl (by simp)
  · dsimp only
    split
    · refine Or.inl ?_
      unfold positional
      dsimp only
      split
      · simp
      · split
        · next he hplaces =>
          intro hnil
          have hlen := congrArg List.length hnil
          simp only [List.length_drop, List.length_nil] at hlen
          omega
        · simp [natDigits_ne_nil]
    · exact Or.inr (by simp [scientific])

section Text

variable {l : Layout} {v w : Binary64}

theorem text_of_isFinite (h : v.isFinite = true) : l.text v = (l.numeral v).text l.plus := by
  unfold text
  rw [if_pos h]

/-- Finite doubles with the same text are the same double. -/
theorem text_injective (hv : v.isFinite = true) (hw : w.isFinite = true)
    (h : l.text v = l.text w) : v = w := by
  rw [text_of_isFinite hv, text_of_isFinite hw] at h
  have hnumeral := (wellFormed_numeral l v).eq_of_text (wellFormed_numeral l w) h
  have hread := congrArg Numeral.toBinary64? hnumeral
  rw [toBinary64?_numeral l hv, toBinary64?_numeral l hw] at hread
  exact Option.some.inj hread

theorem isNumeralChar_of_mem_text (hv : v.isFinite = true) {c : Char}
    (h : c ∈ (l.text v).toList) : isNumeralChar c = true := by
  rw [text_of_isFinite hv] at h
  exact (wellFormed_numeral l v).isNumeralChar_of_mem h

/-- A finite double is legible where no character of a numeral follows. -/
theorem legible_text (hv : v.isFinite = true) :
    Legible (fun v => (l.text v).toList) (fun v => v.isFinite = true) (Stops isNumeralChar) v :=
  legible_of_token (fun _ hw _ => isNumeralChar_of_mem_text hw) hv
    fun _ hw h => text_injective hv hw (String.toList_inj.1 h)

/-- With a clear sign bit the text starts with a digit. -/
theorem exists_digit_text (hv : v.isFinite = true) (hsign : v.negative = false) :
    ∃ c t, (l.text v).toList = c :: t ∧ c.isDigit = true := by
  have hwell := wellFormed_numeral l v
  obtain ⟨c, t, hct⟩ := List.exists_cons_of_ne_nil hwell.whole_ne_nil
  rw [text_of_isFinite hv, Numeral.toList_text, negative_numeral, hsign, hct]
  exact ⟨c, _, rfl, hwell.isDigit_whole c (by rw [hct]; exact List.mem_cons_self)⟩

/-- A double is not written as an integer is. -/
theorem exists_mark_text (hv : v.isFinite = true) :
    ∃ c ∈ (l.text v).toList, c = '.' ∨ c = 'e' := by
  rw [text_of_isFinite hv, Numeral.toList_text]
  rcases marked_numeral l v with h | h
  · obtain ⟨d, ds, hd⟩ := List.exists_cons_of_ne_nil h
    exact ⟨'.', by simp [hd, Numeral.fractionChars], Or.inl rfl⟩
  · obtain ⟨e, he⟩ := Option.ne_none_iff_exists'.1 h
    exact ⟨'e', by simp [he, Numeral.exponentChars], Or.inr rfl⟩

end Text

end Layout

/-! ## Hundredths -/

theorem toList_repr_digit {d : Nat} (h : d < 10) : (Nat.repr d).toList = [Nat.digitChar d] := by
  rw [Nat.toList_repr, Nat.toDigits_of_lt_base h]

namespace Hundredths

/-- Neither an infinity nor no number. -/
def isFinite : Hundredths → Bool
  | finite _ _ => true
  | _ => false

theorem isFinite_toHundredths {v : Binary64} (h : v.isFinite = true) :
    v.toHundredths.isFinite = true := by
  unfold Binary64.toHundredths
  rw [if_pos h]
  rfl

/-- The digits after the point, as they are left when a zero is dropped. -/
def fractionText (n : Nat) : String :=
  let tenths := Nat.repr (n % 100 / 10)
  if n % 10 = 0 then tenths else tenths ++ Nat.repr (n % 10)

theorem toList_fractionText (n : Nat) :
    (fractionText n).toList = (Nat.repr (n % 100 / 10)).toList ++
      if n % 10 = 0 then [] else (Nat.repr (n % 10)).toList := by
  unfold fractionText
  dsimp only
  split <;> simp

theorem toList_repr_ones (n : Nat) : (Nat.repr (n % 10)).toList = [Nat.digitChar (n % 10)] :=
  toList_repr_digit (by omega)

theorem toList_twoPlaces_finite (negative : Bool) (n : Nat) :
    (finite negative n).twoPlaces.toList = (if negative then ['-'] else []) ++
      ((Nat.repr (n / 100)).toList ++ '.' :: (Nat.repr (n % 100 / 10)).toList) ++
        [Nat.digitChar (n % 10)] := by
  unfold twoPlaces
  rw [String.toList_append, toList_repr_ones]
  cases negative <;> simp

/-- What is dropped from a text depends on its last character only. -/
theorem toList_dropZero {text : String} {cs : List Char} {c : Char}
    (h : text.toList = cs ++ [c]) :
    (dropZero text).toList = cs ++ if c = '0' then [] else [c] := by
  have hlast : text.toList.getLast? = some c := by rw [h, List.getLast?_concat]
  unfold dropZero
  by_cases hc : c = '0'
  · rw [if_pos (by rw [hlast, hc]), if_pos hc, String.toList_ofList, h, List.dropLast_concat,
      List.append_nil]
  · rw [if_neg (by rw [hlast]; simpa using hc), if_neg hc, h]

theorem fractionText_inj {m n : Nat} (h : (fractionText m).toList = (fractionText n).toList) :
    m % 100 = n % 100 := by
  have htenths : ∀ k : Nat, (Nat.repr (k % 100 / 10)).toList = [Nat.digitChar (k % 100 / 10)] :=
    fun k => toList_repr_digit (by omega)
  rw [toList_fractionText, toList_fractionText] at h
  have hfirst : m % 100 / 10 = n % 100 / 10 := by
    refine repr_injective ?_
    rw [htenths, htenths] at h ⊢
    rw [(List.cons.inj h).1]
  rw [hfirst] at h
  have hlast := List.append_cancel_left h
  split at hlast <;> split at hlast
  · omega
  · rw [toList_repr_ones] at hlast
    cases hlast
  · rw [toList_repr_ones] at hlast
    cases hlast
  · have := repr_injective hlast
    omega

/-- The text of a decimal by its digits: dropping the zero leaves one of the two places. -/
theorem toList_text_finite (negative : Bool) (n : Nat) :
    (finite negative n).text.toList = (if negative then ['-'] else []) ++
      ((Nat.repr (n / 100)).toList ++ '.' :: (fractionText n).toList) := by
  have hzero : ∀ d < 10, Nat.digitChar d = '0' ↔ d = 0 := by decide
  rw [text, toList_dropZero (toList_twoPlaces_finite negative n), toList_fractionText,
    toList_repr_ones]
  simp only [hzero (n % 10) (by omega), List.append_assoc, List.cons_append]

theorem isDigit_of_mem_fractionText {n : Nat} {c : Char} (h : c ∈ (fractionText n).toList) :
    c.isDigit = true := by
  rw [toList_fractionText, List.mem_append] at h
  rcases h with h | h
  · exact isDigit_of_mem_repr h
  · split at h
    · cases h
    · exact isDigit_of_mem_repr h

theorem text_injective {a b : Hundredths} (ha : a.isFinite = true) (hb : b.isFinite = true)
    (h : a.text.toList = b.text.toList) : a = b := by
  cases a with
  | infinite | nan => cases ha
  | finite m i =>
    cases b with
    | infinite | nan => cases hb
    | finite n j =>
      rw [toList_text_finite, toList_text_finite] at h
      have hminus : ∀ (k : Nat) (t : List Char), Stops (· == '-') ((Nat.repr k).toList ++ t) :=
        fun k => stops_minus_of_digits (repr_ne_nil k) fun _ => isDigit_of_mem_repr
      obtain ⟨rfl, hdigits⟩ := optional_append_inj (hminus _ _) (hminus _ _) h
      have hpoint : ∀ t : List Char, Stops Char.isDigit ('.' :: t) := fun _ => rfl
      obtain ⟨hwhole, hfraction⟩ := legible_repr (i / 100) trivial (hpoint _) (hpoint _) hdigits
      have hrest := fractionText_inj (List.cons.inj hfraction).2
      have hcount : i = j := by omega
      rw [hcount]

theorem isNumeralChar_of_mem_text {a : Hundredths} (ha : a.isFinite = true) {c : Char}
    (h : c ∈ a.text.toList) : isNumeralChar c = true := by
  cases a with
  | infinite | nan => cases ha
  | finite m i =>
    rw [toList_text_finite, List.mem_append, List.mem_append, List.mem_cons] at h
    rcases h with h | h | rfl | h
    · exact isNumeralChar_of_mem_sign h
    · exact isNumeralChar_of_isDigit (isDigit_of_mem_repr h)
    · rfl
    · exact isNumeralChar_of_isDigit (isDigit_of_mem_fractionText h)

/-- A number of hundredths is legible where no character of a numeral follows. -/
theorem legible_text {a : Hundredths} (ha : a.isFinite = true) :
    Legible (fun a => a.text.toList) (fun a => a.isFinite = true) (Stops isNumeralChar) a :=
  legible_of_token (fun _ hb _ => isNumeralChar_of_mem_text hb) ha
    fun _ hb h => text_injective ha hb h

theorem point_mem_text {a : Hundredths} (ha : a.isFinite = true) : '.' ∈ a.text.toList := by
  cases a with
  | infinite | nan => cases ha
  | finite m i =>
    rw [toList_text_finite]
    simp

end Hundredths

end GraphPlan
