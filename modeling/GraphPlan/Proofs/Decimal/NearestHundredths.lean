import GraphPlan.Proofs.Algebra.Literals
import Mathlib.Tactic.Linarith

/-!
# Correct rounding to hundredths

The text of a finite double to two places is that of the nearest whole number of hundredths, ties to
even. `NearestEven` says what this means without computing it, and that alone makes rounding
monotone: two numbers could only change places at a tie, where both would be even. What the text
stands for is what `ReadValue.read?` reads.
-/

namespace GraphPlan

open Text

/-! ## The nearest integer -/

/-- The integer nearest to a number; of two that are equally near, the even one. -/
structure NearestEven (x : ℚ) (n : Int) : Prop where
  nearest : ∀ k : Int, |(n : ℚ) - x| ≤ |(k : ℚ) - x|
  even_of_tie : ∀ k : Int, k ≠ n → |(k : ℚ) - x| = |(n : ℚ) - x| → n % 2 = 0

namespace NearestEven

variable {x y : ℚ} {m n : Int}

theorem neg (h : NearestEven x n) : NearestEven (-x) (-n) := by
  have hdist : ∀ k : Int, |((-k : Int) : ℚ) - -x| = |(k : ℚ) - x| := by
    intro k
    rw [Int.cast_neg, neg_sub_neg, abs_sub_comm]
  have hdist' : ∀ k : Int, |(k : ℚ) - -x| = |((-k : Int) : ℚ) - x| := by
    intro k
    rw [← hdist, neg_neg]
  refine ⟨fun k => ?_, fun k hk htie => ?_⟩
  · rw [hdist, hdist']
    exact h.nearest (-k)
  · rw [hdist, hdist'] at htie
    have heven := h.even_of_tie (-k) (by omega) htie
    omega

/-- An integer that is half a unit away at most is a nearest one, and the even one if it is even at
half a unit. -/
theorem of_abs_sub_le (h : |(n : ℚ) - x| ≤ 1 / 2) (heven : |(n : ℚ) - x| = 1 / 2 → n % 2 = 0) :
    NearestEven x n := by
  have hfar : ∀ k : Int, k ≠ n → 1 - |(n : ℚ) - x| ≤ |(k : ℚ) - x| := by
    intro k hk
    have hone : (1 : ℚ) ≤ |(k : ℚ) - n| := by
      have hint : 1 ≤ |k - n| := Int.one_le_abs (by omega)
      exact_mod_cast hint
    have htriangle := abs_sub_le (k : ℚ) x n
    rw [abs_sub_comm x] at htriangle
    linarith
  refine ⟨fun k => ?_, fun k hk htie => heven ?_⟩
  · by_cases hk : k = n
    · rw [hk]
    · linarith [hfar k hk]
  · linarith [hfar k hk]

/-- Of two integers the nearest one is on its side of the middle. -/
theorem add_le_of_lt (h : NearestEven x n) (hlt : m < n) : (m : ℚ) + n ≤ 2 * x := by
  have hnear := sq_le_sq.2 (h.nearest m)
  have hpos : (0 : ℚ) < n - m := by
    have hcast : (m : ℚ) < n := by exact_mod_cast hlt
    linarith
  by_contra hside
  nlinarith

theorem le_add_of_lt (h : NearestEven x m) (hlt : m < n) : 2 * x ≤ (m : ℚ) + n := by
  have hside := h.neg.add_le_of_lt (m := -n) (by omega)
  push_cast at hside
  linarith

/-- Rounding keeps the order. -/
theorem mono (hm : NearestEven x m) (hn : NearestEven y n) (hxy : x ≤ y) : m ≤ n := by
  by_contra hlt
  have hlt : n < m := by omega
  -- both numbers are in the middle of the two integers
  have hx : 2 * x = (n : ℚ) + m := by linarith [hm.add_le_of_lt hlt, hn.le_add_of_lt hlt]
  have hy : 2 * y = (n : ℚ) + m := by linarith [hm.add_le_of_lt hlt, hn.le_add_of_lt hlt]
  have hdist : ∀ z : ℚ, 2 * z = (n : ℚ) + m → |(n : ℚ) - z| = |(m : ℚ) - z| := by
    intro z hz
    rw [← abs_neg]
    congr 1
    linarith
  have hmeven := hm.even_of_tie n (by omega) (hdist x hx)
  have hneven := hn.even_of_tie m (by omega) (hdist y hy).symm
  -- so that there is one between them, which would be nearer
  have hnext := hm.add_le_of_lt (m := n + 1) (by omega)
  push_cast at hnext
  linarith

end NearestEven

/-- A quotient half way between two natural numbers is rounded to the even one. -/
theorem roundHalfEven_even {n d : Nat} (hd : 0 < d)
    (h : 2 * (d * roundHalfEven n d) = 2 * n + d ∨ 2 * n = 2 * (d * roundHalfEven n d) + d) :
    roundHalfEven n d % 2 = 0 := by
  have hdiv := Nat.div_add_mod n d
  have hmod := Nat.mod_lt n hd
  unfold roundHalfEven at h ⊢
  dsimp only at h ⊢
  split at h
  · next hdown =>
    rw [if_pos hdown]
    omega
  · next hup =>
    rw [if_neg hup]
    rw [Nat.mul_add] at h
    omega

theorem nearestEven_roundHalfEven (n : Nat) {d : Nat} (hd : 0 < d) :
    NearestEven ((n : ℚ) / d) (roundHalfEven n d) := by
  have hcancel : (d : ℚ) * (n / d) = n := mul_div_cancel₀ _ (by exact_mod_cast hd.ne')
  refine .of_abs_sub_le ?_ fun htie => ?_
  · exact_mod_cast abs_roundHalfEven_sub_le n hd
  · rw [Int.cast_natCast, abs_eq (by norm_num)] at htie
    have heven : roundHalfEven n d % 2 = 0 := by
      refine roundHalfEven_even hd ?_
      rcases htie with htie | htie
      · have hup : (d : ℚ) * roundHalfEven n d - n = d * (1 / 2) := by
          rw [← htie, mul_sub, hcancel]
        have hup' : 2 * ((d : ℚ) * roundHalfEven n d) = 2 * n + d := by linarith
        exact Or.inl (by exact_mod_cast hup')
      · have hdown : (d : ℚ) * roundHalfEven n d - n = d * -(1 / 2) := by
          rw [← htie, mul_sub, hcancel]
        have hdown' : 2 * (n : ℚ) = 2 * (d * roundHalfEven n d) + d := by linarith
        exact Or.inr (by exact_mod_cast hdown')
    omega

namespace Binary64

variable {v w : Binary64}

/-! ## The hundredths of a double -/

theorem nearestEven_hundredths (v : Binary64) : NearestEven (100 * |v.value|) v.hundredths := by
  rw [abs_value, ← hundred_mul_magnitude]
  exact nearestEven_roundHalfEven _ v.zero_lt_denominator

/-- With their sign, the hundredths are the nearest integer to those of the double. -/
theorem exists_nearestEven_value (v : Binary64) :
    ∃ k : Int, NearestEven (100 * v.value) k ∧
      (Numeral.ofHundredths v.negative v.hundredths).value = k / 100 := by
  have hnearest := nearestEven_hundredths v
  rw [abs_value] at hnearest
  rw [Numeral.value_ofHundredths, value]
  cases v.negative with
  | true =>
    refine ⟨-v.hundredths, ?_, ?_⟩
    · rw [if_pos rfl, mul_neg]
      exact hnearest.neg
    · rw [if_pos rfl]
      push_cast
      ring
  | false =>
    refine ⟨v.hundredths, ?_, ?_⟩
    · rw [if_neg (by decide)]
      exact hnearest
    · rw [if_neg (by decide)]
      push_cast
      rfl

theorem value_ofHundredths_mono (h : v.value ≤ w.value) :
    (Numeral.ofHundredths v.negative v.hundredths).value ≤
      (Numeral.ofHundredths w.negative w.hundredths).value := by
  obtain ⟨k, hk, hvalue⟩ := exists_nearestEven_value v
  obtain ⟨l, hl, hvalue'⟩ := exists_nearestEven_value w
  have hle : (k : ℚ) ≤ l := by exact_mod_cast hk.mono hl (by linarith)
  rw [hvalue, hvalue']
  linarith

/-! ## The text -/

/-- A double is written as a sign, the digits of its whole part, a point and one or two places, all
of them those of the nearest number of hundredths. -/
structure WrittenTo (v : Binary64) (count : Nat) (whole places : List Char) : Prop where
  nearest : NearestEven (100 * |v.value|) count
  text_eq : v.toHundredths.text.toList =
    (if v.negative then ['-'] else []) ++ (whole ++ '.' :: places)
  whole_ne_nil : whole ≠ []
  isDigit_whole : ∀ c ∈ whole, c.isDigit = true
  noLeadingZero : ∀ digits, whole = '0' :: digits → digits = []
  digitsValue_whole : digitsValue whole = count / 100
  /-- A second place that is zero is left out. -/
  places_eq : ∃ tenths ones : Char, tenths.isDigit = true ∧ ones.isDigit = true ∧
    digitsValue [tenths, ones] = count % 100 ∧
    places = if ones = '0' then [tenths] else [tenths, ones]

theorem exists_fractionText (count : Nat) : ∃ tenths ones : Char,
    tenths.isDigit = true ∧ ones.isDigit = true ∧ digitsValue [tenths, ones] = count % 100 ∧
    (Hundredths.fractionText count).toList =
      if ones = '0' then [tenths] else [tenths, ones] := by
  have hdigit : ∀ d < 10, (Nat.digitChar d).isDigit = true ∧
      (Nat.digitChar d).toNat - '0'.toNat = d ∧ (Nat.digitChar d = '0' ↔ d = 0) := by decide
  have htenths : count % 100 / 10 < 10 := by omega
  have hones : count % 10 < 10 := by omega
  obtain ⟨hisDigit, hvalue, -⟩ := hdigit _ htenths
  obtain ⟨hisDigit', hvalue', hzero⟩ := hdigit _ hones
  refine ⟨Nat.digitChar (count % 100 / 10), Nat.digitChar (count % 10), hisDigit, hisDigit', ?_, ?_⟩
  · simp only [digitsValue, List.foldl_cons, List.foldl_nil, hvalue, hvalue']
    omega
  · rw [Hundredths.toList_fractionText, toList_repr_digit htenths, toList_repr_digit hones]
    simp only [hzero]
    split <;> rfl

theorem writtenTo_hundredths (hv : v.isFinite = true) :
    v.WrittenTo v.hundredths (natDigits (v.hundredths / 100))
      (Hundredths.fractionText v.hundredths).toList where
  nearest := nearestEven_hundredths v
  text_eq := by
    have hwhole : (Nat.repr (v.hundredths / 100)).toList = natDigits (v.hundredths / 100) :=
      Nat.toList_repr
    rw [toHundredths_of_isFinite hv, Hundredths.toList_text_finite, hwhole]
  whole_ne_nil := natDigits_ne_nil _
  isDigit_whole := fun _ => isDigit_of_mem_natDigits
  noLeadingZero := Numeral.noLeadingZero_ofHundredths v.negative v.hundredths
  digitsValue_whole := digitsValue_natDigits _
  places_eq := exists_fractionText v.hundredths

/-- The number that a text stands for. -/
def denoted? (text : String) : Option ℚ :=
  match ReadValue.read? text.toList with
  | some (.int i) => some i
  | some (.decimal n) => some n.value
  | _ => none

theorem denoted?_text_toHundredths (hv : v.isFinite = true) :
    denoted? v.toHundredths.text = some (Numeral.ofHundredths v.negative v.hundredths).value := by
  rw [denoted?, ReadValue.read?_text_toHundredths hv]

/-- The text of a finite double to two places is that of the nearest number of hundredths, ties to
even. It stands for a number that is half a hundredth away at most, and greater doubles have texts
that stand for greater numbers or the same. -/
theorem text_toHundredths_is_nearest {v : Binary64} (hv : v.isFinite = true) :
    (∃ count whole places, v.WrittenTo count whole places) ∧
    ∃ x, denoted? v.toHundredths.text = some x ∧ |x - v.value| ≤ 1 / 200 ∧
      ∀ w : Binary64, w.isFinite = true → v.value ≤ w.value →
        ∃ y, denoted? w.toHundredths.text = some y ∧ x ≤ y := by
  refine ⟨⟨_, _, _, writtenTo_hundredths hv⟩, _, denoted?_text_toHundredths hv,
    abs_value_ofHundredths_sub_le v, fun w hw hle => ?_⟩
  exact ⟨_, denoted?_text_toHundredths hw, value_ofHundredths_mono hle⟩

/-- An eighth is a tie and rounded down to the even twelve hundredths; a little less than ten is
rounded up, with a carry. -/
theorem text_toHundredths_is_nearest_of_eighth :
    let eighth : Binary64 := ⟨0x3fc0000000000000⟩
    let nearlyTen : Binary64 := ⟨0x4023ff7ced916873⟩
    eighth.isFinite = true ∧ nearlyTen.isFinite = true ∧ eighth.value ≤ nearlyTen.value ∧
      (∃ count whole places, eighth.WrittenTo count whole places) ∧
      ∃ x y, denoted? "0.12" = some x ∧ |x - eighth.value| ≤ 1 / 200 ∧
        denoted? "10.0" = some y ∧ x ≤ y := by
  intro eighth nearlyTen
  have hfinite : eighth.isFinite = true := by decide
  have hfinite' : nearlyTen.isFinite = true := by decide
  have htext : eighth.toHundredths.text = "0.12" := by decide +kernel
  have htext' : nearlyTen.toHundredths.text = "10.0" := by decide +kernel
  have hle : eighth.value ≤ nearlyTen.value := by
    have hpositive : eighth.negative = false ∧ nearlyTen.negative = false := by decide
    have hsignificand : eighth.significand = 4503599627370496 ∧
        nearlyTen.significand = 5628936584259699 := by decide +kernel
    have hexponent : eighth.exponent = -55 ∧ nearlyTen.exponent = -49 := by decide +kernel
    rw [value, value, magnitude, magnitude, hpositive.1, hpositive.2, hsignificand.1,
      hsignificand.2, hexponent.1, hexponent.2]
    norm_num
  obtain ⟨hwritten, x, hx, hclose, horder⟩ := text_toHundredths_is_nearest hfinite
  obtain ⟨y, hy, hxy⟩ := horder nearlyTen hfinite' hle
  rw [htext] at hx
  rw [htext'] at hy
  exact ⟨hfinite, hfinite', hle, hwritten, x, y, hx, hclose, hy, hxy⟩

end Binary64

end GraphPlan
