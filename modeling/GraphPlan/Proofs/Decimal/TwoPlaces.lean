import GraphPlan.Proofs.Decimal.Texts
import Mathlib.Tactic.Linarith

/-!
# Reading two places back

A predicate of the algebra writes a double to two places. The text is the nearest number of
hundredths, so it is off by half a hundredth at most. It is read back as the double exactly if some
number of hundredths is (`ofDecimal_hundredths_iff`): a double near which hundredths are told apart
has one number of hundredths that could be read as it, and a larger one is so close to its nearest
number of hundredths that rounding finds it again.
-/

namespace GraphPlan

/-! ## The nearest natural number -/

theorem abs_roundHalfEven_sub_le (n : Nat) {d : Nat} (hd : 0 < d) :
    |(roundHalfEven n d : ℚ) - n / d| ≤ 1 / 2 := by
  have hd' : (0 : ℚ) < d := by exact_mod_cast hd
  have hcancel : (d : ℚ) * (n / d) = n := mul_div_cancel₀ _ hd'.ne'
  have hle : 2 * ((d : ℚ) * roundHalfEven n d) ≤ 2 * n + d := by
    exact_mod_cast roundHalfEven_le hd
  have hge : 2 * (n : ℚ) ≤ 2 * (d * roundHalfEven n d) + d := by
    exact_mod_cast le_roundHalfEven hd
  rw [abs_sub_le_iff]
  constructor
  · refine le_of_mul_le_mul_left ?_ hd'
    rw [mul_sub, hcancel]
    linarith
  · refine le_of_mul_le_mul_left ?_ hd'
    rw [mul_sub, hcancel]
    linarith

/-- A natural number less than half a unit away is the rounded quotient. -/
theorem roundHalfEven_of_near {n d k : Nat} (hd : 0 < d) (h : |(n : ℚ) / d - k| < 1 / 2) :
    roundHalfEven n d = k := by
  have hround := abs_roundHalfEven_sub_le n hd
  have hlt : |(roundHalfEven n d : ℚ) - k| < 1 := by
    calc |(roundHalfEven n d : ℚ) - k|
        ≤ |(roundHalfEven n d : ℚ) - n / d| + |(n : ℚ) / d - k| := abs_sub_le _ _ _
      _ < 1 := by linarith
  have hint : |(roundHalfEven n d : Int) - k| < 1 := by exact_mod_cast hlt
  have hzero := Int.abs_lt_one_iff.1 hint
  omega

namespace Binary64

/-- The exact value of a finite double, without its sign. -/
def magnitude (v : Binary64) : ℚ :=
  v.significand * 2 ^ v.exponent

/-- The exact value of a finite double. -/
def value (v : Binary64) : ℚ :=
  if v.negative then -v.magnitude else v.magnitude

/-! ## The double nearest to a ratio -/

section Nearest

variable {v : Binary64} {n d : Nat}

theorem toNat_bits_ofMagnitudeBits (negative : Bool) {bits : Nat} (h : bits < infinityBits) :
    (ofMagnitudeBits negative bits).bits.toNat = if negative then 2 ^ 63 + bits else bits := by
  have hlt : bits < 2047 * 2 ^ 52 := h
  have hsize : UInt64.size = 2 ^ 64 := rfl
  refine UInt64.toNat_ofNat_of_lt' ?_
  simp only [Nat.pow_eq]
  split <;> omega

theorem exponentField_ofMagnitudeBits (negative : Bool) {bits : Nat} (h : bits < infinityBits) :
    (ofMagnitudeBits negative bits).exponentField = bits / 2 ^ 52 := by
  have hlt : bits < 2047 * 2 ^ 52 := h
  rw [exponentField, toNat_bits_ofMagnitudeBits negative h]
  simp only [Nat.pow_eq]
  split <;> omega

theorem fractionField_ofMagnitudeBits (negative : Bool) {bits : Nat} (h : bits < infinityBits) :
    (ofMagnitudeBits negative bits).fractionField = bits % 2 ^ 52 := by
  rw [fractionField, toNat_bits_ofMagnitudeBits negative h]
  simp only [Nat.pow_eq]
  split <;> omega

/-- The lower bits of a significand at an exponent stand for their product. A significand that has
reached `2 ^ 53` carries into the exponent. -/
theorem magnitude_ofMagnitudeBits (negative : Bool) {q : Int} {m : Nat} (hq : -1074 ≤ q)
    (hle : m ≤ 2 ^ 53) (hge : 2 ^ 52 ≤ m ∨ q = -1074)
    (hlt : (q + 1074).toNat * Nat.pow 2 52 + m < infinityBits) :
    (ofMagnitudeBits negative ((q + 1074).toNat * Nat.pow 2 52 + m)).magnitude = m * 2 ^ q ∧
      q ≤ (ofMagnitudeBits negative ((q + 1074).toNat * Nat.pow 2 52 + m)).exponent := by
  have hexponent := exponentField_ofMagnitudeBits negative hlt
  have hfraction := fractionField_ofMagnitudeBits negative hlt
  simp only [Nat.pow_eq] at hexponent hfraction hlt ⊢
  unfold magnitude significand exponent
  rw [hexponent, hfraction]
  by_cases hcarry : m = 2 ^ 53
  · subst hcarry
    have hfield : ((q + 1074).toNat * 2 ^ 52 + 2 ^ 53) / 2 ^ 52 = (q + 1074).toNat + 2 := by omega
    have hzero : ((q + 1074).toNat * 2 ^ 52 + 2 ^ 53) % 2 ^ 52 = 0 := by omega
    have hnext : ((max ((q + 1074).toNat + 2) 1 : Nat) : Int) - 1075 = q + 1 := by omega
    rw [hfield, hzero, if_neg (by omega), hnext, zpow_add_one₀ (by norm_num)]
    refine ⟨?_, by omega⟩
    push_cast [Nat.pow_eq]
    ring
  · by_cases hshort : m < 2 ^ 52
    · have hq' : q = -1074 := hge.resolve_left (by omega)
      subst hq'
      have hfield : ((-1074 + 1074 : Int).toNat * 2 ^ 52 + m) / 2 ^ 52 = 0 := by omega
      have hsame : ((-1074 + 1074 : Int).toNat * 2 ^ 52 + m) % 2 ^ 52 = m := by omega
      rw [hfield, hsame, if_pos rfl]
      exact ⟨rfl, by omega⟩
    · have hfield : ((q + 1074).toNat * 2 ^ 52 + m) / 2 ^ 52 = (q + 1074).toNat + 1 := by omega
      have hrest : 2 ^ 52 + ((q + 1074).toNat * 2 ^ 52 + m) % 2 ^ 52 = m := by omega
      have hsame : ((max ((q + 1074).toNat + 1) 1 : Nat) : Int) - 1075 = q := by omega
      rw [hfield, if_neg (by omega), hsame, Nat.pow_eq, hrest]
      exact ⟨rfl, le_refl q⟩

/-- A quotient scaled by a power of two, as rounding computes it. -/
theorem scaled_eq (n d : Nat) (q : Int) :
    ((n * Nat.pow 2 (-q).toNat : Nat) : ℚ) / ((d * Nat.pow 2 q.toNat : Nat) : ℚ) =
      n / d / 2 ^ q := by
  rw [zpow_two_eq]
  simp only [Nat.pow_eq]
  push_cast
  rw [div_div_eq_mul_div, div_mul_eq_mul_div, div_div]

theorem abs_sub_mul_zpow (x m : ℚ) (q : Int) : |x - m * 2 ^ q| = |x / 2 ^ q - m| * 2 ^ q := by
  have hpos : (0 : ℚ) < 2 ^ q := by positivity
  nth_rewrite 3 [← abs_of_pos hpos]
  rw [← abs_mul, sub_mul, div_mul_cancel₀ _ hpos.ne']

/-- In units that are not too small a number is below `2 ^ 53`. -/
theorem div_zpow_lt {x : ℚ} {q : Int} (h : Int.log 2 x - 52 ≤ q) : x / 2 ^ q < 2 ^ 53 := by
  have hpos : (0 : ℚ) < 2 ^ q := by positivity
  have hlog := Int.lt_zpow_succ_log_self (b := 2) (by norm_num) x
  rw [div_lt_iff₀ hpos, ← zpow_natCast, ← zpow_add₀ (by norm_num)]
  refine lt_of_lt_of_le hlog (zpow_le_zpow_right₀ (by norm_num) ?_)
  push_cast
  omega

/-- In units that are not too large a number is at least `2 ^ 52`. -/
theorem le_div_zpow {x : ℚ} (hx : 0 < x) {q : Int} (h : q ≤ Int.log 2 x - 52) :
    2 ^ 52 ≤ x / 2 ^ q := by
  have hpos : (0 : ℚ) < 2 ^ q := by positivity
  have hlog := Int.zpow_log_le_self (b := 2) (by norm_num) hx
  rw [le_div_iff₀ hpos, ← zpow_natCast, ← zpow_add₀ (by norm_num)]
  refine le_trans (zpow_le_zpow_right₀ (by norm_num) ?_) hlog
  push_cast
  omega

/-- Rounding is off by half a unit in the last place at most. -/
theorem ofRatio_near {negative : Bool} (hn : 0 < n) (hd : 0 < d)
    (h : ofRatio negative n d = some v) :
    |(n : ℚ) / d - v.magnitude| ≤ 2 ^ v.exponent / 2 := by
  have hratio : (0 : ℚ) < n / d := by positivity
  unfold ofRatio at h
  rw [if_neg (by omega)] at h
  dsimp only at h
  generalize hq : max (floorLog2 n d - 52) (-1074) = q at h
  rw [floorLog2_eq_log hn hd] at hq
  have hunit : 0 < d * Nat.pow 2 q.toNat := Nat.mul_pos hd (Nat.pow_pos (by omega))
  have hround := abs_roundHalfEven_sub_le (n * Nat.pow 2 (-q).toNat) hunit
  rw [scaled_eq] at hround
  generalize roundHalfEven (n * Nat.pow 2 (-q).toNat) (d * Nat.pow 2 q.toNat) = m at h hround
  obtain ⟨hover, hunder⟩ := abs_sub_le_iff.1 hround
  split at h
  · next hlt =>
    cases h
    have hle : m ≤ 2 ^ 53 := by
      have hupper : (n : ℚ) / d / 2 ^ q < 2 ^ 53 := div_zpow_lt (by omega)
      have hm : (m : ℚ) < 2 ^ 53 + 1 := by linarith
      have hm' : m < 2 ^ 53 + 1 := by exact_mod_cast hm
      omega
    have hge : 2 ^ 52 ≤ m ∨ q = -1074 := by
      by_cases hleast : q = -1074
      · exact Or.inr hleast
      · have hlower : (2 : ℚ) ^ 52 ≤ n / d / 2 ^ q := le_div_zpow hratio (by omega)
        have hm : (2 : ℚ) ^ 52 < m + 1 := by linarith
        have hm' : 2 ^ 52 < m + 1 := by exact_mod_cast hm
        exact Or.inl (by omega)
    obtain ⟨hvalue, hexponent⟩ :=
      magnitude_ofMagnitudeBits negative (by omega) hle hge hlt
    rw [hvalue, abs_sub_mul_zpow, abs_sub_comm]
    calc |(m : ℚ) - n / d / 2 ^ q| * 2 ^ q
        ≤ 1 / 2 * 2 ^ q := mul_le_mul_of_nonneg_right hround (by positivity)
      _ ≤ 1 / 2 * 2 ^ (ofMagnitudeBits negative _).exponent :=
          mul_le_mul_of_nonneg_left (zpow_le_zpow_right₀ (by norm_num) hexponent) (by norm_num)
      _ = 2 ^ (ofMagnitudeBits negative _).exponent / 2 := by ring
  · cases h

/-- A quotient that is less than half a unit in the last place away from a value is rounded to it.
The least significand is left out, since below it the units are smaller. -/
theorem ofRatio_of_near (hfinite : v.isFinite = true) (hs : 2 ^ 52 < v.significand) (hd : 0 < d)
    (h : |(n : ℚ) / d - v.magnitude| < 2 ^ v.exponent / 2) : ofRatio v.negative n d = some v := by
  have hpos : (0 : ℚ) < 2 ^ v.exponent := by positivity
  have hmin : (2 : ℚ) ^ 52 + 1 ≤ v.significand := by exact_mod_cast hs
  have hmax : (v.significand : ℚ) + 1 ≤ 2 ^ 53 := by exact_mod_cast v.significand_lt
  have hnear := abs_sub_lt_iff.1 h
  unfold magnitude at hnear
  have hlower : (2 : ℚ) ^ (v.exponent + 52) ≤ n / d := by
    have hunits : ((2 : ℚ) ^ 52 + 1) * 2 ^ v.exponent ≤ v.significand * 2 ^ v.exponent :=
      mul_le_mul_of_nonneg_right hmin hpos.le
    calc (2 : ℚ) ^ (v.exponent + 52) = 2 ^ 52 * 2 ^ v.exponent := by
          rw [zpow_add₀ (by norm_num), mul_comm]
          norm_num
      _ ≤ n / d := by linarith [hnear.2]
  have hupper : (n : ℚ) / d < 2 ^ (v.exponent + 52 + 1) := by
    have hunits : ((v.significand : ℚ) + 1) * 2 ^ v.exponent ≤ 2 ^ 53 * 2 ^ v.exponent :=
      mul_le_mul_of_nonneg_right hmax hpos.le
    calc (n : ℚ) / d < 2 ^ 53 * 2 ^ v.exponent := by linarith [hnear.1]
      _ = 2 ^ (v.exponent + 52 + 1) := by
        rw [add_assoc, zpow_add₀ (by norm_num), mul_comm]
        norm_num
  have hratio : (0 : ℚ) < n / d := lt_of_lt_of_le (by positivity) hlower
  have hn : n ≠ 0 := by
    rintro rfl
    simp at hratio
  refine ofRatio_of_fields hfinite hn ?_ (roundHalfEven_of_near ?_ ?_)
  · rw [floorLog2_eq_log (by omega) hd, log_two_eq hratio hlower hupper]
    have hge := v.exponent_ge
    omega
  · exact Nat.mul_pos hd (Nat.pow_pos (by omega))
  · rw [scaled_eq]
    rw [magnitude, abs_sub_mul_zpow] at h
    exact lt_of_mul_lt_mul_right (h.trans_eq (by ring)) hpos.le

end Nearest

/-! ## Hundredths -/

section Hundredths

variable {v : Binary64}

/-- The nearest number of hundredths, without the sign. -/
def hundredths (v : Binary64) : Nat :=
  roundHalfEven (100 * v.numerator) v.denominator

theorem toHundredths_of_isFinite (h : v.isFinite = true) :
    v.toHundredths = .finite v.negative v.hundredths := by
  unfold toHundredths
  rw [if_pos h]
  rfl

theorem hundred_mul_magnitude (v : Binary64) :
    ((100 * v.numerator : Nat) : ℚ) / v.denominator = 100 * v.magnitude := by
  rw [magnitude, ← ratio_eq]
  push_cast
  rw [mul_div_assoc]

/-- The nearest number of hundredths is off by half a hundredth at most. -/
theorem abs_hundredths_sub_le (v : Binary64) :
    |(v.hundredths : ℚ) / 100 - v.magnitude| ≤ 1 / 200 := by
  have hround := abs_roundHalfEven_sub_le (100 * v.numerator) v.zero_lt_denominator
  rw [hundred_mul_magnitude, abs_sub_le_iff] at hround
  unfold hundredths
  rw [abs_sub_le_iff]
  constructor <;> linarith [hround.1, hround.2]

theorem hundredths_eq {count : Nat} (h : 100 * v.magnitude = count) : v.hundredths = count := by
  refine roundHalfEven_of_near v.zero_lt_denominator ?_
  rw [hundred_mul_magnitude, h, sub_self, abs_zero]
  norm_num

theorem hundredths_of_significand (h : v.significand = 0) : v.hundredths = 0 :=
  hundredths_eq (by rw [magnitude, h]; simp)

theorem hundredths_le (v : Binary64) : v.hundredths ≤ 100 * v.numerator := by
  have hd := v.zero_lt_denominator
  have hround : 2 * (v.denominator * v.hundredths) ≤ 2 * (100 * v.numerator) + v.denominator :=
    roundHalfEven_le hd
  by_contra hlarge
  have hmul : v.denominator * (100 * v.numerator + 1) ≤ v.denominator * v.hundredths :=
    Nat.mul_le_mul_left _ (by omega)
  have hone : 100 * v.numerator ≤ v.denominator * (100 * v.numerator) :=
    Nat.le_mul_of_pos_left _ hd
  rw [Nat.mul_add] at hmul
  omega

theorem hundredths_lt (hfinite : v.isFinite = true) : v.hundredths < 10 ^ 402 := by
  calc v.hundredths ≤ 10 ^ 2 * v.numerator := v.hundredths_le
    _ < 10 ^ 2 * 10 ^ 400 := Nat.mul_lt_mul_of_pos_left (numerator_lt hfinite) (by omega)
    _ = 10 ^ 402 := by rw [← pow_add]

theorem significand_zero (negative : Bool) : (zero negative).significand = 0 := by
  cases negative <;> rfl

/-- A number of hundredths is read as a ratio. -/
theorem ofDecimal_eq_ofRatio {negative : Bool} {count : Nat} (hne : count ≠ 0)
    (hlt : count < 10 ^ 402) : ofDecimal negative count (-2) = ofRatio negative count 100 := by
  have hwidth := (decimalWidth_le_iff (by omega)).2 hlt
  rw [ofDecimal_of_top hne (by omega) (by omega)]
  show ofRatio negative (count * 1) 100 = _
  rw [Nat.mul_one]

theorem ofRatio_of_ofDecimal {negative : Bool} {count : Nat} (hne : count ≠ 0)
    (h : ofDecimal negative count (-2) = some v) : ofRatio negative count 100 = some v := by
  by_cases hwidth : (decimalWidth count : Int) + -2 ≤ 400
  · rw [ofDecimal_of_top hne hwidth (by omega)] at h
    rwa [show count = count * Nat.pow 10 (-2 : Int).toNat from (Nat.mul_one count).symm]
  · unfold ofDecimal at h
    rw [if_neg hne] at h
    dsimp only at h
    rw [if_pos (by omega)] at h
    cases h

/-- A double that is a whole number of hundredths is read back from it. -/
theorem ofRatio_hundredths_of_eq (hfinite : v.isFinite = true) (hs : v.significand ≠ 0)
    (h : (v.hundredths : ℚ) / 100 = v.magnitude) :
    ofRatio v.negative v.hundredths 100 = some v := by
  rw [← ofRatio_exact hfinite hs]
  refine ofRatio_congr v.negative (by omega) v.zero_lt_denominator ?_
  have hd : (v.denominator : ℚ) ≠ 0 := by exact_mod_cast v.zero_lt_denominator.ne'
  rw [magnitude, ← ratio_eq, div_eq_div_iff (by norm_num) hd] at h
  exact_mod_cast h

/-- If a double is read from a number of hundredths that is not its nearest one, then its units are
at least a hundredth, as two numbers of hundredths are that far apart. -/
theorem hundredth_le_unit {count : Nat} (hne : count ≠ 0)
    (h : ofRatio v.negative count 100 = some v) (hother : v.hundredths ≠ count) :
    (1 : ℚ) / 100 ≤ 2 ^ v.exponent := by
  have hclose := abs_hundredths_sub_le v
  have hcount := ofRatio_near (by omega) (by omega) h
  push_cast at hcount
  have hapart : (1 : ℚ) / 100 ≤ |(v.hundredths : ℚ) / 100 - (count : ℚ) / 100| := by
    have hint : 1 ≤ |(v.hundredths : Int) - count| := Int.one_le_abs (by omega)
    have hrat : (1 : ℚ) ≤ |(v.hundredths : ℚ) - count| := by exact_mod_cast hint
    rw [← sub_div, abs_div, abs_of_pos (by norm_num : (0 : ℚ) < 100)]
    exact div_le_div_of_nonneg_right hrat (by norm_num)
  have htriangle := abs_sub_le ((v.hundredths : ℚ) / 100) v.magnitude ((count : ℚ) / 100)
  rw [abs_sub_comm v.magnitude] at htriangle
  linarith

/-- The hundredths of a whole number. -/
theorem hundredths_div_of_whole {k : Nat} (h : v.magnitude = k) :
    (v.hundredths : ℚ) / 100 = v.magnitude := by
  have hcount : v.hundredths = 100 * k := hundredths_eq (by rw [h]; push_cast; rfl)
  rw [hcount, h]
  push_cast
  ring

/-- If a double is read from some number of hundredths, then it is read from the nearest one. -/
theorem ofRatio_hundredths {count : Nat} (hfinite : v.isFinite = true) (hne : count ≠ 0)
    (h : ofRatio v.negative count 100 = some v) : ofRatio v.negative v.hundredths 100 = some v := by
  by_cases heq : v.hundredths = count
  · rw [heq, h]
  have hunit := hundredth_le_unit hne h heq
  have hexponent : -6 ≤ v.exponent := by
    by_contra hsmall
    have hle : (2 : ℚ) ^ v.exponent ≤ 2 ^ (-7 : Int) :=
      zpow_le_zpow_right₀ (by norm_num) (by omega)
    norm_num at hle
    linarith
  have hs : 2 ^ 52 ≤ v.significand := by
    by_contra hshort
    have hleast := exponent_eq_of_lt (by omega : v.significand < 2 ^ 52)
    omega
  rcases Nat.eq_or_lt_of_le hs with hpower | hlarge
  · -- a power of two of this size is a whole number
    have hwhole : v.magnitude = ((2 ^ (52 + v.exponent).toNat : Nat) : ℚ) := by
      have hsum : ((52 + v.exponent).toNat : Int) = 52 + v.exponent := by omega
      rw [magnitude, ← hpower]
      push_cast
      rw [← zpow_natCast 2 (52 + v.exponent).toNat, hsum, zpow_add₀ (by norm_num)]
      norm_num
    exact ofRatio_hundredths_of_eq hfinite (by omega) (hundredths_div_of_whole hwhole)
  · refine ofRatio_of_near hfinite hlarge (by omega) ?_
    have hclose := abs_hundredths_sub_le v
    have hle : (2 : ℚ) ^ (-6 : Int) ≤ 2 ^ v.exponent :=
      zpow_le_zpow_right₀ (by norm_num) hexponent
    norm_num at hle
    push_cast
    linarith

/-- The nearest number of hundredths is read back as the double if any number of hundredths is. -/
theorem ofDecimal_hundredths_iff (hfinite : v.isFinite = true) :
    ofDecimal v.negative v.hundredths (-2) = some v ↔
      ∃ count, ofDecimal v.negative count (-2) = some v := by
  constructor
  · exact fun h => ⟨_, h⟩
  · rintro ⟨count, h⟩
    by_cases hs : v.significand = 0
    · rw [hundredths_of_significand hs, ofDecimal, if_pos rfl, ← eq_zero_of_significand hs]
    · have hv : v ≠ zero v.negative := by
        intro hzero
        rw [hzero, significand_zero] at hs
        exact hs rfl
      have hne : count ≠ 0 := by
        rintro rfl
        exact hv (Option.some.inj h).symm
      have hread := ofRatio_hundredths hfinite hne (ofRatio_of_ofDecimal hne h)
      have hne' : v.hundredths ≠ 0 := by
        intro hzero
        rw [hzero] at hread
        exact hv (Option.some.inj hread).symm
      rw [ofDecimal_eq_ofRatio hne' (hundredths_lt hfinite), hread]

end Hundredths

end Binary64

/-! ## The text of hundredths as a numeral -/

namespace Numeral

/-- The exact value of a numeral. -/
def value (n : Numeral) : ℚ :=
  let magnitude : ℚ :=
    digitsValue (n.whole ++ n.fraction) * 10 ^ (n.exponent.getD 0 - n.fraction.length)
  if n.negative then -magnitude else magnitude

/-- The numeral of a number of hundredths, with one or two places. -/
def ofHundredths (negative : Bool) (count : Nat) : Numeral :=
  ⟨negative, natDigits (count / 100), (Hundredths.fractionText count).toList, none⟩

theorem toList_text_finite_eq (negative : Bool) (count : Nat) :
    (Hundredths.finite negative count).text.toList =
      ((ofHundredths negative count).text false).toList := by
  have hfraction : fractionChars (Hundredths.fractionText count).toList =
      '.' :: (Hundredths.fractionText count).toList := by
    rw [Hundredths.toList_fractionText, toList_repr_digit (by omega)]
    rfl
  rw [Hundredths.toList_text_finite, toList_text]
  show _ = (if negative then ['-'] else []) ++ (natDigits (count / 100) ++
    (fractionChars (Hundredths.fractionText count).toList ++ []))
  rw [hfraction, List.append_nil]
  rw [show (Nat.repr (count / 100)).toList = natDigits (count / 100) from Nat.toList_repr]

theorem wellFormed_ofHundredths (negative : Bool) (count : Nat) :
    (ofHundredths negative count).WellFormed where
  whole_ne_nil := natDigits_ne_nil _
  isDigit_whole := fun _ => isDigit_of_mem_natDigits
  isDigit_fraction := fun _ => Hundredths.isDigit_of_mem_fractionText

/-- With one place the digits are those of the tenths, with two those of the hundredths. -/
theorem digits_ofHundredths (count : Nat) :
    (count % 10 = 0 ∧ (Hundredths.fractionText count).toList.length = 1 ∧
      digitsValue (natDigits (count / 100) ++ (Hundredths.fractionText count).toList) =
        count / 10) ∨
    ((Hundredths.fractionText count).toList.length = 2 ∧
      digitsValue (natDigits (count / 100) ++ (Hundredths.fractionText count).toList) =
        count) := by
  have hdigit : ∀ d < 10, (Nat.digitChar d).toNat - '0'.toNat = d := by decide
  have htenths : count % 100 / 10 < 10 := by omega
  have hones : count % 10 < 10 := by omega
  rw [Hundredths.toList_fractionText, toList_repr_digit htenths, toList_repr_digit hones]
  by_cases hzero : count % 10 = 0
  · rw [if_pos hzero, List.append_nil, digitsValue_append, digitsValue_natDigits, hdigit _ htenths]
    exact Or.inl ⟨hzero, rfl, by omega⟩
  · rw [if_neg hzero, ← List.append_assoc, digitsValue_append, digitsValue_append,
      digitsValue_natDigits, hdigit _ htenths, hdigit _ hones]
    exact Or.inr ⟨rfl, by omega⟩

theorem toBinary64?_ofHundredths (negative : Bool) (count : Nat) :
    (ofHundredths negative count).toBinary64? = Binary64.ofDecimal negative count (-2) := by
  unfold toBinary64? ofHundredths
  dsimp only
  rcases digits_ofHundredths count with ⟨hzero, hlength, hdigits⟩ | ⟨hlength, hdigits⟩
  · have hcount : count = 10 * (count / 10) := by omega
    rw [hlength, hdigits]
    nth_rewrite 2 [hcount]
    rw [Binary64.ofDecimal_mul_ten]
    rfl
  · rw [hlength, hdigits]
    rfl

theorem value_ofHundredths (negative : Bool) (count : Nat) :
    (ofHundredths negative count).value =
      if negative then -((count : ℚ) / 100) else (count : ℚ) / 100 := by
  have hmagnitude : ((digitsValue (natDigits (count / 100) ++
      (Hundredths.fractionText count).toList) : Nat) : ℚ) *
        10 ^ ((0 : Int) - (Hundredths.fractionText count).toList.length) = count / 100 := by
    rcases digits_ofHundredths count with ⟨hzero, hlength, hdigits⟩ | ⟨hlength, hdigits⟩
    · have hcount : (count : ℚ) = 10 * ((count / 10 : Nat) : ℚ) := by
        exact_mod_cast (by omega : count = 10 * (count / 10))
      rw [hlength, hdigits, hcount]
      norm_num
      ring
    · rw [hlength, hdigits]
      norm_num
      ring
  unfold value ofHundredths
  dsimp only [Option.getD_none]
  rw [hmagnitude]

end Numeral

end GraphPlan
