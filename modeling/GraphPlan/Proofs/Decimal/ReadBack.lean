import GraphPlan.Decimal.Numeral
import Mathlib.Algebra.Order.Field.Power
import Mathlib.Data.Int.Log
import Mathlib.Data.Rat.Floor
import Mathlib.Tactic.FieldSimp
import Mathlib.Tactic.Positivity
import Mathlib.Tactic.Ring

/-!
# The shortest digits read back

Rounding a ratio to a double depends on the ratio only, not on how it is written (`ofRatio_congr`),
and it gives back every double from its exact value (`ofRatio_exact`). Hence a zero more or less at
the end of a decimal makes no difference, and `Binary64.shortest` reads back as the double that it
was made from (`ofDecimal_shortest`), whichever of its grids was taken.
-/

namespace GraphPlan

/-! ## Rounding depends on the ratio -/

theorem roundHalfEven_mul_left {k : Nat} (hk : 0 < k) (n d : Nat) :
    roundHalfEven (k * n) (k * d) = roundHalfEven n d := by
  have hlt : 2 * (k * (n % d)) < k * d ↔ 2 * (n % d) < d := by
    rw [Nat.mul_left_comm]
    exact Nat.mul_lt_mul_left hk
  have heq : 2 * (k * (n % d)) = k * d ↔ 2 * (n % d) = d := by
    rw [Nat.mul_left_comm]
    exact Nat.mul_right_inj (by omega)
  unfold roundHalfEven
  dsimp only
  rw [Nat.mul_div_mul_left n d hk, Nat.mul_mod_mul_left]
  simp only [hlt, heq]

theorem roundHalfEven_congr {n d n' d' : Nat} (hd : 0 < d) (hd' : 0 < d') (h : n * d' = n' * d) :
    roundHalfEven n d = roundHalfEven n' d' := by
  calc roundHalfEven n d
      = roundHalfEven (d' * n) (d' * d) := (roundHalfEven_mul_left hd' n d).symm
    _ = roundHalfEven (d * n') (d * d') := by
      rw [Nat.mul_comm d' n, h, Nat.mul_comm n' d, Nat.mul_comm d' d]
    _ = roundHalfEven n' d' := roundHalfEven_mul_left hd n' d'

theorem roundHalfEven_mul_self {d : Nat} (hd : 0 < d) (m : Nat) :
    roundHalfEven (m * d) d = m := by
  unfold roundHalfEven
  dsimp only
  rw [Nat.mul_div_cancel m hd, Nat.mul_mod_left]
  exact if_pos (Or.inl (by omega))

/-- A power of two with an integer exponent, as a ratio of natural numbers. -/
theorem zpow_two_eq (k : Int) : (2 : ℚ) ^ k = 2 ^ k.toNat / 2 ^ (-k).toNat := by
  obtain ⟨m, rfl | rfl⟩ := k.eq_nat_or_neg
  · simp
  · simp

theorem zpow_two_le_div_iff {n d : Nat} (hd : 0 < d) (k : Int) :
    (2 : ℚ) ^ k ≤ n / d ↔ d * Nat.pow 2 k.toNat ≤ n * Nat.pow 2 (-k).toNat := by
  have hd' : (0 : ℚ) < d := by exact_mod_cast hd
  rw [zpow_two_eq, div_le_div_iff₀ (by positivity) hd', mul_comm]
  exact_mod_cast Iff.rfl

/-- A base two logarithm is determined by the powers on either side. -/
theorem log_two_eq {r : ℚ} (hr : 0 < r) {k : Int} (hlower : (2 : ℚ) ^ k ≤ r)
    (hupper : r < (2 : ℚ) ^ (k + 1)) : Int.log 2 r = k := by
  have hle := (Int.zpow_le_iff_le_log (b := 2) (by norm_num) hr).1 (by exact_mod_cast hlower)
  have hlt := (Int.lt_zpow_iff_log_lt (b := 2) (by norm_num) hr).1 (by exact_mod_cast hupper)
  omega

namespace Binary64

theorem floorLog2_eq_log {n d : Nat} (hn : 0 < n) (hd : 0 < d) :
    floorLog2 n d = Int.log 2 ((n : ℚ) / d) := by
  have hn' : (0 : ℚ) < n := by exact_mod_cast hn
  have hd' : (0 : ℚ) < d := by exact_mod_cast hd
  have hratio : (0 : ℚ) < n / d := by positivity
  have hnle : (2 : ℚ) ^ n.log2 ≤ n := by exact_mod_cast Nat.log2_self_le (by omega)
  have hnlt : (n : ℚ) < 2 ^ (n.log2 + 1) := by exact_mod_cast Nat.lt_log2_self
  have hdle : (2 : ℚ) ^ d.log2 ≤ d := by exact_mod_cast Nat.log2_self_le (by omega)
  have hdlt : (d : ℚ) < 2 ^ (d.log2 + 1) := by exact_mod_cast Nat.lt_log2_self
  -- the quotient lies between the powers next to the guess
  have hupper : (n : ℚ) / d < 2 ^ ((n.log2 : Int) - d.log2 + 1) := by
    rw [div_lt_iff₀ hd']
    calc (n : ℚ) < 2 ^ (n.log2 + 1) := hnlt
      _ = 2 ^ ((n.log2 : Int) - d.log2 + 1) * 2 ^ d.log2 := by
        rw [← zpow_natCast, ← zpow_natCast, ← zpow_add₀ (by norm_num)]
        congr 1
        push_cast
        ring
      _ ≤ 2 ^ ((n.log2 : Int) - d.log2 + 1) * d := by gcongr
  have hlower : (2 : ℚ) ^ ((n.log2 : Int) - d.log2 - 1) ≤ n / d := by
    rw [le_div_iff₀ hd']
    calc (2 : ℚ) ^ ((n.log2 : Int) - d.log2 - 1) * d
        ≤ 2 ^ ((n.log2 : Int) - d.log2 - 1) * 2 ^ (d.log2 + 1) := by gcongr
      _ = 2 ^ n.log2 := by
        rw [← zpow_natCast, ← zpow_natCast, ← zpow_add₀ (by norm_num)]
        congr 1
        push_cast
        ring
      _ ≤ n := hnle
  unfold floorLog2
  dsimp only
  split
  · next hguess =>
    exact (log_two_eq hratio ((zpow_two_le_div_iff hd _).2 hguess) hupper).symm
  · next hguess =>
    rw [← zpow_two_le_div_iff hd, not_le] at hguess
    refine (log_two_eq hratio hlower ?_).symm
    rw [sub_add_cancel]
    exact hguess

theorem ofRatio_congr (negative : Bool) {n d n' d' : Nat} (hd : 0 < d) (hd' : 0 < d')
    (h : n * d' = n' * d) : ofRatio negative n d = ofRatio negative n' d' := by
  by_cases hn : n = 0
  · have hn' : n' = 0 := by
      have hzero : n' * d = 0 := by rw [← h, hn, Nat.zero_mul]
      exact (Nat.mul_eq_zero.1 hzero).resolve_right (by omega)
    simp only [ofRatio, hn, hn', if_true]
  · have hn' : n' ≠ 0 := by
      rintro rfl
      rw [Nat.zero_mul] at h
      exact (Nat.mul_ne_zero hn (by omega)) h
    have hlog : floorLog2 n d = floorLog2 n' d' := by
      rw [floorLog2_eq_log (by omega) hd, floorLog2_eq_log (by omega) hd']
      congr 1
      have hdq : (d : ℚ) ≠ 0 := by exact_mod_cast (by omega : d ≠ 0)
      have hdq' : (d' : ℚ) ≠ 0 := by exact_mod_cast (by omega : d' ≠ 0)
      rw [div_eq_div_iff hdq hdq']
      exact_mod_cast h
    have hround : ∀ a b : Nat, roundHalfEven (n * Nat.pow 2 a) (d * Nat.pow 2 b) =
        roundHalfEven (n' * Nat.pow 2 a) (d' * Nat.pow 2 b) := by
      intro a b
      have hb : 0 < Nat.pow 2 b := Nat.pow_pos (by omega)
      refine roundHalfEven_congr (Nat.mul_pos hd hb) (Nat.mul_pos hd' hb) ?_
      calc n * Nat.pow 2 a * (d' * Nat.pow 2 b) = n * d' * (Nat.pow 2 a * Nat.pow 2 b) := by ring
        _ = n' * d * (Nat.pow 2 a * Nat.pow 2 b) := by rw [h]
        _ = n' * Nat.pow 2 a * (d * Nat.pow 2 b) := by ring
    unfold ofRatio
    rw [if_neg hn, if_neg hn']
    simp only [hlog, hround]

/-! ## The exact value -/

section Fields

variable {v : Binary64}

theorem fractionField_lt (v : Binary64) : v.fractionField < Nat.pow 2 52 :=
  Nat.mod_lt _ (by decide)

/-- The lower 63 bits of a value, from its significand and its exponent. -/
def magnitudeBits (v : Binary64) : Nat :=
  (v.exponent + 1074).toNat * Nat.pow 2 52 + v.significand

theorem magnitudeBits_eq (v : Binary64) :
    v.magnitudeBits = v.exponentField * Nat.pow 2 52 + v.fractionField := by
  unfold magnitudeBits exponent significand
  by_cases h : v.exponentField = 0
  · rw [if_pos h, h]
    simp
  · rw [if_neg h]
    have hexp : ((max v.exponentField 1 : Nat) - 1075 + 1074 : Int).toNat = v.exponentField - 1 := by
      omega
    obtain ⟨e, he⟩ := Nat.exists_eq_succ_of_ne_zero h
    rw [hexp, he]
    simp only [Nat.succ_eq_add_one, Nat.add_sub_cancel]
    ring

theorem ofMagnitudeBits_magnitudeBits (v : Binary64) :
    ofMagnitudeBits v.negative v.magnitudeBits = v := by
  have hbits := v.bits.toNat_lt
  rw [magnitudeBits_eq]
  unfold ofMagnitudeBits negative exponentField fractionField
  have hvalue : (if decide (Nat.pow 2 63 ≤ v.bits.toNat) = true then
      Nat.pow 2 63 + (v.bits.toNat / Nat.pow 2 52 % Nat.pow 2 11 * Nat.pow 2 52 +
        v.bits.toNat % Nat.pow 2 52)
      else v.bits.toNat / Nat.pow 2 52 % Nat.pow 2 11 * Nat.pow 2 52 +
        v.bits.toNat % Nat.pow 2 52) = v.bits.toNat := by
    simp only [decide_eq_true_eq, Nat.pow_eq]
    split <;> omega
  rw [hvalue, UInt64.ofNat_toNat]

theorem magnitudeBits_lt (h : v.isFinite = true) : v.magnitudeBits < infinityBits := by
  have hfraction := fractionField_lt v
  have hfield : v.exponentField < Nat.pow 2 11 := Nat.mod_lt _ (by decide)
  have hfinite : v.exponentField ≠ 2047 := by simpa [isFinite] using h
  rw [magnitudeBits_eq]
  unfold infinityBits
  simp only [Nat.pow_eq] at *
  omega

theorem significand_lt (v : Binary64) : v.significand < 2 ^ 53 := by
  have hfraction := fractionField_lt v
  unfold significand
  simp only [Nat.pow_eq] at *
  split <;> omega

theorem exponent_ge (v : Binary64) : -1074 ≤ v.exponent := by
  unfold exponent
  omega

theorem exponent_le (h : v.isFinite = true) : v.exponent ≤ 971 := by
  have hfield : v.exponentField < 2048 := Nat.mod_lt _ (by decide)
  have hfinite : v.exponentField ≠ 2047 := by simpa [isFinite] using h
  unfold exponent
  omega

/-- A value with a short significand has the least exponent. -/
theorem exponent_eq_of_lt (h : v.significand < 2 ^ 52) : v.exponent = -1074 := by
  unfold significand at h
  unfold exponent
  split at h
  · next hzero =>
    rw [hzero]
    rfl
  · simp only [Nat.pow_eq] at h
    omega

theorem zero_lt_denominator (v : Binary64) : 0 < v.denominator :=
  Nat.pow_pos (by omega)

theorem ratio_eq (v : Binary64) :
    (v.numerator : ℚ) / v.denominator = v.significand * 2 ^ v.exponent := by
  rw [zpow_two_eq]
  unfold numerator denominator
  simp only [Nat.pow_eq]
  push_cast
  ring

theorem floorLog2_value (h : v.significand ≠ 0) :
    floorLog2 v.numerator v.denominator = v.significand.log2 + v.exponent := by
  have hsig : (0 : ℚ) < v.significand := by exact_mod_cast (by omega : 0 < v.significand)
  have hpos : (0 : ℚ) < v.significand * 2 ^ v.exponent := by positivity
  have hle : (2 : ℚ) ^ v.significand.log2 ≤ v.significand := by
    exact_mod_cast Nat.log2_self_le h
  have hlt : (v.significand : ℚ) < 2 ^ (v.significand.log2 + 1) := by
    exact_mod_cast Nat.lt_log2_self
  have hnum : 0 < v.numerator := Nat.mul_pos (by omega) (Nat.pow_pos (by omega))
  rw [floorLog2_eq_log hnum v.zero_lt_denominator, ratio_eq]
  have hlower : (2 : ℚ) ^ ((v.significand.log2 : Int) + v.exponent) ≤
      v.significand * 2 ^ v.exponent := by
    rw [zpow_add₀ (by norm_num), zpow_natCast]
    gcongr
  have hupper : v.significand * (2 : ℚ) ^ v.exponent <
      2 ^ ((v.significand.log2 : Int) + v.exponent + 1) := by
    have hsplit : (v.significand.log2 : Int) + v.exponent + 1 =
        ((v.significand.log2 + 1 : Nat) : Int) + v.exponent := by
      push_cast
      ring
    rw [hsplit, zpow_add₀ (by norm_num), zpow_natCast]
    gcongr
  exact log_two_eq hpos hlower hupper

/-- Rounding gives a value if it finds the exponent and the significand of that value. -/
theorem ofRatio_of_fields (hfinite : v.isFinite = true) {n d : Nat} (hn : n ≠ 0)
    (hq : max (floorLog2 n d - 52) (-1074) = v.exponent)
    (hm : roundHalfEven (n * Nat.pow 2 (-v.exponent).toNat) (d * Nat.pow 2 v.exponent.toNat) =
      v.significand) : ofRatio v.negative n d = some v := by
  unfold ofRatio
  rw [if_neg hn]
  simp only [hq, hm]
  show (if v.magnitudeBits < infinityBits then
    some (ofMagnitudeBits v.negative v.magnitudeBits) else none) = some v
  rw [if_pos (magnitudeBits_lt hfinite), ofMagnitudeBits_magnitudeBits]

/-- A finite value other than zero is the double nearest to its exact value. -/
theorem ofRatio_exact (hfinite : v.isFinite = true) (h : v.significand ≠ 0) :
    ofRatio v.negative v.numerator v.denominator = some v := by
  have hnum : v.numerator ≠ 0 := Nat.mul_ne_zero h (Nat.pow_pos (by omega)).ne'
  have hq : max (floorLog2 v.numerator v.denominator - 52) (-1074) = v.exponent := by
    rw [floorLog2_value h]
    have hge := v.exponent_ge
    have hlog : v.significand.log2 < 53 := (Nat.log2_lt h).2 v.significand_lt
    by_cases hshort : v.significand < 2 ^ 52
    · have hexp := exponent_eq_of_lt hshort
      have hlog' : v.significand.log2 < 52 := (Nat.log2_lt h).2 hshort
      omega
    · have hlog' : 52 ≤ v.significand.log2 := (Nat.le_log2 h).2 (by omega)
      omega
  have hm : roundHalfEven (v.numerator * Nat.pow 2 (-v.exponent).toNat)
      (v.denominator * Nat.pow 2 v.exponent.toNat) = v.significand := by
    have hd : 0 < v.denominator * Nat.pow 2 v.exponent.toNat :=
      Nat.mul_pos v.zero_lt_denominator (Nat.pow_pos (by omega))
    have hexact : v.numerator * Nat.pow 2 (-v.exponent).toNat =
        v.significand * (v.denominator * Nat.pow 2 v.exponent.toNat) := by
      unfold numerator denominator
      ring
    rw [hexact, roundHalfEven_mul_self hd]
  exact ofRatio_of_fields hfinite hnum hq hm

/-- A value with no significand is one of the zeros. -/
theorem eq_zero_of_significand (h : v.significand = 0) :
    v = zero v.negative := by
  have hexp : v.exponent = -1074 := exponent_eq_of_lt (by rw [h]; norm_num)
  have hbits : v.magnitudeBits = 0 := by
    unfold magnitudeBits
    rw [h, hexp]
    rfl
  have hv := ofMagnitudeBits_magnitudeBits v
  rw [hbits] at hv
  exact hv.symm

end Fields

/-! ## Decimals -/

theorem decimalWidth_pos (n : Nat) : 0 < decimalWidth n :=
  Nat.length_toDigits_pos

theorem decimalWidth_le_iff {n k : Nat} (hk : 0 < k) : decimalWidth n ≤ k ↔ n < 10 ^ k :=
  Nat.length_toDigits_le_iff (by omega) hk

theorem decimalWidth_mul_ten {n : Nat} (hn : n ≠ 0) :
    decimalWidth (10 * n) = decimalWidth n + 1 := by
  unfold decimalWidth
  rw [Nat.toDigits_of_base_le (by omega) (by omega), Nat.mul_div_cancel_left n (by omega)]
  simp

theorem ofDecimal_of_top {negative : Bool} {n : Nat} {e : Int} (hn : n ≠ 0)
    (hupper : decimalWidth n + e ≤ 400) (hlower : -400 ≤ decimalWidth n + e) :
    ofDecimal negative n e = ofRatio negative (n * Nat.pow 10 e.toNat) (Nat.pow 10 (-e).toNat) := by
  unfold ofDecimal
  rw [if_neg hn]
  dsimp only
  rw [if_neg (by omega), if_neg (by omega)]

theorem ofDecimal_mul_ten (negative : Bool) (n : Nat) (e : Int) :
    ofDecimal negative (10 * n) e = ofDecimal negative n (e + 1) := by
  by_cases hn : n = 0
  · simp only [ofDecimal, hn, Nat.mul_zero, if_true]
  have hwidth := decimalWidth_mul_ten hn
  have hratio : ofRatio negative (10 * n * Nat.pow 10 e.toNat) (Nat.pow 10 (-e).toNat) =
      ofRatio negative (n * Nat.pow 10 (e + 1).toNat) (Nat.pow 10 (-(e + 1)).toNat) := by
    refine ofRatio_congr negative (Nat.pow_pos (by omega)) (Nat.pow_pos (by omega)) ?_
    simp only [Nat.pow_eq]
    -- only one of the two powers of ten is proper, and which one is the sign of the exponent
    by_cases he : 0 ≤ e
    · rw [show (-(e + 1)).toNat = 0 by omega, show (-e).toNat = 0 by omega,
        show (e + 1).toNat = e.toNat + 1 by omega, pow_succ]
      ring
    · rw [show e.toNat = 0 by omega, show (e + 1).toNat = 0 by omega,
        show (-e).toNat = (-(e + 1)).toNat + 1 by omega, pow_succ]
      ring
  have htop : ((decimalWidth (10 * n) : Nat) : Int) + e = decimalWidth n + (e + 1) := by omega
  unfold ofDecimal
  rw [if_neg (show 10 * n ≠ 0 by omega), if_neg hn]
  simp only [htop, hratio]

theorem ofDecimal_mul_pow (negative : Bool) (k n : Nat) (e : Int) :
    ofDecimal negative (10 ^ k * n) e = ofDecimal negative n (e + k) := by
  induction k generalizing n e with
  | zero => simp
  | succ k ih =>
    rw [show 10 ^ (k + 1) * n = 10 * (10 ^ k * n) by ring, ofDecimal_mul_ten, ih]
    congr 1
    push_cast
    ring

theorem ofDecimal_trimZeros (negative : Bool) (fuel : Nat) (d : ShortDecimal) :
    ofDecimal negative (d.trimZeros fuel).digits (d.trimZeros fuel).exponent =
      ofDecimal negative d.digits d.exponent := by
  induction fuel generalizing d with
  | zero => rfl
  | succ fuel ih =>
    unfold ShortDecimal.trimZeros
    split
    · next hzero =>
      rw [ih]
      dsimp only
      rw [← ofDecimal_mul_ten, Nat.mul_div_cancel' (Nat.dvd_of_mod_eq_zero hzero)]
    · rfl

section Shortest

variable {v : Binary64}

theorem two_pow_le_ten_pow {k m : Nat} (h : k ≤ 3 * m) : 2 ^ k ≤ 10 ^ m := by
  calc 2 ^ k ≤ 2 ^ (3 * m) := Nat.pow_le_pow_right (by omega) h
    _ = (2 ^ 3) ^ m := pow_mul 2 3 m
    _ ≤ 10 ^ m := Nat.pow_le_pow_left (by omega) m

theorem numerator_lt (hfinite : v.isFinite = true) : v.numerator < 10 ^ 400 := by
  have hle := exponent_le hfinite
  calc v.numerator < 2 ^ 53 * 2 ^ v.exponent.toNat :=
        Nat.mul_lt_mul_of_pos_right v.significand_lt (Nat.pow_pos (by omega))
    _ = 2 ^ (53 + v.exponent.toNat) := (pow_add 2 53 _).symm
    _ ≤ 10 ^ 400 := two_pow_le_ten_pow (by omega)

/-- All the digits of a value are within the exponents that are computed. -/
theorem exactDecimal_top (hfinite : v.isFinite = true) (h : v.significand ≠ 0) :
    decimalWidth v.exactDecimal.digits + v.exactDecimal.exponent ≤ 400 ∧
      -400 ≤ decimalWidth v.exactDecimal.digits + v.exactDecimal.exponent := by
  have hge := v.exponent_ge
  generalize hk : (-v.exponent).toNat = k
  have hdigits : v.exactDecimal.digits = v.numerator * 5 ^ k := by rw [← hk]; rfl
  have hexponent : v.exactDecimal.exponent = -(k : Int) := by rw [← hk]; rfl
  rw [hdigits, hexponent]
  constructor
  · have hlt : v.numerator * 5 ^ k < 10 ^ (400 + k) := by
      rw [pow_add]
      exact Nat.mul_lt_mul_of_lt_of_le (numerator_lt hfinite)
        (Nat.pow_le_pow_left (by omega) k) (by positivity)
    have hwidth := (decimalWidth_le_iff (by omega)).2 hlt
    omega
  · by_contra hshort
    have hpos := decimalWidth_pos (v.numerator * 5 ^ k)
    have hsmall : v.numerator * 5 ^ k < 10 ^ (k - 401) :=
      (decimalWidth_le_iff (by omega)).1 (by omega)
    have hnum : 0 < v.numerator := Nat.mul_pos (by omega) (Nat.pow_pos (by omega))
    have hfive : 5 ^ k < 10 ^ (k - 401) :=
      lt_of_le_of_lt (Nat.le_mul_of_pos_left _ hnum) hsmall
    have htwo : 2 ^ k ≤ 10 ^ 400 := two_pow_le_ten_pow (by omega)
    have hten : 10 ^ k < 10 ^ (k - 401) * 10 ^ 400 := by
      calc 10 ^ k = 5 ^ k * 2 ^ k := by rw [← Nat.mul_pow]
        _ < 10 ^ (k - 401) * 10 ^ 400 :=
          Nat.mul_lt_mul_of_lt_of_le hfive htwo (by positivity)
    rw [← pow_add] at hten
    have := (Nat.pow_lt_pow_iff_right (by omega)).1 hten
    omega

theorem ofDecimal_exactDecimal (hfinite : v.isFinite = true) (h : v.significand ≠ 0) :
    ofDecimal v.negative v.exactDecimal.digits v.exactDecimal.exponent = some v := by
  obtain ⟨hupper, hlower⟩ := exactDecimal_top hfinite h
  have hdigits : v.exactDecimal.digits ≠ 0 :=
    Nat.mul_ne_zero (Nat.mul_ne_zero h (Nat.pow_pos (by omega)).ne') (Nat.pow_pos (by omega)).ne'
  rw [ofDecimal_of_top hdigits hupper hlower, ← ofRatio_exact hfinite h]
  refine ofRatio_congr v.negative (Nat.pow_pos (by omega)) v.zero_lt_denominator ?_
  unfold exactDecimal denominator
  dsimp only
  generalize (-v.exponent).toNat = k
  simp only [Nat.pow_eq, Int.toNat_neg_natCast, neg_neg, Int.toNat_natCast]
  rw [show 10 ^ k = 5 ^ k * 2 ^ k by rw [← Nat.mul_pow]]
  ring

theorem ofDecimal_shortestFrom (hfinite : v.isFinite = true) (h : v.significand ≠ 0) (tie : Tie)
    (top : Int) (fuel : Nat) :
    ofDecimal v.negative (shortestFrom tie v top fuel).digits
      (shortestFrom tie v top fuel).exponent = some v := by
  induction fuel with
  | zero => exact ofDecimal_exactDecimal hfinite h
  | succ fuel ih =>
    unfold shortestFrom
    split
    · next d hd => exact eq_of_beq (readsBack_of_nearestOnGrid? hd)
    · exact ih

theorem ofDecimal_shortest (hfinite : v.isFinite = true) (h : v.significand ≠ 0) (tie : Tie) :
    ofDecimal v.negative (shortest tie v).digits (shortest tie v).exponent = some v := by
  unfold shortest
  rw [ofDecimal_trimZeros, ofDecimal_shortestFrom hfinite h]

end Shortest

end Binary64

/-! ## Numerals -/

theorem digitsValue_append_zeros (digits : List Char) (k : Nat) :
    digitsValue (digits ++ List.replicate k '0') = 10 ^ k * digitsValue digits := by
  induction k with
  | zero => simp
  | succ k ih =>
    rw [List.replicate_succ', ← List.append_assoc, digitsValue_append, ih, pow_succ]
    simp only [Nat.sub_self, Nat.add_zero]
    ring

theorem digitsValue_zeros_append (k : Nat) (digits : List Char) :
    digitsValue (List.replicate k '0' ++ digits) = digitsValue digits := by
  induction k with
  | zero => rfl
  | succ k ih => exact ih

namespace Layout

theorem toBinary64?_positional (negative : Bool) (d : ShortDecimal) :
    (positional negative d).toBinary64? = Binary64.ofDecimal negative d.digits d.exponent := by
  unfold positional Numeral.toBinary64?
  dsimp only
  split
  · next he =>
    have hdigits : natDigits d.digits ++ List.replicate d.exponent.toNat '0' ++ ['0'] =
        natDigits d.digits ++ List.replicate (d.exponent.toNat + 1) '0' := by
      rw [List.replicate_succ', List.append_assoc]
    simp only [Option.getD_none, List.length_singleton]
    rw [hdigits, digitsValue_append_zeros, digitsValue_natDigits, Binary64.ofDecimal_mul_pow]
    congr 1
    push_cast
    omega
  · next he =>
    split
    · next hplaces =>
      simp only [Option.getD_none, List.take_append_drop, digitsValue_natDigits, List.length_drop]
      congr 1
      omega
    · next hplaces =>
      have hdigits : ['0'] ++ (List.replicate ((-d.exponent).toNat - (natDigits d.digits).length) '0'
          ++ natDigits d.digits) =
          List.replicate ((-d.exponent).toNat - (natDigits d.digits).length + 1) '0'
            ++ natDigits d.digits := rfl
      simp only [Option.getD_none, List.length_append, List.length_replicate]
      rw [hdigits, digitsValue_zeros_append, digitsValue_natDigits]
      congr 1
      omega

theorem toBinary64?_scientific (negative : Bool) (d : ShortDecimal) :
    (scientific negative d).toBinary64? = Binary64.ofDecimal negative d.digits d.exponent := by
  have hlen : 0 < (natDigits d.digits).length := Nat.length_toDigits_pos
  unfold scientific Numeral.toBinary64? ShortDecimal.leadingExponent
  simp only [Option.getD_some, List.take_append_drop, digitsValue_natDigits, List.length_drop]
  congr 1
  show d.exponent + ((natDigits d.digits).length : Int) - 1 - _ = d.exponent
  omega

/-- A finite double is read back from its numeral, whatever the layout. -/
theorem toBinary64?_numeral (l : Layout) {v : Binary64} (hfinite : v.isFinite = true) :
    (l.numeral v).toBinary64? = some v := by
  unfold numeral
  by_cases hzero : v.significand = 0
  · rw [if_pos hzero]
    exact congrArg some (Binary64.eq_zero_of_significand hzero).symm
  · rw [if_neg hzero]
    dsimp only
    split
    · rw [toBinary64?_positional, Binary64.ofDecimal_shortest hfinite hzero]
    · rw [toBinary64?_scientific, Binary64.ofDecimal_shortest hfinite hzero]

end Layout

end GraphPlan
