import FormLowering.Number.Binary64
import Mathlib.Tactic

/-!
# Natural numbers as binary64 numbers

Every natural number below `2 ^ 53` is a binary64 number: its significand fits
into 53 bits, so nothing is rounded.  Counts of fewer than `2 ^ 53` things are
therefore exact.  Above that bound ranks go on growing, so no larger number is
rounded down to a smaller one of these.
-/

namespace FormLowering

/-- A multiple of the denominator is divided without rounding. -/
theorem divNearest_mul {quotient denominator : Nat} (hPos : 0 < denominator) :
    divNearest (quotient * denominator) denominator = quotient := by
  simp [divNearest, Nat.mul_div_cancel _ hPos, hPos]

theorem div_le_divNearest (numerator denominator : Nat) :
    numerator / denominator ≤ divNearest numerator denominator := by
  simp only [divNearest]
  split
  · exact le_rfl
  · split <;> omega

theorem log2_mul_two_pow {value : Nat} (hPos : value ≠ 0) (shift : Nat) :
    (value * 2 ^ shift).log2 = value.log2 + shift := by
  have hScaled : value * 2 ^ shift ≠ 0 := by positivity
  rw [Nat.log2_eq_iff hScaled]
  constructor
  · rw [Nat.pow_add]
    exact Nat.mul_le_mul_right _ (Nat.log2_self_le hPos)
  · rw [show value.log2 + shift + 1 = value.log2 + 1 + shift by omega, Nat.pow_add]
    exact Nat.mul_lt_mul_of_pos_right Nat.lt_log2_self (by positivity)

/-- Cut off fifty-two places behind its leading bit, a number still has 53 bits. -/
theorem two_pow_le_div {value shift place : Nat} (hPos : value ≠ 0)
    (hPlace : 52 + place = value.log2 + shift) : 2 ^ 52 ≤ value * 2 ^ shift / 2 ^ place := by
  rw [Nat.le_div_iff_mul_le (Nat.two_pow_pos place), ← Nat.pow_add, hPlace, Nat.pow_add]
  exact Nat.mul_le_mul_right _ (Nat.log2_self_le hPos)

namespace Binary64

theorem unitsPerOne_eq : unitsPerOne = 2 ^ 1074 := by
  unfold unitsPerOne
  -- With the number in place, the two powers would be evaluated to be compared.
  generalize 1074 = exponent
  exact Nat.pow_eq

theorem unitsPerOne_pos : 0 < unitsPerOne := by
  rw [unitsPerOne_eq]
  positivity

theorem lastPlace_eq (rank : Nat) : lastPlace rank = rank / 2 ^ 52 - 1 := by
  rw [lastPlace, Nat.pow_eq]

theorem significand_eq (rank : Nat) : significand rank = rank - lastPlace rank * 2 ^ 52 := by
  rw [significand, Nat.pow_eq]

theorem units_eq (rank : Nat) : units rank = significand rank * 2 ^ lastPlace rank := by
  rw [units, Nat.pow_eq]

/-- The number of units in one, split at the last place of a significand. -/
theorem unitsPerOne_split {place : Nat} (hPlace : place ≤ 52) :
    unitsPerOne = 2 ^ (52 - place) * 2 ^ (place + 1022) := by
  have hTotal : 52 - place + (place + 1022) = 1074 := by omega
  rw [unitsPerOne_eq, ← Nat.pow_add, hTotal]

theorem log2_le_of_lt_two_pow {value : Nat} (hPos : value ≠ 0) (hBound : value < 2 ^ 53) :
    value.log2 ≤ 52 := by
  have hLog : value.log2 < 53 := (Nat.log2_lt hPos).mpr hBound
  omega

/-- The significand of a natural number below `2 ^ 53` has 53 bits. -/
theorem significand_bounds {value : Nat} (hPos : value ≠ 0) (hBound : value < 2 ^ 53) :
    2 ^ 52 ≤ value * 2 ^ (52 - value.log2) ∧ value * 2 ^ (52 - value.log2) < 2 ^ 53 := by
  have hLog := log2_le_of_lt_two_pow hPos hBound
  have hBelow : 2 ^ 52 = 2 ^ value.log2 * 2 ^ (52 - value.log2) := by
    rw [← Nat.pow_add]
    congr 1
    omega
  have hAbove : 2 ^ 53 = 2 ^ (value.log2 + 1) * 2 ^ (52 - value.log2) := by
    rw [← Nat.pow_add]
    congr 1
    omega
  rw [hAbove]
  constructor
  · rw [hBelow]
    exact Nat.mul_le_mul_right _ (Nat.log2_self_le hPos)
  · exact Nat.mul_lt_mul_of_pos_right Nat.lt_log2_self (by positivity)

/-- The place of a natural number, counted as for ranks. -/
theorem log2_scaled_sub {value : Nat} (hPos : value ≠ 0) :
    (value * unitsPerOne / 1).log2 - 52 = value.log2 + 1022 := by
  have hLog : (value * unitsPerOne).log2 = value.log2 + 1074 := by
    rw [unitsPerOne_eq, log2_mul_two_pow hPos]
  rw [Nat.div_one, hLog]
  omega

/-- The rank of a natural number below `2 ^ 53`, which is not rounded. -/
theorem nearestRank_natural {value : Nat} (hPos : value ≠ 0) (hBound : value < 2 ^ 53) :
    nearestRank value 1 =
      (value.log2 + 1022) * 2 ^ 52 + value * 2 ^ (52 - value.log2) := by
  have hSplit : value * unitsPerOne =
      value * 2 ^ (52 - value.log2) * (1 * 2 ^ (value.log2 + 1022)) := by
    rw [unitsPerOne_split (log2_le_of_lt_two_pow hPos hBound), Nat.one_mul, Nat.mul_assoc]
  have hExact : divNearest (value * unitsPerOne) (1 * 2 ^ (value.log2 + 1022)) =
      value * 2 ^ (52 - value.log2) := by
    rw [hSplit]
    exact divNearest_mul (Nat.mul_pos Nat.one_pos (Nat.two_pow_pos _))
  simp only [nearestRank, log2_scaled_sub hPos, Nat.pow_eq]
  rw [hExact]

/-- The rank of a natural number below `2 ^ 53` stands for the number itself. -/
theorem units_nearestRank {value : Nat} (hPos : value ≠ 0) (hBound : value < 2 ^ 53) :
    units (nearestRank value 1) = value * unitsPerOne := by
  obtain ⟨hLow, hHigh⟩ := significand_bounds hPos hBound
  have hPlace : lastPlace (nearestRank value 1) = value.log2 + 1022 := by
    rw [lastPlace_eq, nearestRank_natural hPos hBound]
    omega
  have hSignificand : significand (nearestRank value 1) = value * 2 ^ (52 - value.log2) := by
    rw [significand_eq, hPlace, nearestRank_natural hPos hBound]
    omega
  rw [units_eq, hPlace, hSignificand, unitsPerOne_split (log2_le_of_lt_two_pow hPos hBound),
    Nat.mul_assoc]

theorem nearestRank_natural_bounds {value : Nat} (hPos : value ≠ 0) (hBound : value < 2 ^ 53) :
    1022 * 2 ^ 52 < nearestRank value 1 ∧ nearestRank value 1 < 1076 * 2 ^ 52 := by
  obtain ⟨hLow, hHigh⟩ := significand_bounds hPos hBound
  have hLog := log2_le_of_lt_two_pow hPos hBound
  rw [nearestRank_natural hPos hBound]
  constructor <;> omega

/-- From `2 ^ 53` on, ranks are larger than those of all smaller numbers. -/
theorem le_nearestRank {value : Nat} (hBound : 2 ^ 53 ≤ value) :
    1076 * 2 ^ 52 ≤ nearestRank value 1 := by
  have hPos : value ≠ 0 := by
    rintro rfl
    omega
  have hLog : 53 ≤ value.log2 := (Nat.le_log2 hPos).mpr hBound
  -- The significand has at least 53 bits, also after rounding.
  have hQuotient : 2 ^ 52 ≤ value * unitsPerOne / (1 * 2 ^ (value.log2 + 1022)) := by
    rw [Nat.one_mul, unitsPerOne_eq]
    exact two_pow_le_div hPos (by omega)
  have hRounded := hQuotient.trans (div_le_divNearest _ _)
  simp only [nearestRank, log2_scaled_sub hPos, Nat.pow_eq]
  omega

/-- No other natural number rounds to a natural number below `2 ^ 53`. -/
theorem eq_of_nearestRank_eq {other value : Nat} (hPos : value ≠ 0) (hBound : value < 2 ^ 53)
    (hOther : other ≠ 0) (hRank : nearestRank other 1 = nearestRank value 1) :
    other = value := by
  -- Ranks from `2 ^ 53` on are too large, and below it nothing is rounded.
  have hBelow : other < 2 ^ 53 := by
    by_contra hAbove
    have hLarge := le_nearestRank (Nat.le_of_not_lt hAbove)
    have hSmall := (nearestRank_natural_bounds hPos hBound).2
    omega
  have hUnits : other * unitsPerOne = value * unitsPerOne := by
    rw [← units_nearestRank hPos hBound, ← hRank, units_nearestRank hOther hBelow]
  exact Nat.eq_of_mul_eq_mul_right unitsPerOne_pos hUnits

/-- A natural number below `2 ^ 53`, as a binary64 number. -/
theorem ofNat_natural {value : Nat} (hPos : value ≠ 0) (hBound : value < 2 ^ 53) :
    ∃ hRank : nearestRank value 1 < finiteMagnitudeCount,
      ofNat value = .finite false ⟨nearestRank value 1, hRank⟩ := by
  have hRank : nearestRank value 1 < finiteMagnitudeCount := by
    have hSmall := (nearestRank_natural_bounds hPos hBound).2
    rw [finiteMagnitudeCount, Nat.pow_eq]
    omega
  exact ⟨hRank, by simp [ofNat, ofRatio, hRank]⟩

theorem nearestRank_pos {value : Nat} (hPos : value ≠ 0) : 0 < nearestRank value 1 := by
  by_cases hBound : value < 2 ^ 53
  · have hLow := (nearestRank_natural_bounds hPos hBound).1
    omega
  · have hLarge := le_nearestRank (Nat.le_of_not_lt hBound)
    omega

/-- No integer but zero rounds to zero. -/
theorem isZero_ofInt (value : Int) : (ofInt value).isZero = (value == 0) := by
  by_cases hZero : value = 0
  · subst hZero
    decide +kernel
  · have hRank : nearestRank value.natAbs 1 ≠ 0 :=
      (nearestRank_pos (Int.natAbs_ne_zero.mpr hZero)).ne'
    rw [beq_eq_false_iff_ne.mpr hZero]
    by_cases hFinite : nearestRank value.natAbs 1 < finiteMagnitudeCount
    · simp only [ofInt, ofRatio, dif_pos hFinite]
      exact decide_eq_false hRank
    · simp only [ofInt, ofRatio, dif_neg hFinite]
      rfl

end Binary64

end FormLowering
