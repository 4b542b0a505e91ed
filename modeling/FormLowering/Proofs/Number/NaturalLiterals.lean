import FormLowering.Number.Literal
import FormLowering.Proofs.Number.NaturalRanks

/-!
# Literals of natural numbers

A natural number below `2 ^ 53` is written with all its digits, a point and a
zero: `shortestText_ofNat`.  The search for the shortest decimal may stop before
the last digit, but only at a decimal that stands for the number itself, since
no other natural number reads back as it.
-/

namespace FormLowering

/-- Multiplying by a power of ten appends zeros to the digits. -/
theorem toDigits_mul_ten_pow {number : Nat} (hPos : number ≠ 0) (zeros : Nat) :
    Nat.toDigits 10 (number * 10 ^ zeros) =
      Nat.toDigits 10 number ++ List.replicate zeros '0' := by
  induction zeros with
  | zero => simp
  | succ zeros ih =>
      have hNext : number * 10 ^ (zeros + 1) = 10 * (number * 10 ^ zeros) + 0 := by ring
      have hLower : 0 < number * 10 ^ zeros := by positivity
      rw [hNext, ← Nat.toDigits_append_toDigits (by decide) hLower (by decide), ih,
        Nat.toDigits_zero, List.append_assoc, ← List.replicate_succ']

theorem digitCount_mul_ten_pow {number : Nat} (hPos : number ≠ 0) (zeros : Nat) :
    digitCount (number * 10 ^ zeros) = digitCount number + zeros := by
  simp [digitCount, toDigits_mul_ten_pow hPos]

/-- The largest count of digits of a natural number below `2 ^ 53`. -/
theorem digitCount_le_of_lt {number : Nat} (hBound : number < 2 ^ 53) :
    1 ≤ digitCount number ∧ digitCount number ≤ 16 := by
  constructor
  · exact Nat.length_toDigits_pos
  · rw [digitCount, Nat.length_toDigits_le_iff (by decide) (by decide)]
    omega

namespace Binary64

/-- The trailing zeros that are left out can be put back. -/
theorem toDigits_eq_significantDigits (number : Nat) :
    ∃ zeros, Nat.toDigits 10 number = significantDigits number ++ List.replicate zeros '0' := by
  have hZeros : ∀ digit ∈ (Nat.toDigits 10 number).reverse.takeWhile (· = '0'), digit = '0' := by
    intro digit hMem
    simpa using List.all_eq_true.mp (List.all_takeWhile) digit hMem
  refine ⟨((Nat.toDigits 10 number).reverse.takeWhile (· = '0')).length, ?_⟩
  calc Nat.toDigits 10 number
      = ((Nat.toDigits 10 number).reverse.takeWhile (· = '0')
          ++ (Nat.toDigits 10 number).reverse.dropWhile (· = '0')).reverse := by
        rw [List.takeWhile_append_dropWhile, List.reverse_reverse]
    _ = significantDigits number
          ++ ((Nat.toDigits 10 number).reverse.takeWhile (· = '0')).reverse := by
        rw [List.reverse_append, significantDigits]
    _ = significantDigits number ++ List.replicate _ '0' := by
        rw [List.eq_replicate_of_mem hZeros, List.reverse_replicate, List.length_replicate]

/-- A decimal that reads back as a natural number below `2 ^ 53` is that number,
unless it has digits behind the point. -/
theorem eq_of_rankOfDecimal_eq {coefficient exponent value : Nat} (hPos : value ≠ 0)
    (hBound : value < 2 ^ 53)
    (hRank : rankOfDecimal ⟨coefficient, exponent⟩ = nearestRank value 1) :
    coefficient * 10 ^ exponent = value := by
  obtain ⟨hLow, hHigh⟩ := nearestRank_natural_bounds hPos hBound
  rw [rankOfDecimal] at hRank
  simp only [Int.natCast_nonneg, if_true, Int.toNat_natCast, Nat.pow_eq] at hRank
  split at hRank
  · omega
  · rename_i hNonzero
    split at hRank
    · rw [finiteMagnitudeCount, Nat.pow_eq] at hRank
      omega
    · -- The power of ten is multiplied out before it is rounded.
      have hCoefficient : coefficient ≠ 0 := by
        rintro rfl
        simp at hNonzero
      exact eq_of_nearestRank_eq hPos hBound (by positivity) hRank

/-- A natural number below `2 ^ 53` is read from all its digits. -/
theorem rankOfDecimal_natural {value : Nat} (hPos : value ≠ 0) (hBound : value < 2 ^ 53) :
    rankOfDecimal ⟨value, 0⟩ = nearestRank value 1 := by
  obtain ⟨hLow, hHigh⟩ := digitCount_le_of_lt hBound
  rw [rankOfDecimal]
  simp only [hPos, decide_false, Bool.false_or, decide_eq_true_eq, le_refl, if_true,
    Int.toNat_zero, Nat.pow_eq, pow_zero, mul_one]
  rw [if_neg (by omega), if_neg (by omega)]

/-- A grid without digits behind the point holds no decimal that reads back, but
for the number itself. -/
theorem onGrid?_natural {value exponent : Nat} (hPos : value ≠ 0) (hBound : value < 2 ^ 53)
    {decimal : Decimal} (hFound : onGrid? (nearestRank value 1) exponent = some decimal) :
    decimal.exponent = exponent ∧ decimal.coefficient * 10 ^ exponent = value := by
  rw [onGrid?] at hFound
  have hMem := List.mem_of_find?_eq_some hFound
  have hRank := List.find?_some hFound
  simp only [List.mem_map, decide_eq_true_eq] at hMem hRank
  obtain ⟨coefficient, -, rfl⟩ := hMem
  exact ⟨rfl, eq_of_rankOfDecimal_eq hPos hBound hRank⟩

/-- The grid of the last digit before the point holds the number. -/
theorem onGrid?_zero {value : Nat} (hPos : value ≠ 0) (hBound : value < 2 ^ 53) :
    onGrid? (nearestRank value 1) 0 = some ⟨value, 0⟩ := by
  have hUnits := units_nearestRank hPos hBound
  have hOne := unitsPerOne_pos
  simp only [onGrid?, hUnits, Int.neg_zero, Int.toNat_zero, Nat.pow_eq, pow_zero, mul_one,
    Nat.mul_div_cancel _ hOne, Nat.mul_mod_left, mul_zero, hOne, if_true]
  simp [rankOfDecimal_natural hPos hBound]

/-- The leading digit of a natural number below `2 ^ 53`. -/
theorem leadingExponent_natural {value : Nat} (hPos : value ≠ 0) (hBound : value < 2 ^ 53) :
    leadingExponent (units (nearestRank value 1)) unitsPerOne = (digitCount value - 1 : Nat) := by
  have hOne := unitsPerOne_pos
  have hLarge : unitsPerOne ≤ value * unitsPerOne :=
    Nat.le_mul_of_pos_left _ (Nat.pos_of_ne_zero hPos)
  have hCount := (digitCount_le_of_lt hBound).1
  rw [leadingExponent, units_nearestRank hPos hBound, if_pos hLarge, Nat.mul_div_cancel _ hOne]
  omega

/-- The shortest decimal of a natural number below `2 ^ 53` is that number. -/
theorem shortestDecimal_natural {value : Nat} (hPos : value ≠ 0) (hBound : value < 2 ^ 53) :
    ∃ coefficient exponent : Nat,
      shortestDecimal (nearestRank value 1) = ⟨coefficient, exponent⟩ ∧
        coefficient * 10 ^ exponent = value := by
  obtain ⟨hLow, hHigh⟩ := digitCount_le_of_lt hBound
  simp only [shortestDecimal, leadingExponent_natural hPos hBound]
  -- The search ends at the latest where the grid reaches the point.
  have hSplit : List.range 17 = List.range (digitCount value)
      ++ (List.range (17 - digitCount value)).map (digitCount value + ·) := by
    rw [← List.range_add]
    congr 1
    omega
  obtain ⟨decimal, hFound⟩ : ∃ decimal,
      (List.range (digitCount value)).findSome? (fun count : Nat =>
        onGrid? (nearestRank value 1) (((digitCount value - 1 : Nat) : Int) - count)) =
          some decimal := by
    rw [← Option.isSome_iff_exists, List.findSome?_isSome_iff]
    refine ⟨digitCount value - 1, by simp; omega, ?_⟩
    rw [Int.sub_self, onGrid?_zero hPos hBound]
    rfl
  obtain ⟨count, hCount, hGrid⟩ := List.exists_of_findSome?_eq_some hFound
  rw [List.mem_range] at hCount
  have hExponent : ((digitCount value - 1 : Nat) : Int) - count =
      (digitCount value - 1 - count : Nat) := by omega
  rw [hExponent] at hGrid
  obtain ⟨hEq, hValue⟩ := onGrid?_natural hPos hBound hGrid
  refine ⟨decimal.coefficient, digitCount value - 1 - count, ?_, hValue⟩
  rw [hSplit, List.findSome?_append, hFound, Option.some_or, Option.getD_some, ← hEq]

/-- The digits that are written for a natural number, with the zeros before the
point, are its decimal digits. -/
theorem positionalText_natural {value coefficient exponent : Nat} (hPos : value ≠ 0)
    (hValue : coefficient * 10 ^ exponent = value) :
    positionalText (significantDigits coefficient) (digitCount value - 1 : Nat) =
      toString value ++ ".0" := by
  have hCoefficient : coefficient ≠ 0 := by
    rintro rfl
    simp at hValue
    exact hPos hValue.symm
  obtain ⟨zeros, hDigits⟩ := toDigits_eq_significantDigits coefficient
  have hAll : Nat.toDigits 10 value =
      significantDigits coefficient ++ List.replicate (zeros + exponent) '0' := by
    rw [← hValue, toDigits_mul_ten_pow hCoefficient, hDigits, List.append_assoc,
      List.replicate_append_replicate]
  have hLength : digitCount value = (significantDigits coefficient).length + (zeros + exponent) := by
    rw [digitCount, hAll]
    simp
  have hCount : 1 ≤ digitCount value := Nat.length_toDigits_pos
  have hPlaces : digitCount value - 1 + 1 =
      (significantDigits coefficient).length + (zeros + exponent) := by
    omega
  have hTake : (significantDigits coefficient).take (digitCount value - 1 + 1) =
      significantDigits coefficient := List.take_of_length_le (by omega)
  have hDrop : (significantDigits coefficient).drop (digitCount value - 1 + 1) = [] :=
    List.drop_eq_nil_of_le (by omega)
  rw [← String.toList_inj, positionalText, if_pos (Int.natCast_nonneg _)]
  simp only [Int.toNat_natCast, hTake, hDrop, List.isEmpty_nil, if_true, String.toList_ofList]
  rw [String.toList_append, Nat.toString_eq_repr, Nat.toList_repr, hAll, hPlaces,
    Nat.add_sub_cancel_left]
  rfl

/-- A natural number below `2 ^ 53` is written with all its digits. -/
theorem shortestText_ofNat {value : Nat} (hBound : value < 2 ^ 53) :
    (ofNat value).shortestText = toString value ++ ".0" := by
  by_cases hPos : value = 0
  · -- Zero has no digits to search for.
    subst hPos
    have hRank : nearestRank 0 1 = 0 := by simp [nearestRank, divNearest]
    simp only [ofNat, ofRatio, hRank]
    rfl
  · obtain ⟨hRank, hNumber⟩ := ofNat_natural hPos hBound
    obtain ⟨coefficient, exponent, hDecimal, hValue⟩ := shortestDecimal_natural hPos hBound
    have hCoefficient : coefficient ≠ 0 := by
      rintro rfl
      simp at hValue
      exact hPos hValue.symm
    have hNonzero : nearestRank value 1 ≠ 0 := by
      have hLow := (nearestRank_natural_bounds hPos hBound).1
      omega
    obtain ⟨hLow, hHigh⟩ := digitCount_le_of_lt hBound
    have hCount : digitCount value = digitCount coefficient + exponent := by
      rw [← hValue, digitCount_mul_ten_pow hCoefficient]
    have hLeading : (exponent : Int) + digitCount coefficient - 1 = (digitCount value - 1 : Nat) := by
      omega
    rw [hNumber, shortestText, signedText, shortestMagnitude, if_neg hNonzero]
    simp only [hDecimal, hLeading, Bool.false_eq_true, if_false]
    rw [if_pos (by omega), positionalText_natural hPos hValue]
    rfl

end Binary64

end FormLowering
