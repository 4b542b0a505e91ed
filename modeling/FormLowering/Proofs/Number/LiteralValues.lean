import FormLowering.Proofs.Number.NaturalLiterals
import Mathlib.Algebra.Field.Rat
import Mathlib.Data.Rat.Cast.Lemmas

/-!
# Literals as decimal numbers

A literal of a natural number below `2 ^ 53` reads back as a decimal.  The shortest form
stands for the number itself.  The scientific form stands for the number rounded to the digits
that are written, so it stands for the number itself only if all digits that are cut off are
zeros.
-/

namespace FormLowering

/-! ### Reading digits -/

namespace Decimal

/-- The number that a decimal stands for. -/
def value (decimal : Decimal) : ℚ :=
  decimal.coefficient * 10 ^ decimal.exponent

/-- Whether a text is a decimal literal of a number. -/
def Spells (text : String) (number : ℚ) : Prop :=
  ∃ decimal, ofChars? text.toList = some decimal ∧ decimal.value = number

theorem magnitude?_digits {digits : List Char} (hSome : digits ≠ [])
    (hDigits : ∀ digit ∈ digits, digit.isDigit = true) :
    exponentOfChars?.magnitude? digits = some (Nat.ofDigitChars 10 digits 0) := by
  have hAll : digits.all Char.isDigit = true := List.all_eq_true.mpr hDigits
  simp [exponentOfChars?.magnitude?, hSome, hAll]

/-- An exponent without a sign is read back. -/
theorem exponentOfChars?_natural (exponent : Nat) :
    exponentOfChars? ('e' :: (toString exponent).toList) = some (exponent : Int) := by
  have hDigits : ∀ digit ∈ (toString exponent).toList, digit.isDigit = true := by
    intro digit hMem
    rw [Nat.toString_eq_repr, Nat.toList_repr] at hMem
    exact Nat.isDigit_of_mem_toDigits (by decide) (by decide) hMem
  have hSome : (toString exponent).toList ≠ [] := by
    rw [Nat.toString_eq_repr, Nat.toList_repr]
    exact Nat.toDigits_ne_nil
  have hRead : Nat.ofDigitChars 10 (toString exponent).toList 0 = exponent := by
    rw [Nat.toString_eq_repr, Nat.toList_repr, Nat.ofDigitChars_ten_toDigits]
  have hMagnitude := magnitude?_digits hSome hDigits
  rw [hRead] at hMagnitude
  generalize (toString exponent).toList = digits at hDigits hMagnitude
  simp only [exponentOfChars?, decide_true, Bool.true_or, if_true]
  -- The first digit is neither of the two signs.
  split
  · exact absurd (hDigits '-' List.mem_cons_self) (by decide)
  · exact absurd (hDigits '+' List.mem_cons_self) (by decide)
  · rw [hMagnitude]
    rfl

section Digits

variable {whole fraction rest : List Char} (hWhole : ∀ digit ∈ whole, digit.isDigit = true)
  (hSome : whole ≠ [])

include hWhole hSome

/-- Digits on both sides of a point. -/
theorem ofChars?_point (hFraction : ∀ digit ∈ fraction, digit.isDigit = true)
    (hRest : ∀ first ∈ rest.head?, first.isDigit = false) :
    ofChars? (whole ++ '.' :: (fraction ++ rest)) =
      (exponentOfChars? rest).map fun exponent =>
        ⟨Nat.ofDigitChars 10 (whole ++ fraction) 0, exponent - fraction.length⟩ := by
  have hPoint : '.'.isDigit = false := by decide
  have hTake : rest.takeWhile Char.isDigit = [] := by
    cases rest with
    | nil => rfl
    | cons first rest => simp [hRest first rfl]
  have hDrop : rest.dropWhile Char.isDigit = rest := by
    cases rest with
    | nil => rfl
    | cons first rest => simp [hRest first rfl]
  simp [ofChars?, List.takeWhile_append_of_pos hWhole, List.dropWhile_append_of_pos hWhole,
    List.takeWhile_append_of_pos hFraction, List.dropWhile_append_of_pos hFraction, hPoint, hTake,
    hDrop, hSome]

/-- Digits without a point. -/
theorem ofChars?_whole {mark : Char} (hMark : mark.isDigit = false) (hPoint : mark ≠ '.') :
    ofChars? (whole ++ mark :: rest) =
      (exponentOfChars? (mark :: rest)).map fun exponent =>
        ⟨Nat.ofDigitChars 10 whole 0, exponent⟩ := by
  simp [ofChars?, List.takeWhile_append_of_pos hWhole, List.dropWhile_append_of_pos hWhole,
    hMark, hPoint, hSome]

end Digits

end Decimal

open Decimal

namespace Binary64

/-- A scientific text stands for its digits, scaled so that the first one has the exponent
that is written. -/
theorem ofChars?_scientificText {digits : List Char} (hSome : digits ≠ [])
    (hDigits : ∀ digit ∈ digits, digit.isDigit = true) (leading : Nat) :
    ofChars? (scientificText digits leading).toList =
      some ⟨Nat.ofDigitChars 10 digits 0, leading - (digits.length - 1 : Nat)⟩ := by
  have hText : (scientificText digits leading).toList =
      pointAfterFirst digits ++ 'e' :: (toString leading).toList := by
    rw [scientificText, String.toList_append, String.toList_append, String.toList_ofList,
      List.append_assoc]
    rfl
  have hMark : 'e'.isDigit = false := by decide
  rw [hText]
  match digits with
  | [first] =>
      have hRead := @ofChars?_whole [first] (toString leading).toList hDigits hSome 'e' hMark
        (by decide)
      rw [exponentOfChars?_natural] at hRead
      simpa [pointAfterFirst] using hRead
  | first :: second :: rest =>
      rw [List.forall_mem_cons] at hDigits
      have hRest : ∀ first ∈ ('e' :: (toString leading).toList).head?, first.isDigit = false := by
        simp [hMark]
      have hRead := ofChars?_point (List.forall_mem_singleton.mpr hDigits.1) (List.cons_ne_nil _ _)
        hDigits.2 hRest
      rw [exponentOfChars?_natural] at hRead
      simpa [pointAfterFirst] using hRead

/-- The shortest form of a natural number below `2 ^ 53` stands for the number. -/
theorem spells_shortestText {number : Nat} (hBound : number < 2 ^ 53) :
    Spells (ofNat number).shortestText number := by
  have hText : ((ofNat number).shortestText).toList =
      (toString number).toList ++ '.' :: (['0'] ++ []) := by
    rw [shortestText_ofNat hBound, String.toList_append]
    rfl
  have hZero : '0'.isDigit = true := by decide
  have hRead : ofChars? (ofNat number).shortestText.toList = some ⟨number * 10, -1⟩ := by
    rw [hText, Nat.toString_eq_repr, Nat.toList_repr,
      ofChars?_point (fun _ => Nat.isDigit_of_mem_toDigits (by decide) (by decide))
        Nat.toDigits_ne_nil (List.forall_mem_singleton.mpr hZero) (by simp),
      Nat.ofDigitChars_append, Nat.ofDigitChars_ten_toDigits]
    simp [exponentOfChars?, Nat.ofDigitChars_cons, mul_comm]
  refine ⟨_, hRead, ?_⟩
  simp [Decimal.value]

end Binary64

/-! ### Rounding -/

theorem divNearest_mul_right (numerator denominator : Nat) {factor : Nat} (hPos : 0 < factor) :
    divNearest (numerator * factor) (denominator * factor) = divNearest numerator denominator := by
  simp only [divNearest, Nat.mul_div_mul_right _ _ hPos, Nat.mul_mod_mul_right, ← mul_assoc,
    Nat.mul_lt_mul_right hPos]

theorem divNearest_le {numerator denominator bound : Nat} (hPos : 0 < denominator)
    (hBound : numerator ≤ bound * denominator) : divNearest numerator denominator ≤ bound := by
  have hQuotient : numerator / denominator ≤ bound := Nat.div_le_of_le_mul (by rwa [mul_comm])
  by_cases hLess : numerator / denominator < bound
  · simp only [divNearest]
    split
    · omega
    · split <;> omega
  · -- The bound is met exactly, so nothing is left to round up.
    have hEq : numerator = bound * denominator := by
      refine le_antisymm hBound ?_
      rw [← Nat.le_div_iff_mul_le hPos]
      omega
    rw [hEq, divNearest_mul hPos]

/-- A number is rounded to itself only if it is a multiple of the unit that it is rounded to. -/
theorem divNearest_mul_eq_iff {number unit : Nat} (hPos : 0 < unit) :
    divNearest number unit * unit = number ↔ unit ∣ number := by
  constructor
  · intro hEq
    exact ⟨divNearest number unit, by rw [mul_comm, hEq]⟩
  · rintro ⟨quotient, rfl⟩
    rw [mul_comm unit, divNearest_mul hPos]

/-- The value of the last of `places + 1` significant digits, if there are more of them. -/
def lastDigitUnit (places number : Nat) : Nat :=
  10 ^ (digitCount number - (places + 1))

/-- A natural number rounded to `places + 1` significant digits, a tie to the even digit. -/
def roundedTo (places number : Nat) : Nat :=
  divNearest number (lastDigitUnit places number) * lastDigitUnit places number

theorem roundedTo_eq_iff {places number : Nat} :
    roundedTo places number = number ↔ lastDigitUnit places number ∣ number :=
  divNearest_mul_eq_iff (Nat.pow_pos (by decide))

/-- No digit is cut off a number with at most `places + 1` digits. -/
theorem lastDigitUnit_dvd_of_lt {places number : Nat} (hBound : number < 10 ^ (places + 1)) :
    lastDigitUnit places number ∣ number := by
  have hDigits : digitCount number ≤ places + 1 := by
    rwa [digitCount, Nat.length_toDigits_le_iff (by decide) (Nat.succ_pos _)]
  rw [lastDigitUnit, Nat.sub_eq_zero_of_le hDigits, pow_zero]
  exact one_dvd number

theorem pow_digitCount_le {number : Nat} (hPos : number ≠ 0) :
    10 ^ (digitCount number - 1) ≤ number := by
  by_contra hLess
  have hCount : 0 < digitCount number := Nat.length_toDigits_pos
  by_cases hOne : digitCount number = 1
  · rw [hOne] at hLess
    simp at hLess
    exact hPos hLess
  · have hShort := (Nat.length_toDigits_le_iff (by decide) (by omega)).mpr (Nat.lt_of_not_le hLess)
    rw [← digitCount] at hShort
    omega

theorem lt_pow_digitCount (number : Nat) : number < 10 ^ digitCount number :=
  (Nat.length_toDigits_le_iff (by decide) Nat.length_toDigits_pos).mp le_rfl

/-! ### Scientific forms -/

/-- The first `places + 1` digits of a number with as many digits, or of the power of ten that
follows these numbers, and the count of zeros behind them. -/
theorem take_toDigits {places number : Nat} (hLow : 10 ^ places ≤ number)
    (hHigh : number ≤ 10 ^ (places + 1)) :
    ((Nat.toDigits 10 number).take (places + 1)).length = places + 1 ∧
      Nat.ofDigitChars 10 ((Nat.toDigits 10 number).take (places + 1)) 0 *
        10 ^ ((Nat.toDigits 10 number).length - (places + 1)) = number := by
  rcases hHigh.lt_or_eq with hLess | rfl
  · have hLength : (Nat.toDigits 10 number).length = places + 1 := by
      refine le_antisymm ((Nat.length_toDigits_le_iff (by decide) (Nat.succ_pos _)).mpr hLess) ?_
      have hBelow := hLow.trans_lt (lt_pow_digitCount number)
      exact (Nat.pow_lt_pow_iff_right (by decide)).mp hBelow
    rw [List.take_of_length_le hLength.le, hLength, Nat.sub_self, pow_zero, mul_one,
      Nat.ofDigitChars_ten_toDigits]
    exact ⟨rfl, rfl⟩
  · have hDigits : Nat.toDigits 10 (10 ^ (places + 1)) =
        '1' :: List.replicate (places + 1) '0' := by
      rw [← one_mul (10 ^ (places + 1)), toDigits_mul_ten_pow (by decide)]
      rfl
    rw [hDigits, List.take_succ_cons, List.take_replicate, Nat.min_eq_left (Nat.le_succ _)]
    refine ⟨by simp, ?_⟩
    rw [Nat.ofDigitChars_cons, Nat.ofDigitChars_replicate_zero]
    simp [pow_succ]

/-- The digits that are written for a number whose leading digit has the exponent `leading`,
as a natural number. -/
theorem rounded_bounds {number leading : Nat} (places : Nat) (hLow : 10 ^ leading ≤ number)
    (hHigh : number < 10 ^ (leading + 1)) :
    10 ^ places ≤ divNearest (number * 10 ^ (places - leading)) (10 ^ (leading - places)) ∧
      divNearest (number * 10 ^ (places - leading)) (10 ^ (leading - places)) ≤
        10 ^ (places + 1) := by
  have hUnit : 0 < 10 ^ (leading - places) := Nat.pow_pos (by decide)
  have hExponents : places + (leading - places) = leading + (places - leading) := by omega
  constructor
  · refine le_trans ?_ (div_le_divNearest _ _)
    rw [Nat.le_div_iff_mul_le hUnit, ← pow_add, hExponents, pow_add]
    exact Nat.mul_le_mul_right _ hLow
  · refine divNearest_le hUnit ?_
    rw [← pow_add, Nat.add_right_comm, hExponents, Nat.add_right_comm, pow_add]
    exact Nat.mul_le_mul_right _ hHigh.le

/-- With the exponent of their last digit, these digits are the rounded number. -/
theorem rounded_value {number leading : Nat} (places : Nat)
    (hCount : digitCount number = leading + 1) :
    (divNearest (number * 10 ^ (places - leading)) (10 ^ (leading - places)) : ℚ) *
      10 ^ ((leading : Int) - places) = roundedTo places number := by
  have hUnit : lastDigitUnit places number = 10 ^ (leading - places) := by
    rw [lastDigitUnit, hCount, Nat.add_sub_add_right]
  rw [roundedTo, hUnit]
  rcases le_total places leading with hPlaces | hPlaces
  · rw [Nat.sub_eq_zero_of_le hPlaces, pow_zero, mul_one, ← Nat.cast_sub hPlaces, zpow_natCast]
    push_cast
    rfl
  · have hOne (quotient : Nat) : divNearest quotient 1 = quotient := by
      simpa using @divNearest_mul quotient 1 Nat.one_pos
    have hExponent : (leading : Int) - places = -(places - leading : Nat) := by omega
    rw [Nat.sub_eq_zero_of_le hPlaces, pow_zero, hOne, hOne, mul_one, hExponent, zpow_neg,
      zpow_natCast]
    push_cast
    rw [mul_assoc, mul_inv_cancel₀ (by positivity), mul_one]

namespace Binary64

/-- The digits of the rounded number are written, with the zeros behind them in the exponent. -/
theorem scientificMagnitude_natural (places : Nat) {number leading : Nat} (hPos : number ≠ 0)
    (hBound : number < 2 ^ 53) (hCount : digitCount number = leading + 1) :
    scientificMagnitude places (nearestRank number 1) =
      let digits := Nat.toDigits 10
        (divNearest (number * 10 ^ (places - leading)) (10 ^ (leading - places)))
      scientificText (digits.take (places + 1))
        (leading + (digits.length - (places + 1)) : Nat) := by
  have hRank : nearestRank number 1 ≠ 0 := (nearestRank_pos hPos).ne'
  have hBelow : (-((leading : Int) - places)).toNat = places - leading := by omega
  have hAbove : ((leading : Int) - places).toNat = leading - places := by omega
  -- The unit of binary magnitudes does not matter for the ratio.
  have hRatio : divNearest (number * unitsPerOne * 10 ^ (places - leading))
      (unitsPerOne * 10 ^ (leading - places)) =
        divNearest (number * 10 ^ (places - leading)) (10 ^ (leading - places)) := by
    rw [Nat.mul_right_comm, Nat.mul_comm unitsPerOne, divNearest_mul_right _ _ unitsPerOne_pos]
  rw [scientificMagnitude, if_neg hRank, leadingExponent_natural hPos hBound,
    units_nearestRank hPos hBound, hCount, Nat.add_sub_cancel]
  simp only [hBelow, hAbove, Nat.pow_eq, hRatio, Nat.cast_add]

theorem spells_scientificMagnitude (places : Nat) {number : Nat} (hPos : number ≠ 0)
    (hBound : number < 2 ^ 53) :
    Spells (scientificMagnitude places (nearestRank number 1)) (roundedTo places number) := by
  obtain ⟨leading, hCount⟩ : ∃ leading, digitCount number = leading + 1 :=
    ⟨digitCount number - 1, (Nat.sub_add_cancel Nat.length_toDigits_pos).symm⟩
  have hLow : 10 ^ leading ≤ number := by
    simpa [hCount] using pow_digitCount_le hPos
  have hHigh : number < 10 ^ (leading + 1) := hCount ▸ lt_pow_digitCount number
  obtain ⟨hAtLeast, hAtMost⟩ := rounded_bounds places hLow hHigh
  have hValue := rounded_value places hCount
  rw [scientificMagnitude_natural places hPos hBound hCount]
  generalize divNearest (number * 10 ^ (places - leading)) (10 ^ (leading - places)) = rounded
    at hAtLeast hAtMost hValue ⊢
  obtain ⟨hLength, hTaken⟩ := take_toDigits hAtLeast hAtMost
  generalize hZeros : (Nat.toDigits 10 rounded).length - (places + 1) = zeros at hTaken ⊢
  generalize hTake : (Nat.toDigits 10 rounded).take (places + 1) = digits at hLength hTaken ⊢
  have hSome : digits ≠ [] := by
    rw [← List.length_pos_iff, hLength]
    exact Nat.succ_pos places
  have hDigits : ∀ digit ∈ digits, digit.isDigit = true := by
    intro digit hMem
    rw [← hTake] at hMem
    exact Nat.isDigit_of_mem_toDigits (by decide) (by decide) (List.mem_of_mem_take hMem)
  have hRead := ofChars?_scientificText hSome hDigits (leading + zeros)
  have hExponent : ((leading + zeros : Nat) : Int) - (digits.length - 1 : Nat) =
      (zeros : Int) + ((leading : Int) - places) := by
    rw [hLength]
    omega
  dsimp only
  rw [hTake, hZeros]
  refine ⟨_, hRead, ?_⟩
  rw [Decimal.value, hExponent, zpow_add₀ (by norm_num), zpow_natCast, ← mul_assoc, ← hValue,
    ← hTaken]
  push_cast
  rfl

/-- The scientific form of a natural number below `2 ^ 53` stands for the number rounded to the
digits that are written. -/
theorem spells_scientificTextOf (places : Nat) {number : Nat} (hPos : number ≠ 0)
    (hBound : number < 2 ^ 53) :
    Spells ((ofNat number).scientificTextOf places) (roundedTo places number) := by
  obtain ⟨hRank, hNumber⟩ := ofNat_natural hPos hBound
  have hText : (ofNat number).scientificTextOf places =
      scientificMagnitude places (nearestRank number 1) := by
    rw [hNumber, scientificTextOf, signedText]
    exact String.empty_append
  rw [hText]
  exact spells_scientificMagnitude places hPos hBound

end Binary64

end FormLowering
