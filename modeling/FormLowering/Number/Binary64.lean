/-!
# Decimal numbers and binary64 numbers

A `Decimal` is a natural coefficient scaled by a power of ten, which is what an
unsigned literal says: digits, an optional point, and an optional exponent.

A finite binary64 number is given by its sign and by the *rank* of its magnitude
in the increasing list of finite magnitudes: rank `0` is zero, rank `1` the
smallest positive magnitude.  Every finite magnitude is a whole number of *units*
of `2 ^ (-1074)`, so all computations are exact computations on natural numbers.

Rounding is to the nearest magnitude, a tie going to the even significand, and
magnitudes beyond the largest finite one round to infinity.  All numbers that
are not a number are one value.
-/

namespace FormLowering

/-! ### Decimal numbers -/

/-- The non-negative number `coefficient * 10 ^ exponent`. -/
structure Decimal where
  coefficient : Nat
  exponent : Int
deriving DecidableEq, Repr, Inhabited

/-- The number of decimal digits; zero has one. -/
def digitCount (number : Nat) : Nat :=
  (Nat.toDigits 10 number).length

/-- The exponent of the leading decimal digit of a positive ratio: the ratio
lies between this power of ten and the next.

A ratio below one is at least `10 ^ (-count)` exactly when the denominator is
at most `10 ^ count` times the numerator. -/
def leadingExponent (numerator denominator : Nat) : Int :=
  if denominator ≤ numerator then (digitCount (numerator / denominator) : Int) - 1
  else -(digitCount ((denominator - 1) / numerator) : Int)

namespace Decimal

/-- Reads an optional exponent mark followed by an optionally signed, nonempty
run of digits, up to the end of the text. -/
def exponentOfChars? : List Char → Option Int
  | [] => some 0
  | mark :: rest =>
    if mark = 'e' || mark = 'E' then
      match rest with
      | '-' :: digits => (magnitude? digits).map fun value => -(value : Int)
      | '+' :: digits => (magnitude? digits).map Int.ofNat
      | digits => (magnitude? digits).map Int.ofNat
    else none
where
  /-- The value of a nonempty run of digits. -/
  magnitude? (digits : List Char) : Option Nat :=
    if digits.isEmpty || !digits.all Char.isDigit then none
    else some (Nat.ofDigitChars 10 digits 0)

/-- Reads an unsigned decimal literal.  Digits may be missing before or after
the point, but not on both sides. -/
def ofChars? (text : List Char) : Option Decimal :=
  let whole := text.takeWhile Char.isDigit
  let afterWhole := text.dropWhile Char.isDigit
  let (fraction, rest) := match afterWhole with
    | '.' :: afterPoint => (afterPoint.takeWhile Char.isDigit, afterPoint.dropWhile Char.isDigit)
    | _ => ([], afterWhole)
  if whole.isEmpty && fraction.isEmpty then none
  else (exponentOfChars? rest).map fun exponent =>
    ⟨Nat.ofDigitChars 10 (whole ++ fraction) 0, exponent - fraction.length⟩

end Decimal

/-! ### Binary64 numbers -/

/-- The quotient rounded to the nearest natural number, a tie to the even one. -/
def divNearest (numerator denominator : Nat) : Nat :=
  let quotient := numerator / denominator
  let remainder := numerator % denominator
  if 2 * remainder < denominator then quotient
  else if denominator < 2 * remainder then quotient + 1
  else quotient + quotient % 2

/-- The number of finite magnitudes. -/
def finiteMagnitudeCount : Nat :=
  2047 * Nat.pow 2 52

/-- A binary64 number. -/
inductive Binary64 where
  /-- Not a number. -/
  | nan
  /-- An infinity. -/
  | infinity (negative : Bool)
  /-- A finite number, by sign and rank of its magnitude. -/
  | finite (negative : Bool) (rank : Fin finiteMagnitudeCount)
deriving DecidableEq

namespace Binary64

/-- The binary exponent of the last place of a magnitude, counted from the
smallest one.  The first two runs of `2 ^ 52` ranks share exponent zero. -/
def lastPlace (rank : Nat) : Nat :=
  rank / Nat.pow 2 52 - 1

/-- The magnitude in units of its last place. -/
def significand (rank : Nat) : Nat :=
  rank - lastPlace rank * Nat.pow 2 52

/-- The magnitude in units of `2 ^ (-1074)`. -/
def units (rank : Nat) : Nat :=
  significand rank * Nat.pow 2 (lastPlace rank)

/-- The number of units in one. -/
def unitsPerOne : Nat :=
  Nat.pow 2 1074

/-- The rank of the magnitude nearest to a ratio, not bounded by the largest
finite rank.  A significand that rounds up to `2 ^ 53` carries into the next
run of ranks by itself. -/
def nearestRank (numerator denominator : Nat) : Nat :=
  let scaled := numerator * unitsPerOne
  let place := (scaled / denominator).log2 - 52
  place * Nat.pow 2 52 + divNearest scaled (denominator * Nat.pow 2 place)

/-- The number with the given sign nearest to a ratio. -/
def ofRatio (negative : Bool) (numerator denominator : Nat) : Binary64 :=
  let rank := nearestRank numerator denominator
  if hRank : rank < finiteMagnitudeCount then .finite negative ⟨rank, hRank⟩
  else .infinity negative

/-- The number nearest to a natural number. -/
def ofNat (value : Nat) : Binary64 :=
  ofRatio false value 1

/-- The number nearest to an integer. -/
def ofInt (value : Int) : Binary64 :=
  ofRatio (value < 0) value.natAbs 1

/-- Positive zero. -/
def zero : Binary64 :=
  ofNat 0

/-- One. -/
def one : Binary64 :=
  ofNat 1

/-- The rank of the magnitude nearest to a decimal number.  Numbers of at
least `10 ^ 310` and below `10 ^ (-330)` are recognised by the position of
their digits, without forming a power of ten. -/
def rankOfDecimal (value : Decimal) : Nat :=
  let position := digitCount value.coefficient + value.exponent
  if value.coefficient = 0 || position < -330 then 0
  else if 310 < position then finiteMagnitudeCount
  else if 0 ≤ value.exponent then
    nearestRank (value.coefficient * Nat.pow 10 value.exponent.toNat) 1
  else nearestRank value.coefficient (Nat.pow 10 (-value.exponent).toNat)

/-- The number with the given sign nearest to a decimal number. -/
def ofDecimal (negative : Bool) (value : Decimal) : Binary64 :=
  if hRank : rankOfDecimal value < finiteMagnitudeCount then .finite negative ⟨_, hRank⟩
  else .infinity negative

/-- Whether the number is neither infinite nor not a number. -/
def isFinite : Binary64 → Bool
  | .finite _ _ => true
  | _ => false

/-- Whether the number is zero of either sign. -/
def isZero : Binary64 → Bool
  | .finite _ rank => rank.val = 0
  | _ => false

/-- Whether the number is greater than zero. -/
def isPositive : Binary64 → Bool
  | .finite false rank => rank.val ≠ 0
  | .infinity false => true
  | _ => false

/-- Equality of values: the two zeros are equal, and a number that is not a
number equals itself. -/
def sameValue (left right : Binary64) : Bool :=
  left == right || (left.isZero && right.isZero)

/-- Reads a number: an optional sign, then `inf`, `infinity` or `nan` in any
mixture of cases, or a decimal literal. -/
def ofText? (text : String) : Option Binary64 :=
  match text.toList with
  | '-' :: rest => magnitudeOfChars? true rest
  | '+' :: rest => magnitudeOfChars? false rest
  | unsigned => magnitudeOfChars? false unsigned
where
  /-- Reads the part behind the sign. -/
  magnitudeOfChars? (negative : Bool) (text : List Char) : Option Binary64 :=
    let lower := text.map Char.toLower
    if lower = "inf".toList || lower = "infinity".toList then some (.infinity negative)
    else if lower = "nan".toList then some .nan
    else (Decimal.ofChars? text).map (ofDecimal negative)

end Binary64

end FormLowering
