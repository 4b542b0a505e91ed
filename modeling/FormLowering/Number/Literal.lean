import FormLowering.Number.Binary64

/-!
# Text of floating point literals

Two written forms of a binary64 number.

* The *shortest* form has the fewest digits that read back, and of those the
  ones nearest to the number; of two equally near the larger is taken.  It is
  positional when the leading digit stands between `10 ^ (-4)` and `10 ^ 15`,
  always with a digit behind the point, and scientific otherwise.
* The *scientific* form has a chosen number of digits behind the point, rounded
  from the exact value, a tie to the even digit.

Exponents are written without a plus sign and without padding.
-/

namespace FormLowering

namespace Binary64

/-! ### Shortest digits

For each number of digits only the two neighbours of the magnitude on that
decimal grid have to be tried. -/

/-- The nearest of the two neighbours of a magnitude among the multiples of
`10 ^ exponent` that reads back as the magnitude, if one of them does. -/
def onGrid? (rank : Nat) (exponent : Int) : Option Decimal :=
  let numerator := units rank * Nat.pow 10 (-exponent).toNat
  let denominator := unitsPerOne * Nat.pow 10 exponent.toNat
  let below := numerator / denominator
  let nearest :=
    if 2 * (numerator % denominator) < denominator then [below, below + 1]
    else [below + 1, below]
  (nearest.map fun coefficient => ⟨coefficient, exponent⟩).find? fun candidate =>
    rankOfDecimal candidate = rank

/-- The shortest decimal that reads back as a positive magnitude.  Seventeen
digits always suffice; behind them stands the exact expansion, which reads back
too. -/
def shortestDecimal (rank : Nat) : Decimal :=
  let leading := leadingExponent (units rank) unitsPerOne
  let found := (List.range 17).findSome? fun (count : Nat) => onGrid? rank (leading - count)
  found.getD ⟨units rank * Nat.pow 5 1074, -1074⟩

/-! ### Text -/

/-- The digits of a natural number without its trailing zeros. -/
def significantDigits (number : Nat) : List Char :=
  ((Nat.toDigits 10 number).reverse.dropWhile (· = '0')).reverse

/-- Digits with a point behind the first one, unless it is the only digit. -/
def pointAfterFirst : List Char → List Char
  | first :: second :: rest => first :: '.' :: second :: rest
  | digits => digits

/-- Digits and the exponent of the leading one, in scientific form. -/
def scientificText (digits : List Char) (leading : Int) : String :=
  String.ofList (pointAfterFirst digits) ++ "e" ++ toString leading

/-- Digits and the exponent of the leading one, in positional form. -/
def positionalText (digits : List Char) (leading : Int) : String :=
  if 0 ≤ leading then
    let places := leading.toNat + 1
    let whole := digits.take places ++ List.replicate (places - digits.length) '0'
    let fraction := digits.drop places
    String.ofList (whole ++ '.' :: if fraction.isEmpty then ['0'] else fraction)
  else
    String.ofList ('0' :: '.' :: List.replicate (-leading - 1).toNat '0' ++ digits)

/-- The shortest form of a magnitude. -/
def shortestMagnitude (rank : Nat) : String :=
  if rank = 0 then "0.0"
  else
    let decimal := shortestDecimal rank
    let digits := significantDigits decimal.coefficient
    let leading := decimal.exponent + digitCount decimal.coefficient - 1
    if -4 ≤ leading ∧ leading < 16 then positionalText digits leading
    else scientificText digits leading

/-- The scientific form of a magnitude with `places` digits behind the point.
Rounding up to the next power of ten adds a digit, which moves the leading
position and leaves a zero to be dropped at the end. -/
def scientificMagnitude (places rank : Nat) : String :=
  if rank = 0 then scientificText (List.replicate (places + 1) '0') 0
  else
    let leading := leadingExponent (units rank) unitsPerOne
    let exponent := leading - places
    let rounded := divNearest (units rank * Nat.pow 10 (-exponent).toNat)
      (unitsPerOne * Nat.pow 10 exponent.toNat)
    let digits := Nat.toDigits 10 rounded
    scientificText (digits.take (places + 1)) (leading + (digits.length - (places + 1) : Nat))

/-- The text of a number, given the text of a finite magnitude. -/
def signedText (magnitude : Nat → String) : Binary64 → String
  | .nan => "NaN"
  | .infinity negative => if negative then "-inf" else "inf"
  | .finite negative rank => (if negative then "-" else "") ++ magnitude rank

/-- The shortest form. -/
def shortestText : Binary64 → String :=
  signedText shortestMagnitude

/-- The scientific form with `places` digits behind the point. -/
def scientificTextOf (places : Nat) : Binary64 → String :=
  signedText (scientificMagnitude places)

end Binary64

end FormLowering
