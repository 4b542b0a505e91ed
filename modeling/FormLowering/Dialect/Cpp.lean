import FormLowering.Dialect.Calls

/-!
# C++ expressions

Products and numerators are written without parentheses, so the text means
what was intended only as long as no operand of them is a bare sum.
-/

namespace FormLowering

namespace ElementaryFunction

/-- The name of the function in the C++ standard library. -/
def cppName : ElementaryFunction → String
  | .sqrt => "std::sqrt"
  | .exp => "std::exp"
  | .ln => "std::log"
  | .cos => "std::cos"
  | .sin => "std::sin"

end ElementaryFunction

namespace Dialect

/-- A literal in its shortest form, or in scientific form if a number of digits
behind the point is given. -/
def cppLiteral (precision : Option Nat) (value : Binary64) : Token :=
  match precision with
  | some places => value.scientificTextOf places
  | none => value.shortestText

/-- A power as a call of the C++ standard library. -/
def cppPower (base exponent : Token) : Token :=
  "std::pow(" ++ base ++ ", " ++ exponent ++ ")"

/-- The dialect of C++ expressions. -/
def cpp (precision : Option Nat) : Dialect where
  add terms := " + ".intercalate terms
  multiply factors :=
    if factors.isEmpty then cppLiteral precision .one else "*".intercalate factors
  divide numerator denominator := numerator ++ "/" ++ denominator
  group code := "(" ++ code ++ ")"
  power base exponent := cppPower base (toString exponent)
  generalPower base exponent := cppPower base exponent
  literal := cppLiteral precision
  absolute code := "std::abs(" ++ code ++ ")"
  elementary function code := function.cppName ++ "(" ++ code ++ ")"
  jacobian kind row column restriction := kind.entryName row column restriction
  determinant := determinantName
  reciprocal code := "(1.0/" ++ code ++ ")"
  normal := normalName

end Dialect

end FormLowering
