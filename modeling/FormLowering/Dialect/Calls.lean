import FormLowering.Geometry.Serial
import FormLowering.Number.Literal

/-!
# Dialects of emitted code

A dialect turns operations on tokens into tokens.  Lowering never spells out an
operator itself, so a dialect is all that is known of the language of the
emitted code.

The plainest dialect writes every operation as a call, so that the operations
can be read back from the text in any nesting.
-/

namespace FormLowering

/-- How operations on tokens are written. -/
structure Dialect where
  add : List Token → Token
  multiply : List Token → Token
  divide : (numerator denominator : Token) → Token
  /-- Protects a token from the operators around it. -/
  group : Token → Token
  /-- A power with an integer exponent. -/
  power : (base : Token) → (exponent : Int) → Token
  /-- A power with any other exponent. -/
  generalPower : (base exponent : Token) → Token
  literal : Binary64 → Token
  absolute : Token → Token
  elementary : ElementaryFunction → Token → Token
  /-- The entry of a Jacobian matrix in a row and a column. -/
  jacobian : JacobianKind → (row column : Nat) → Restriction → Token
  /-- The determinant of the Jacobian. -/
  determinant : Restriction → Token
  reciprocal : Token → Token
  /-- A component of the facet normal. -/
  normal : Restriction → (component : Nat) → Token

namespace Dialect

/-- The literal one, by which products are not multiplied. -/
def identity (dialect : Dialect) : Token :=
  dialect.literal .one

/-! ### Nested calls -/

/-- A call with its arguments. -/
def call (name : String) (arguments : List Token) : Token :=
  name ++ "(" ++ ", ".intercalate arguments ++ ")"

/-- A product as a call, unless it has a single factor or none. -/
def callMultiply : List Token → Token
  | [] => Binary64.one.shortestText
  | [factor] => factor
  | factors => call "multiply" factors

/-- The dialect of nested calls. -/
def calls : Dialect where
  add terms := call "add" terms
  multiply := callMultiply
  divide numerator denominator := call "divide" [numerator, denominator]
  group code := call "group" [code]
  power base exponent := call "power" [base, toString exponent]
  generalPower base exponent := call "std_power" [base, exponent]
  literal := Binary64.shortestText
  absolute code := call "abs" [code]
  elementary function code := call function.name [code]
  jacobian kind row column restriction := kind.entryName row column restriction
  determinant := determinantName
  reciprocal code := call "inverse" [code]
  normal := normalName

end Dialect

end FormLowering
