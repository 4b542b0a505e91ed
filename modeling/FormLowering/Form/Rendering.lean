import FormLowering.Form.Expr
import FormLowering.Number.Literal

/-!
# Rendered expressions

The text by which diagnostics refer to an expression.  Sums and quotients are
parenthesised, products and powers are not, so the text is for reading and
does not determine the tree.
-/

namespace FormLowering

/-- Numbers separated by a comma and a blank. -/
def commaSeparated (numbers : List Nat) : String :=
  ", ".intercalate (numbers.map toString)

namespace Expr

mutual

/-- The text of an expression. -/
def render : Expr → String
  | .sum operands => "(" ++ " + ".intercalate (renderAll operands) ++ ")"
  | .product operands => " * ".intercalate (renderAll operands)
  | .division operands => "(" ++ " / ".intercalate (renderAll operands) ++ ")"
  | .power base exponent => render base ++ " ** " ++ render exponent
  | .abs operands => "|" ++ ", ".intercalate (renderAll operands) ++ "|"
  | .elementary function operands =>
    function.name ++ "(" ++ ", ".intercalate (renderAll operands) ++ ")"
  | .indexed operand component => render operand ++ "[" ++ commaSeparated component ++ "]"
  | .restricted operand .none => render operand
  | .restricted operand .positive => render operand ++ "('+')"
  | .restricted operand .negative => render operand ++ "('-')"
  | .derivative operand direction =>
    render operand ++ ".dx(" ++ toString direction ++ ")"
  | .facetNormal => "n"
  | .argument function => "v_" ++ toString function.number
  | .coefficient field => "w_" ++ toString field.number
  | .integer value => toString value
  | .real value => value.shortestText
  | .zero => "0"
  | .symbol name => name

/-- The texts of the operands. -/
def renderAll : List Expr → List String
  | [] => []
  | operand :: rest => render operand :: renderAll rest

end

end Expr

end FormLowering
