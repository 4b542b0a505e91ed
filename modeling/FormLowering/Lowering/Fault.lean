import FormLowering.Element.Basic
import FormLowering.Form.Rendering

/-!
# Faults and errors

A *fault* is what is wrong with an operation on tensor code.  An *error* is a fault
together with the innermost expression in which it arose, once an expression is
known.
-/

namespace FormLowering

/-- What is wrong with an operation on tensor code. -/
inductive Fault where
  /-- A node has the wrong number of operands. -/
  | arityMismatch (node : String) (expected found : Nat)
  /-- A node that needs scalar operands has an operand that is not scalar. -/
  | nonScalarOperand (node : String)
  /-- A denominator is symbolic zero, or zero is raised to a negative power. -/
  | divisionByZero
  /-- An exponent is neither a literal nor a scalar function. -/
  | unsupportedExponent
  /-- An element is mapped in a way for which there is no code. -/
  | unsupportedMapping (mapping : Mapping)
  /-- An empty token reached a product. -/
  | malformedOperand
  /-- A property on which lowering relies does not hold. -/
  | invariantViolation (description : String)
  /-- The number of active component indices is not what the leaf needs. -/
  | componentMismatch (expected found : Nat)
  /-- An element does not have the component. -/
  | invalidComponent (element component : Nat)
deriving DecidableEq

namespace Fault

/-- The message of a fault. -/
def message : Fault → String
  | .arityMismatch node expected found =>
    node ++ " expects " ++ toString expected ++ " operand(s), but got " ++ toString found
  | .nonScalarOperand node => node ++ " only supports scalar (rank-0) operands"
  | .divisionByZero => "Division by zero"
  | .unsupportedExponent => "Power does not support this exponent"
  | .unsupportedMapping mapping => "Transformation is not supported: " ++ mapping.name
  | .malformedOperand => "Empty code token encountered in product"
  | .invariantViolation description => "Internal invariant violated: " ++ description
  | .componentMismatch expected found =>
    "Expected " ++ toString expected ++ " component index(es), but " ++ toString found
      ++ " are active"
  | .invalidComponent element component =>
    "Component " ++ toString component ++ " could not be located in element "
      ++ toString element

end Fault

/-- A fault, and the expression in which it arose. -/
structure LoweringError where
  fault : Fault
  /-- The text of the expression, if one is known. -/
  context : Option String := none
deriving DecidableEq

namespace LoweringError

/-- Attaches an expression, unless an expression inside it is attached. -/
def within (error : LoweringError) (expr : Expr) : LoweringError :=
  match error.context with
  | some _ => error
  | none => { error with context := some expr.render }

/-- The message of an error. -/
def message (error : LoweringError) : String :=
  match error.context with
  | some context => error.fault.message ++ " (in expression " ++ context ++ ")"
  | none => error.fault.message

end LoweringError

end FormLowering
