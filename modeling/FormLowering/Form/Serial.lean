import FormLowering.Form.Expr
import FormLowering.Json.Basic

/-!
# Serialised expressions

An expression is written as the name of its node kind, with the contents of
the node as payload: `"Zero"` or `{"Sum": [...]}`.  A node with several fields
of different types has an array of exactly these fields as payload.

Reading is more permissive than writing only in three ways: a kind without
contents may carry `null`, a record may be an array of its fields in order, and
a real literal may be written as an integer.
-/

namespace FormLowering

namespace Restriction

/-- The name of the restriction in the serialised form. -/
def serialName : Restriction → String
  | .none => "None"
  | .positive => "Positive"
  | .negative => "Negative"

/-- Reads a restriction. -/
def ofJson? (value : Json) : Option Restriction :=
  value.tag?.bind fun name => [none, positive, negative].find? (·.serialName = name)

end Restriction

namespace ElementaryFunction

/-- The name of the function in the serialised form. -/
def serialName : ElementaryFunction → String
  | .sqrt => "Sqrt"
  | .exp => "Exp"
  | .ln => "Ln"
  | .cos => "Cos"
  | .sin => "Sin"

/-- Reads a function. -/
def ofJson? (value : Json) : Option ElementaryFunction :=
  value.tag?.bind fun name => [sqrt, exp, ln, cos, sin].find? (·.serialName = name)

end ElementaryFunction

namespace Argument

/-- The record of an argument. -/
def toJson (argument : Argument) : Json :=
  .object [("number", .integer argument.number), ("element", .integer argument.element)]

/-- Reads the record of an argument. -/
def ofJson? (value : Json) : Option Argument := do
  match ← value.fields? ["number", "element"] with
  | [number, element] => return ⟨← number.nat?, ← element.nat?⟩
  | _ => none

end Argument

namespace Coefficient

/-- The record of a coefficient. -/
def toJson (coefficient : Coefficient) : Json :=
  .object [("number", .integer coefficient.number), ("element", .integer coefficient.element)]

/-- Reads the record of a coefficient. -/
def ofJson? (value : Json) : Option Coefficient := do
  match ← value.fields? ["number", "element"] with
  | [number, element] => return ⟨← number.nat?, ← element.nat?⟩
  | _ => none

end Coefficient

namespace Expr

/-- A node with contents. -/
def taggedJson (kind : NodeKind) (payload : Json) : Json :=
  .object [(kind.name, payload)]

mutual

/-- The serialised form of an expression.  A real that is not finite has no
number to stand for it and is written as `null`, which cannot be read back. -/
def toJson : Expr → Json
  | .sum operands => taggedJson .sum (.array (toJsonAll operands))
  | .product operands => taggedJson .product (.array (toJsonAll operands))
  | .division operands => taggedJson .division (.array (toJsonAll operands))
  | .power base exponent => taggedJson .power (.array [toJson base, toJson exponent])
  | .abs operands => taggedJson .abs (.array (toJsonAll operands))
  | .elementary function operands =>
    taggedJson .elementary (.array [.string function.serialName, .array (toJsonAll operands)])
  | .indexed operand component =>
    taggedJson .indexed (.array [toJson operand, .ofNats component])
  | .restricted operand restriction =>
    taggedJson .restricted (.array [toJson operand, .string restriction.serialName])
  | .derivative operand direction =>
    taggedJson .derivative (.array [toJson operand, .integer direction])
  | .facetNormal => .string NodeKind.facetNormal.name
  | .argument function => taggedJson .argument function.toJson
  | .coefficient field => taggedJson .coefficient field.toJson
  | .integer value => taggedJson .integer (.integer value)
  | .real value =>
    taggedJson .real (if value.isFinite then .real value else .null)
  | .zero => .string NodeKind.zero.name
  | .symbol name => taggedJson .symbol (.string name)

/-- The serialised forms of a list of expressions. -/
def toJsonAll : List Expr → List Json
  | [] => []
  | operand :: rest => toJson operand :: toJsonAll rest

end

/-- The expression of a kind without contents. -/
def ofBareKind? : NodeKind → Option Expr
  | .facetNormal => some .facetNormal
  | .zero => some .zero
  | _ => none

mutual

/-- Reads an expression. -/
def ofJson? : Json → Option Expr
  | .string name => (NodeKind.ofName? name).bind ofBareKind?
  | .object [(name, payload)] =>
    (NodeKind.ofName? name).bind fun kind => ofPayload? kind payload
  | _ => none

/-- Reads a node of the given kind from its contents. -/
def ofPayload? : NodeKind → Json → Option Expr
  | .sum, .array operands => (ofJsonAll? operands).map .sum
  | .product, .array operands => (ofJsonAll? operands).map .product
  | .division, .array operands => (ofJsonAll? operands).map .division
  | .power, .array [base, exponent] => do
    return .power (← ofJson? base) (← ofJson? exponent)
  | .abs, .array operands => (ofJsonAll? operands).map .abs
  | .elementary, .array [function, .array operands] => do
    return .elementary (← ElementaryFunction.ofJson? function) (← ofJsonAll? operands)
  | .indexed, .array [operand, component] => do
    return .indexed (← ofJson? operand) (← component.nats?)
  | .restricted, .array [operand, restriction] => do
    return .restricted (← ofJson? operand) (← Restriction.ofJson? restriction)
  | .derivative, .array [operand, direction] => do
    return .derivative (← ofJson? operand) (← direction.nat?)
  | .facetNormal, .null => some .facetNormal
  | .argument, payload => (Argument.ofJson? payload).map .argument
  | .coefficient, payload => (Coefficient.ofJson? payload).map .coefficient
  | .integer, payload => payload.int?.map .integer
  | .real, payload => payload.real?.map .real
  | .zero, .null => some .zero
  | .symbol, payload => payload.text?.map .symbol
  | _, _ => none

/-- Reads a list of expressions. -/
def ofJsonAll? : List Json → Option (List Expr)
  | [] => some []
  | operand :: rest => do
    return (← ofJson? operand) :: (← ofJsonAll? rest)

end

end Expr

end FormLowering
