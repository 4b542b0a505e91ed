import FormLowering.Lowering.PhysicalBasis

/-!
# Lowering expressions

An expression is lowered bottom-up to tensor code.  Operands are lowered from
left to right, all of them before they are combined, and an error carries the
innermost expression that failed.

Indices, restrictions and derivatives are not code: they only change the context
in which their operand is lowered.  All leaves but arguments and coefficients
are constant over the cell, so their derivatives vanish.
-/

namespace FormLowering

/-- The forms of an exponent that a power can have. -/
inductive ExponentForm where
  | integer (value : Int)
  | real (value : Binary64)
  /-- A function, whose value is known only as code. -/
  | function
  | unsupported

namespace Expr

/-- The form of an expression as an exponent. -/
def exponentForm : Expr → ExponentForm
  | .integer value => .integer value
  | .real value => .real value
  | expr => if expr.isField then .function else .unsupported

end Expr

namespace ExponentForm

/-- Whether a literal exponent is positive, zero, or neither. -/
inductive LiteralSign where
  | positive
  | zero
  | other

/-- The sign of a literal exponent. -/
def sign? : ExponentForm → Option LiteralSign
  | .integer value =>
    some (if 0 < value then .positive else if value = 0 then .zero else .other)
  | .real value =>
    some (if value.isPositive then .positive else if value.isZero then .zero else .other)
  | _ => none

/-- A power of symbolic zero, given what stands for one. -/
def powerOfZero {β : Type} (one : β) (exponent : ExponentForm) : Except Fault (Option β) :=
  match exponent.sign?, exponent with
  | some .positive, _ => return none
  | some .zero, _ => return some one
  | some .other, _ => throw .divisionByZero
  | none, .function => return none
  | none, _ => throw .unsupportedExponent

end ExponentForm

namespace LoweringContext

/-- The flat component that the context selects.  Without indices it is the
first one. -/
def selectedComponent (context : LoweringContext) : Except Fault Nat :=
  match context.component with
  | [] => return 0
  | [component] => return component
  | component => throw (.componentMismatch 1 component.length)

end LoweringContext

namespace BasisTables

/-- The component of an element that the context selects, and its place. -/
def selected (tables : BasisTables) (element : Nat) (context : LoweringContext) :
    Except Fault (Nat × ComponentPlace) := do
  let component ← context.selectedComponent
  match tables.locate element component with
  | some place => return (component, place)
  | none => throw (.invalidComponent element component)

end BasisTables

namespace Backend

/-- A literal; zero of either sign becomes symbolic zero. -/
def literalCode (backend : Backend) (value : Binary64) : TensorCode :=
  .scalar (if value.isZero then none else some (backend.dialect.literal value))

/-- A component of the facet normal. -/
def normalCode (backend : Backend) (context : LoweringContext) : LowerM TensorCode :=
  match context.component with
  | [component] => do
    let name ← LowerM.record (backend.dialect.normal context.restriction component)
    return .scalar (some name)
  | component => throw { fault := .componentMismatch 1 component.length }

/-- An argument under the derivatives of the context. -/
def lowerArgument (backend : Backend) (argument : Argument) (context : LoweringContext) :
    LowerM TensorCode := do
  let (component, place) ← LowerM.ofExcept (backend.elements.selected argument.element context)
  backend.argumentCode argument component place
    (directionTuples backend.dimensions.topological context.derivatives.length) context

/-- A coefficient under the derivatives of the context. -/
def lowerCoefficient (backend : Backend) (coefficient : Coefficient)
    (context : LoweringContext) : LowerM TensorCode := do
  let (component, place) ← LowerM.ofExcept (backend.elements.selected coefficient.element context)
  let entry ← backend.coefficientCode coefficient component place
    (directionTuples backend.dimensions.topological context.derivatives.length) context
  return .scalar entry

/-- A power whose base is a token.  The code of the exponent is asked for only if the
exponent is a function. -/
def powerOf (backend : Backend) (base : Token) (exponent : ExponentForm)
    (exponentCode : LowerM TensorCode) : LowerM Token :=
  let dialect := backend.dialect
  match exponent with
  | .integer value => return dialect.power base value
  | .real value => return dialect.generalPower base (dialect.literal value)
  | .function => do
    match (← exponentCode).asScalar? with
    | some (some exponent) => return dialect.generalPower base exponent
    | some none => return dialect.identity
    | none => throw { fault := .unsupportedExponent }
  | .unsupported => throw { fault := .unsupportedExponent }

/-- A power, from the code of its operands. -/
def powerCode (backend : Backend) (baseCode : LowerM TensorCode) (exponent : ExponentForm)
    (exponentCode : LowerM TensorCode) : LowerM TensorCode := do
  match (← baseCode).asScalar? with
  | none => throw { fault := .nonScalarOperand "Power" }
  | some none => return .scalar (← LowerM.ofExcept (exponent.powerOfZero backend.dialect.identity))
  | some (some base) => return .scalar (some (← backend.powerOf base exponent exponentCode))

/-- The derivative of a leaf that is constant over the cell. -/
def constantLeaf (context : LoweringContext) (value : LowerM TensorCode) : LowerM TensorCode :=
  if context.derivatives.isEmpty then value else return .scalar none

mutual

/-- The code of an expression in a context. -/
def lower (backend : Backend) (expr : Expr) (context : LoweringContext) : LowerM TensorCode :=
  LowerM.within expr <|
    match expr with
    | .sum operands => do
      LowerM.ofExcept (TensorCode.sum backend.dialect (← backend.lowerAll operands context))
    | .product operands => do
      LowerM.ofExcept (TensorCode.product backend.dialect (← backend.lowerAll operands context))
    | .division operands => do
      LowerM.ofExcept (TensorCode.division backend.dialect (← backend.lowerAll operands context))
    | .power base exponent =>
      backend.powerCode (backend.lower base context) exponent.exponentForm
        (backend.lower exponent context)
    | .abs operands => do
      LowerM.ofExcept (TensorCode.abs backend.dialect (← backend.lowerAll operands context))
    | .elementary function operands => do
      LowerM.ofExcept
        (TensorCode.applyFunction backend.dialect function (← backend.lowerAll operands context))
    | .indexed operand component => backend.lower operand (context.select component)
    | .restricted operand restriction =>
      backend.lower operand (context.restrict restriction)
    | .derivative operand direction =>
      backend.lower operand (context.differentiate direction)
    | .argument argument => backend.lowerArgument argument context
    | .coefficient coefficient => backend.lowerCoefficient coefficient context
    | .facetNormal => constantLeaf context (backend.normalCode context)
    | .integer value => constantLeaf context (pure (backend.literalCode (.ofInt value)))
    | .real value => constantLeaf context (pure (backend.literalCode value))
    | .zero => constantLeaf context (pure (.scalar none))
    | .symbol name => constantLeaf context (pure (.scalar (some name)))

/-- The code of a list of operands, from left to right. -/
def lowerAll (backend : Backend) (operands : List Expr) (context : LoweringContext) :
    LowerM (List TensorCode) :=
  match operands with
  | [] => return []
  | operand :: rest => do
    let code ← backend.lower operand context
    return code :: (← backend.lowerAll rest context)

end

/-- The code of a power outside any expression. -/
def lowerPower (backend : Backend) (base exponent : Expr) (context : LoweringContext) :
    LowerM TensorCode :=
  backend.powerCode (backend.lower base context) exponent.exponentForm
    (backend.lower exponent context)

end Backend

/-- The code of an expression and the geometric quantities it refers to. -/
structure LoweredExpr where
  code : TensorCode
  geometry : GeometryNames
deriving DecidableEq

namespace Backend

/-- Lowers an expression in the empty context, on its own. -/
def run (backend : Backend) (expr : Expr) : Except LoweringError LoweredExpr :=
  match (backend.lower expr {}).runWith ∅ with
  | (.ok code, geometry) => .ok ⟨code, geometry⟩
  | (.error error, _) => .error error

end Backend

end FormLowering
