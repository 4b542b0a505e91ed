import FormLowering.Lowering.Expr
import FormLowering.Proofs.Reading.Interpretation
import Mathlib.Algebra.BigOperators.Group.List.Basic

/-!
# Evaluating expressions

What lowering stands for: the same traversal over values instead of tokens.
Symbolic zeros are kept apart from other values, since they decide which
components exist and where lowering fails, but ones are multiplied like any
other value and equal terms are added like any others.
-/

namespace FormLowering

/-- The values of the components of a tensor, or `none` for symbolic zero. -/
abbrev TensorValue (V : Type) :=
  SortedMap Key (Option V)

variable {V : Type} [CommSemiring V]

namespace TensorValue

/-- The tensor value with the given entry under the empty key. -/
def scalar (entry : Option V) : TensorValue V :=
  .singleton [] entry

/-- The sum of terms, which is symbolic zero without terms. -/
def total (terms : List V) : Option V :=
  if terms.isEmpty then none else some terms.sum

theorem total_of_ne_nil {values : List V} (hNonempty : values ≠ []) :
    total values = some values.sum := by
  simp [total, hNonempty]

/-- The sum of tensor values, component by component. -/
def sum (operands : List (TensorValue V)) : TensorValue V :=
  (SortedMap.gather (TensorCode.sumContributions operands)).mapValues total

/-- The product of entries, which is symbolic zero if one of them is. -/
def productEntry : List (Option V) → Option V
  | [] => some 1
  | none :: _ => none
  | some factor :: rest => (productEntry rest).map (factor * ·)

/-- What the choices of one entry of each tensor contribute to each component. -/
def productContributions (tensors : List (TensorValue V)) (scalars : List (Option V)) :
    List (Key × List V) :=
  (entryChoices tensors).map fun chosen =>
    (Key.sorted chosen.1, (productEntry (chosen.2 ++ scalars)).toList)

/-- The product of tensor values. -/
def product (operands : List (TensorValue V)) : TensorValue V :=
  let tensors := operands.filter SortedMap.isTensor
  let scalars := operands.filterMap SortedMap.asScalar?
  if tensors.isEmpty then scalar (productEntry scalars)
  else (SortedMap.gather (productContributions tensors scalars)).mapValues total

/-- The quotient of a numerator and a scalar denominator. -/
def division [Div V] : List (TensorValue V) → Except Fault (TensorValue V)
  | [numerator, denominator] =>
    match denominator.asScalar? with
    | none => throw (.nonScalarOperand "Division")
    | some none => throw .divisionByZero
    | some (some divisor) => return numerator.mapValues fun entry => entry.map (· / divisor)
  | operands => throw (.arityMismatch "Division" 2 operands.length)

end TensorValue

namespace Interpretation

variable [Div V] (I : Interpretation V)

/-- The absolute value of a scalar. -/
def abs (operands : List (TensorValue V)) : Except Fault (TensorValue V) := do
  return .scalar ((← TensorCode.onlyScalar "Abs" operands).map I.absolute)

/-- An elementary function of a scalar. -/
def applyFunction (function : ElementaryFunction) (operands : List (TensorValue V)) :
    Except Fault (TensorValue V) := do
  let argument := (← TensorCode.onlyScalar function.name operands).getD 0
  return .scalar (some (I.elementary function argument))

/-- A literal; zero of either sign is symbolic zero. -/
def literal (value : Binary64) : Option V :=
  if value.isZero then none else some (I.word value.shortestText)

/-- A power whose base is not symbolic zero. -/
def powerOf (base : V) (exponent : ExponentForm)
    (exponentValue : Except Fault (TensorValue V)) : Except Fault V :=
  match exponent with
  | .integer value => return I.power base (I.word (toString value))
  | .real value => return I.generalPower base (I.word value.shortestText)
  | .function => do
    match (← exponentValue).asScalar? with
    | some (some exponent) => return I.generalPower base exponent
    | some none => return 1
    | none => throw .unsupportedExponent
  | .unsupported => throw .unsupportedExponent

/-- A power, from the values of its operands. -/
def powerValue (baseValue : Except Fault (TensorValue V)) (exponent : ExponentForm)
    (exponentValue : Except Fault (TensorValue V)) : Except Fault (TensorValue V) := do
  match (← baseValue).asScalar? with
  | none => throw (.nonScalarOperand "Power")
  | some none => return .scalar (← exponent.powerOfZero 1)
  | some (some base) => return .scalar (some (← I.powerOf base exponent exponentValue))

/-- The factor by which a reference component enters a physical component. -/
def pullbackFactor (pullback : Pullback) (component : Nat) (side : Restriction) : V :=
  match pullback with
  | .identity => 1
  | .covariant direction => I.word (JacobianKind.inverse.entryName direction component side)
  | .contravariant direction =>
    1 / I.word (determinantName side)
      * I.word (JacobianKind.jacobian.entryName direction component side)

/-- The product of the chain rule factors of a reference derivative. -/
def chainFactor (directions tuple : List Nat) (side : Restriction) : V :=
  ((directions.zip tuple).map fun pair =>
    I.word (JacobianKind.inverse.entryName pair.2 pair.1 side)).prod

/-- What one table contributes: nothing if it is structurally zero. -/
def basisTerms (place : ComponentPlace) (context : LoweringContext) (tuple : List Nat)
    (contributor : Contributor) (table : Entry) : List V :=
  table.toList.map fun basis =>
    I.chainFactor context.derivatives tuple context.restriction
      * (I.pullbackFactor contributor.pullback place.component context.restriction * I.word basis)

variable (tables : BasisTables) (dimensions : CellDimensions)

/-- What one table contributes to the basis functions of an argument. -/
def argumentContribution (argument : Argument) (place : ComponentPlace) (context : LoweringContext)
    (pair : List Nat × Contributor) : Key × List V :=
  let table := tables.argument argument (dimensions.tableRequest context pair.1 pair.2)
  (table.key, I.basisTerms place context pair.1 pair.2 table.code)

/-- What one table contributes to a coefficient. -/
def coefficientContribution (coefficient : Coefficient) (place : ComponentPlace)
    (context : LoweringContext) (pair : List Nat × Contributor) : List V :=
  I.basisTerms place context pair.1 pair.2
    (tables.coefficient coefficient (dimensions.tableRequest context pair.1 pair.2))

/-- The values of the basis functions of an argument. -/
def argumentValue (argument : Argument) (context : LoweringContext) :
    Except Fault (TensorValue V) := do
  let (component, place) ← tables.selected argument.element context
  let contributors ← dimensions.contributors component place
  let order := Backend.tableOrder
    (directionTuples dimensions.topological context.derivatives.length) contributors
  return (SortedMap.gather
    (order.map (I.argumentContribution tables dimensions argument place context))).mapValues
      TensorValue.total

/-- The value of a coefficient. -/
def coefficientValue (coefficient : Coefficient) (context : LoweringContext) :
    Except Fault (TensorValue V) := do
  let (component, place) ← tables.selected coefficient.element context
  let contributors ← dimensions.contributors component place
  let order := Backend.tableOrder
    (directionTuples dimensions.topological context.derivatives.length) contributors
  return .scalar (TensorValue.total
    (order.map (I.coefficientContribution tables dimensions coefficient place context)).flatten)

/-- A component of the facet normal. -/
def normalValue (context : LoweringContext) : Except Fault (TensorValue V) :=
  match context.component with
  | [component] => return .scalar (some (I.word (normalName context.restriction component)))
  | component => throw (.componentMismatch 1 component.length)

/-- The derivative of a leaf that is constant over the cell. -/
def constantLeaf (context : LoweringContext) (value : Except Fault (TensorValue V)) :
    Except Fault (TensorValue V) :=
  if context.derivatives.isEmpty then value else return .scalar none

mutual

/-- The value of an expression in a context. -/
def evaluate (expr : Expr) (context : LoweringContext) : Except Fault (TensorValue V) :=
  match expr with
  | .sum operands => do
    return TensorValue.sum (← evaluateAll operands context)
  | .product operands => do
    return TensorValue.product (← evaluateAll operands context)
  | .division operands => do
    TensorValue.division (← evaluateAll operands context)
  | .power base exponent =>
    I.powerValue (evaluate base context) exponent.exponentForm (evaluate exponent context)
  | .abs operands => do
    I.abs (← evaluateAll operands context)
  | .elementary function operands => do
    I.applyFunction function (← evaluateAll operands context)
  | .indexed operand component => evaluate operand (context.select component)
  | .restricted operand restriction => evaluate operand (context.restrict restriction)
  | .derivative operand direction => evaluate operand (context.differentiate direction)
  | .argument argument => I.argumentValue tables dimensions argument context
  | .coefficient coefficient => I.coefficientValue tables dimensions coefficient context
  | .facetNormal => constantLeaf context (I.normalValue context)
  | .integer value => constantLeaf context (return .scalar (I.literal (.ofInt value)))
  | .real value => constantLeaf context (return .scalar (I.literal value))
  | .zero => constantLeaf context (return .scalar none)
  | .symbol name => constantLeaf context (return .scalar (some (I.word name)))

/-- The values of a list of operands. -/
def evaluateAll (operands : List Expr) (context : LoweringContext) :
    Except Fault (List (TensorValue V)) :=
  match operands with
  | [] => return []
  | operand :: rest => do
    let value ← evaluate operand context
    return value :: (← evaluateAll rest context)

end

end Interpretation

end FormLowering
