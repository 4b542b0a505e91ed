import FormLowering.Number.Binary64

/-!
# Expressions of variational forms

The integrand of a variational form is a tree of algebraic operations over a
closed set of leaves: test and trial functions (arguments), known fields
(coefficients), facet normals, literals and named constants.

Operand counts are not part of the type.  A tree may arrive from outside, and
a wrong count is reported when the tree is lowered.
-/

namespace FormLowering

/-- The side of a facet that a term refers to, in integrals over interior
facets. -/
inductive Restriction where
  | none
  | positive
  | negative
deriving DecidableEq, Inhabited

/-- A test or trial function. -/
structure Argument where
  /-- Position in the form: `0` for the test function, `1` for the trial function. -/
  number : Nat
  /-- The element whose basis the function ranges over. -/
  element : Nat
deriving DecidableEq

/-- A known field, expanded in the basis of an element. -/
structure Coefficient where
  number : Nat
  element : Nat
deriving DecidableEq

/-- An elementary function of one variable. -/
inductive ElementaryFunction where
  | sqrt
  | exp
  | ln
  | cos
  | sin
deriving DecidableEq

namespace ElementaryFunction

/-- The mathematical name of the function. -/
def name : ElementaryFunction → String
  | .sqrt => "sqrt"
  | .exp => "exp"
  | .ln => "ln"
  | .cos => "cos"
  | .sin => "sin"

end ElementaryFunction

/-- The kinds of expression nodes. -/
inductive NodeKind where
  | sum
  | product
  | division
  | power
  | abs
  | elementary
  | indexed
  | restricted
  | derivative
  | facetNormal
  | argument
  | coefficient
  | integer
  | real
  | zero
  | symbol
deriving DecidableEq

namespace NodeKind

/-- The name of the kind, in diagnostics and in the serialised form. -/
def name : NodeKind → String
  | .sum => "Sum"
  | .product => "Product"
  | .division => "Division"
  | .power => "Power"
  | .abs => "Abs"
  | .elementary => "MathFunction"
  | .indexed => "Indexed"
  | .restricted => "Restricted"
  | .derivative => "SpatialDerivative"
  | .facetNormal => "FacetNormal"
  | .argument => "Argument"
  | .coefficient => "Coefficient"
  | .integer => "IntValue"
  | .real => "FloatValue"
  | .zero => "Zero"
  | .symbol => "Symbol"

/-- Every kind, once. -/
def all : List NodeKind :=
  [.sum, .product, .division, .power, .abs, .elementary, .indexed, .restricted,
    .derivative, .facetNormal, .argument, .coefficient, .integer, .real,
    .zero, .symbol]

/-- The kind with the given name. -/
def ofName? (name : String) : Option NodeKind :=
  all.find? fun kind => kind.name = name

end NodeKind

/-- An expression of a variational form. -/
inductive Expr where
  | sum (operands : List Expr)
  | product (operands : List Expr)
  /-- Numerator and denominator. -/
  | division (operands : List Expr)
  | power (base exponent : Expr)
  | abs (operands : List Expr)
  | elementary (function : ElementaryFunction) (operands : List Expr)
  /-- The operand at the given component indices. -/
  | indexed (operand : Expr) (component : List Nat)
  /-- The operand on one side of the facet. -/
  | restricted (operand : Expr) (restriction : Restriction)
  /-- The derivative of the operand in a physical direction. -/
  | derivative (operand : Expr) (direction : Nat)
  /-- The outward unit normal of the facet. -/
  | facetNormal
  | argument (argument : Argument)
  | coefficient (coefficient : Coefficient)
  | integer (value : Int)
  | real (value : Binary64)
  | zero
  /-- A named, precomputed quantity that is constant over the cell. -/
  | symbol (name : String)
deriving Inhabited

namespace Expr

instance : Add Expr :=
  ⟨fun left right => .sum [left, right]⟩

instance : Mul Expr :=
  ⟨fun left right => .product [left, right]⟩

instance : Div Expr :=
  ⟨fun numerator denominator => .division [numerator, denominator]⟩

/-- The kind of the outermost node. -/
def kind : Expr → NodeKind
  | .sum _ => .sum
  | .product _ => .product
  | .division _ => .division
  | .power _ _ => .power
  | .abs _ => .abs
  | .elementary _ _ => .elementary
  | .indexed _ _ => .indexed
  | .restricted _ _ => .restricted
  | .derivative _ _ => .derivative
  | .facetNormal => .facetNormal
  | .argument _ => .argument
  | .coefficient _ => .coefficient
  | .integer _ => .integer
  | .real _ => .real
  | .zero => .zero
  | .symbol _ => .symbol

/-- Whether the expression is a coefficient, possibly indexed or restricted. -/
def isField : Expr → Bool
  | .coefficient _ => true
  | .indexed operand _ => operand.isField
  | .restricted operand _ => operand.isField
  | _ => false

mutual

/-- Whether two expressions have the same structure and the same values in
their literals. -/
def sameAs : Expr → Expr → Bool
  | .sum left, .sum right => allSameAs left right
  | .product left, .product right => allSameAs left right
  | .division left, .division right => allSameAs left right
  | .power base exponent, .power base' exponent' =>
    sameAs base base' && sameAs exponent exponent'
  | .abs left, .abs right => allSameAs left right
  | .elementary function left, .elementary function' right =>
    function == function' && allSameAs left right
  | .indexed left component, .indexed right component' =>
    sameAs left right && component == component'
  | .restricted left restriction, .restricted right restriction' =>
    sameAs left right && restriction == restriction'
  | .derivative left direction, .derivative right direction' =>
    sameAs left right && direction == direction'
  | .facetNormal, .facetNormal => true
  | .argument left, .argument right => left == right
  | .coefficient left, .coefficient right => left == right
  | .integer left, .integer right => left == right
  | .real left, .real right => left.sameValue right
  | .zero, .zero => true
  | .symbol left, .symbol right => left == right
  | _, _ => false

/-- Whether two lists of expressions agree element by element. -/
def allSameAs : List Expr → List Expr → Bool
  | [], [] => true
  | left :: lefts, right :: rights => sameAs left right && allSameAs lefts rights
  | _, _ => false

end

end Expr

end FormLowering
