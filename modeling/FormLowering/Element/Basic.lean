import FormLowering.Form.Expr
import FormLowering.TensorCode.Basic

/-!
# Finite elements and their tables

A finite element is described as far as code generation needs it: how its
reference values are mapped to the physical cell, how many value components it
has, and which sub-elements it is made of.

`FiniteElement.locate` finds the sub-element that holds a flat value component.
The description may come from outside, so the value sizes of a mixed element
and of its parts need not fit together.

Lowering does not tabulate basis functions.  It asks where a value component
lives, and for the token that names a table of reference values, or none if that
table is structurally zero.
-/

namespace FormLowering

/-- How reference basis values are mapped to the physical cell. -/
inductive Mapping where
  | affine
  | covariantPiola
  | contravariantPiola
  | doubleCovariantPiola
  | doubleContravariantPiola
deriving DecidableEq

namespace Mapping

/-- The name of the mapping in messages. -/
def name : Mapping → String
  | .affine => "affine"
  | .covariantPiola => "covariant Piola"
  | .contravariantPiola => "contravariant Piola"
  | .doubleCovariantPiola => "double covariant Piola"
  | .doubleContravariantPiola => "double contravariant Piola"

/-- Every mapping, once. -/
def all : List Mapping :=
  [.affine, .covariantPiola, .contravariantPiola, .doubleCovariantPiola,
    .doubleContravariantPiola]

end Mapping

/-- Where a flat value component lives inside an element. -/
structure ComponentPlace where
  /-- The mapping of the sub-element that holds the component. -/
  mapping : Mapping
  /-- The flat component at which that sub-element starts. -/
  offset : Nat
  /-- The component relative to that sub-element. -/
  component : Nat
deriving DecidableEq

namespace ComponentPlace

/-- The same place in an element with `size` further components in front. -/
def shift (size : Nat) (place : ComponentPlace) : ComponentPlace :=
  { place with offset := size + place.offset }

end ComponentPlace

/-- A finite element.  An element with sub-elements is mixed. -/
structure FiniteElement where
  family : String
  degree : Nat
  mapping : Mapping
  /-- The number of flat value components. -/
  valueSize : Nat
  parts : List FiniteElement

namespace FiniteElement

/-- An element without sub-elements. -/
def simple (family : String) (degree : Nat) (mapping : Mapping) (valueSize : Nat) :
    FiniteElement :=
  ⟨family, degree, mapping, valueSize, []⟩

/-- The element made of the given ones, with their components one after the
other. -/
def mixed (parts : List FiniteElement) : FiniteElement where
  family := "Mixed"
  degree := (parts.map degree).foldl max 0
  mapping := .affine
  valueSize := (parts.map valueSize).foldr (· + ·) 0
  parts := parts

/-- The scalar Lagrange element. -/
def lagrange (degree : Nat) : FiniteElement :=
  simple "Lagrange" degree .affine 1

/-- The vector-valued Lagrange element, made of scalar ones. -/
def vectorLagrange (degree dimension : Nat) : FiniteElement :=
  mixed (List.replicate dimension (lagrange degree))

/-- The Nédélec element of the first kind. -/
def nedelec (degree dimension : Nat) : FiniteElement :=
  simple "N1curl" degree .covariantPiola dimension

/-- The Raviart-Thomas element. -/
def raviartThomas (degree dimension : Nat) : FiniteElement :=
  simple "RT" degree .contravariantPiola dimension

/-- Whether the element has sub-elements. -/
def isMixed (element : FiniteElement) : Bool :=
  !element.parts.isEmpty

mutual

/-- The place of a flat value component, if the element has that component. -/
def locate : FiniteElement → Nat → Option ComponentPlace
  | ⟨_, _, mapping, valueSize, parts⟩, component =>
    if valueSize ≤ component then none
    else if parts.isEmpty then some ⟨mapping, 0, component⟩
    else locateIn parts component

/-- The place of a component in a row of elements: the first element whose size
exceeds what is left of the component has to hold it. -/
def locateIn : List FiniteElement → Nat → Option ComponentPlace
  | [], _ => none
  | element :: rest, component =>
    if component < element.valueSize then element.locate component
    else (locateIn rest (component - element.valueSize)).map (·.shift element.valueSize)

end

end FiniteElement

/-! ### Tables of basis functions -/

/-- A request for a table of reference values. -/
structure TableRequest where
  /-- The reference value component. -/
  component : Nat
  /-- The number of derivatives in each reference direction.  Empty without
  derivatives. -/
  derivatives : List Nat
  restriction : Restriction
deriving DecidableEq

/-- The answer to a request for the basis of an argument. -/
structure ArgumentTable where
  /-- The component of the element tensor that the basis contributes to. -/
  key : Key
  /-- The token of the table, or symbolic zero. -/
  code : Entry
deriving DecidableEq

/-- What lowering needs to know about the elements of a form. -/
structure BasisTables where
  /-- The place of a flat value component of an element. -/
  locate : (element component : Nat) → Option ComponentPlace
  /-- The basis of an argument. -/
  argument : Argument → TableRequest → ArgumentTable
  /-- The values of a coefficient. -/
  coefficient : Coefficient → TableRequest → Entry

end FormLowering
