import FormLowering.Lowering.Backend
import FormLowering.TensorCode.Arithmetic

/-!
# Basis functions in physical coordinates

Tables hold values and derivatives of basis functions on the reference cell.
A physical component of a function is a sum over reference components, given by
the mapping of the element, and a physical derivative is a sum over tuples of
reference directions, given by the chain rule.

With `K` the inverse of the Jacobian `J`:

* a derivative in physical directions `d₁, …, dₙ` is the sum over reference
  directions `r₁, …, rₙ` of `K(r₁, d₁) * … * K(rₙ, dₙ)` times the table of that
  reference derivative;
* component `c` of a covariant function is the sum over `r` of `K(r, c)` times
  reference component `r`;
* component `c` of a contravariant function is the sum over `r` of
  `J(r, c) / detJ` times reference component `r`.

A table that is structurally zero contributes nothing, not even a name.  Tables
depend on a tuple of reference directions only through the number of derivatives
in each direction.
-/

namespace FormLowering

/-! ### Reference directions -/

/-- Every tuple of `order` reference directions, in lexicographic order. -/
def directionTuples (dimension order : Nat) : List (List Nat) :=
  choices (List.replicate order (List.range dimension))

/-- The number of derivatives that a tuple takes in each reference direction, or
the empty list if it takes none. -/
def directionCounts (dimension : Nat) (tuple : List Nat) : List Nat :=
  let counts := (List.range dimension).map fun direction => tuple.count direction
  if counts.all (· = 0) then [] else counts

/-! ### Contributing reference components -/

/-- The factor by which a reference component enters a physical component. -/
inductive Pullback where
  /-- No factor. -/
  | identity
  /-- An entry of the inverse Jacobian, in the row of a reference direction. -/
  | covariant (direction : Nat)
  /-- An entry of the Jacobian over its determinant, in the row of a direction. -/
  | contravariant (direction : Nat)
deriving DecidableEq

/-- A reference component that contributes to a physical component. -/
structure Contributor where
  component : Nat
  pullback : Pullback
deriving DecidableEq

namespace CellDimensions

/-- The reference components that contribute to a physical component. -/
def contributors (dimensions : CellDimensions) (component : Nat) (place : ComponentPlace) :
    Except Fault (List Contributor) :=
  let directions := List.range dimensions.geometric
  match place.mapping with
  | .affine => return [⟨component, .identity⟩]
  | .covariantPiola =>
    return directions.map fun direction =>
      ⟨direction + place.offset, .covariant direction⟩
  | .contravariantPiola =>
    return directions.map fun direction =>
      ⟨direction + place.offset, .contravariant direction⟩
  | mapping => throw (.unsupportedMapping mapping)

/-- The request for the table of a reference derivative of a reference component. -/
def tableRequest (dimensions : CellDimensions) (context : LoweringContext) (tuple : List Nat)
    (contributor : Contributor) : TableRequest where
  component := contributor.component
  derivatives := directionCounts dimensions.topological tuple
  restriction := context.restriction

end CellDimensions

/-! ### Code of basis functions -/

namespace Backend

/-- A reference basis times the factor of its pullback. -/
def applyPullback (backend : Backend) (pullback : Pullback) (component : Nat)
    (restriction : Restriction) (basis : Token) : LowerM Token := do
  let dialect := backend.dialect
  match pullback with
  | .identity => return basis
  | .covariant direction =>
    let inverse ← LowerM.record (dialect.jacobian .inverse direction component restriction)
    return dialect.multiply [inverse, basis]
  | .contravariant direction =>
    let determinant ← LowerM.record (dialect.determinant restriction)
    let jacobian ← LowerM.record (dialect.jacobian .jacobian direction component restriction)
    return dialect.multiply [dialect.reciprocal determinant, jacobian, basis]

/-- A basis times the chain rule factors of a reference derivative, one for each
physical direction paired with the reference direction at its position.  Without
a basis, the factors alone. -/
def chainRule (backend : Backend) (basis : Option Token) (directions tuple : List Nat)
    (restriction : Restriction) : LowerM Token := do
  let factors ← (directions.zip tuple).mapM fun pair =>
    LowerM.record (backend.dialect.jacobian .inverse pair.2 pair.1 restriction)
  return backend.dialect.multiply (factors ++ basis.toList)

/-- The terms that one table contributes: none if the table is structurally
zero, else its token with the factors of pullback and chain rule. -/
def basisTerms (backend : Backend) (place : ComponentPlace) (context : LoweringContext)
    (tuple : List Nat) (contributor : Contributor) (table : Entry) :
    LowerM (List Token) :=
  table.toList.mapM fun basis => do
    let pulled ← backend.applyPullback contributor.pullback place.component
      context.restriction basis
    backend.chainRule (some pulled) context.derivatives tuple context.restriction

/-- Every pair of a tuple of directions and a contributor, in the order in which
the tables are asked for. -/
def tableOrder (tuples : List (List Nat)) (contributors : List Contributor) :
    List (List Nat × Contributor) :=
  tuples.flatMap fun tuple => contributors.map fun contributor => (tuple, contributor)

/-- The code of the basis functions of an argument.  A component of the element
tensor whose tables are all structurally zero is symbolic zero. -/
def argumentCode (backend : Backend) (argument : Argument) (component : Nat)
    (place : ComponentPlace) (tuples : List (List Nat))
    (context : LoweringContext) : LowerM TensorCode := do
  let contributors ← LowerM.ofExcept (backend.dimensions.contributors component place)
  let contributions ← (tableOrder tuples contributors).mapM fun pair => do
    let table := backend.elements.argument argument
      (backend.dimensions.tableRequest context pair.1 pair.2)
    let terms ← backend.basisTerms place context pair.1 pair.2 table.code
    return (table.key, terms)
  return (SortedMap.gather contributions).mapValues backend.dialect.join

/-- The code of the values of a coefficient. -/
def coefficientCode (backend : Backend) (coefficient : Coefficient) (component : Nat)
    (place : ComponentPlace) (tuples : List (List Nat))
    (context : LoweringContext) : LowerM Entry := do
  let contributors ← LowerM.ofExcept (backend.dimensions.contributors component place)
  let terms ← (tableOrder tuples contributors).mapM fun pair =>
    backend.basisTerms place context pair.1 pair.2
      (backend.elements.coefficient coefficient
        (backend.dimensions.tableRequest context pair.1 pair.2))
  return backend.dialect.join terms.flatten

end Backend

end FormLowering
