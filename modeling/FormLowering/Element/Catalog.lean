import FormLowering.Element.Basic
import FormLowering.Geometry.Serial

/-!
# A catalog of elements

Elements are numbered in the order of their registration.  A table of reference
values is named by its element, its component and, if derivatives are taken,
the number of derivatives in each direction.

Tables can be marked structurally zero at any time, also before the element
they belong to is registered.  A vector of derivative counts that are all zero
means the same as the empty vector.
-/

namespace FormLowering

/-- The name of the loop variable over the basis functions of an argument. -/
def loopVariable (number : Nat) : String :=
  match number with
  | 0 => "j"
  | 1 => "k"
  | 2 => "l"
  | 3 => "m"
  | _ => "r" ++ toString number

/-- The part of a table name that says how many derivatives are taken in each
direction, if any are. -/
def derivativeSuffix (derivatives : List Nat) : String :=
  if derivatives.all (· = 0) then "" else "_D" ++ String.join (derivatives.map toString)

/-- The part of a table name that says which side of a facet is meant. -/
def sideSuffix : Restriction → String
  | .none => ""
  | restriction => "_R" ++ restriction.suffix

/-- The name of a table of an element. -/
def tableLabel (element component : Nat) (derivatives : List Nat) : String :=
  "FE" ++ toString element ++ "_C" ++ toString component ++ derivativeSuffix derivatives

/-- Derivative counts without the difference between no counts and zero counts. -/
def canonicalCounts (derivatives : List Nat) : List Nat :=
  if derivatives.all (· = 0) then [] else derivatives

/-- A table of reference values: an element, a component and derivative counts. -/
structure TableId where
  element : Nat
  component : Nat
  derivatives : List Nat
deriving DecidableEq

/-- Registered elements and the tables that are structurally zero. -/
structure ElementCatalog where
  elements : Array FiniteElement := #[]
  vanishing : List TableId := []

namespace ElementCatalog

/-- The catalog with one more element, and the number given to it. -/
def register (catalog : ElementCatalog) (element : FiniteElement) :
    ElementCatalog × Nat :=
  ({ catalog with elements := catalog.elements.push element }, catalog.elements.size)

/-- The element with the given number. -/
def element? (catalog : ElementCatalog) (number : Nat) : Option FiniteElement :=
  catalog.elements[number]?

/-- The catalog with one more table marked structurally zero. -/
def declareZero (catalog : ElementCatalog) (element component : Nat)
    (derivatives : List Nat) : ElementCatalog :=
  let table := ⟨element, component, canonicalCounts derivatives⟩
  { catalog with vanishing := catalog.vanishing.insert table }

/-- Whether a table is marked structurally zero. -/
def isZero (catalog : ElementCatalog) (element component : Nat)
    (derivatives : List Nat) : Bool :=
  catalog.vanishing.contains ⟨element, component, canonicalCounts derivatives⟩

/-- The token of the basis of an argument. -/
def argumentToken (argument : Argument) (request : TableRequest) : Token :=
  tableLabel argument.element request.component request.derivatives
    ++ sideSuffix request.restriction ++ "[ip][" ++ loopVariable argument.number ++ "]"

/-- The token of the values of a coefficient. -/
def coefficientToken (coefficient : Coefficient) (request : TableRequest) : Token :=
  "F" ++ toString coefficient.number ++ "_C" ++ toString request.component
    ++ derivativeSuffix request.derivatives ++ sideSuffix request.restriction

/-- The tables of the elements of a catalog.  An argument contributes to the
component with its number. -/
def tables (catalog : ElementCatalog) : BasisTables where
  locate element component :=
    (catalog.element? element).bind fun found => found.locate component
  argument argument request :=
    { key := [argument.number]
      code :=
        if catalog.isZero argument.element request.component request.derivatives then none
        else some (argumentToken argument request) }
  coefficient coefficient request :=
    if catalog.isZero coefficient.element request.component request.derivatives then none
    else some (coefficientToken coefficient request)

end ElementCatalog

end FormLowering
