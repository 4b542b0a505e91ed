import FormLowering.Form.Expr
import FormLowering.Json.Basic
import FormLowering.Sorted.Set
import FormLowering.TensorCode.Basic

/-!
# Names of geometric quantities

Emitted code refers to geometric quantities by name: entries of the Jacobian
`J` and of its inverse `K`, the determinant `detJ`, and components of the facet
normal `n`.  Behind the letter stands a digit for the side of the facet, if the
quantity is restricted to one.

The names that emitted code refers to are collected in a set.  Its serialised
form is a record with the names in increasing order.  Reading accepts them in
any order and any number of times.
-/

namespace FormLowering

/-! ### Names -/

/-- A matrix of the map between the reference cell and the physical cell. -/
inductive JacobianKind where
  /-- The Jacobian of the map from the reference cell to the physical cell. -/
  | jacobian
  /-- Its inverse. -/
  | inverse
deriving DecidableEq

namespace Restriction

/-- The digit by which names refer to a side. -/
def suffix : Restriction → String
  | .none => ""
  | .positive => "0"
  | .negative => "1"

end Restriction

namespace JacobianKind

/-- The letter of the matrix. -/
def letter : JacobianKind → String
  | .jacobian => "J"
  | .inverse => "K"

/-- The name of an entry. -/
def entryName (kind : JacobianKind) (row column : Nat) (restriction : Restriction) : Token :=
  kind.letter ++ restriction.suffix ++ "_" ++ toString row ++ toString column

end JacobianKind

/-- The name of the determinant of the Jacobian. -/
def determinantName (restriction : Restriction) : Token :=
  "detJ" ++ restriction.suffix

/-- The name of a component of the facet normal. -/
def normalName (restriction : Restriction) (component : Nat) : Token :=
  "n" ++ restriction.suffix ++ "_" ++ toString component

/-! ### Sets of names -/

/-- The names that emitted code refers to and that have to be declared. -/
abbrev GeometryNames :=
  SortedSet Token

namespace GeometryNames

/-- The record of a set of names. -/
def toJson (names : GeometryNames) : Json :=
  .object [("transforms", .array (names.elements.map .string))]

/-- Reads the record of a set of names. -/
def ofJson? (value : Json) : Option GeometryNames := do
  match ← value.fields? ["transforms"] with
  | [names] => return .ofList (← (← names.elements?).mapM Json.text?)
  | _ => none

end GeometryNames

end FormLowering
