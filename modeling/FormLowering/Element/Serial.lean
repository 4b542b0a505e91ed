import FormLowering.Element.Basic
import FormLowering.Json.Basic

/-!
# Serialised elements

An element is a record of its five fields.  The description is taken as it is:
nothing is recomputed when it is read.
-/

namespace FormLowering

namespace Mapping

/-- The name of the mapping in the serialised form. -/
def serialName : Mapping → String
  | .affine => "Affine"
  | .covariantPiola => "CovariantPiola"
  | .contravariantPiola => "ContravariantPiola"
  | .doubleCovariantPiola => "DoubleCovariantPiola"
  | .doubleContravariantPiola => "DoubleContravariantPiola"

/-- Reads a mapping. -/
def ofJson? (value : Json) : Option Mapping :=
  value.tag?.bind fun name => all.find? (·.serialName = name)

end Mapping

namespace FiniteElement

mutual

/-- The record of an element. -/
def toJson : FiniteElement → Json
  | ⟨family, degree, mapping, valueSize, parts⟩ =>
    .object [("family", .string family), ("degree", .integer degree),
      ("mapping", .string mapping.serialName), ("value_size", .integer valueSize),
      ("sub_elements", .array (toJsonAll parts))]

/-- The records of a list of elements. -/
def toJsonAll : List FiniteElement → List Json
  | [] => []
  | element :: rest => toJson element :: toJsonAll rest

end

/-- The names of the fields, in order. -/
def fieldNames : List String :=
  ["family", "degree", "mapping", "value_size", "sub_elements"]

/-- An element from its fields, the last one being read already. -/
def ofFields? (family degree mapping valueSize : Json) (parts : List FiniteElement) :
    Option FiniteElement := do
  return ⟨← family.text?, ← degree.nat?, ← Mapping.ofJson? mapping, ← valueSize.nat?,
    parts⟩

mutual

/-- Reads the record of an element. -/
def ofJson? : Json → Option FiniteElement
  | .object members => do
    let parts ← ofMembers? members
    match ← (Json.object members).fields? fieldNames with
    | [family, degree, mapping, valueSize, _] =>
      ofFields? family degree mapping valueSize parts
    | _ => none
  | .array [family, degree, mapping, valueSize, .array parts] => do
    ofFields? family degree mapping valueSize (← ofJsonAll? parts)
  | _ => none

/-- Reads the sub-elements from the members of a record. -/
def ofMembers? : List (String × Json) → Option (List FiniteElement)
  | [] => none
  | (name, .array parts) :: rest =>
    if name = "sub_elements" then ofJsonAll? parts else ofMembers? rest
  | (name, _) :: rest => if name = "sub_elements" then none else ofMembers? rest

/-- Reads a list of elements. -/
def ofJsonAll? : List Json → Option (List FiniteElement)
  | [] => some []
  | element :: rest => do
    return (← ofJson? element) :: (← ofJsonAll? rest)

end

end FiniteElement

end FormLowering
