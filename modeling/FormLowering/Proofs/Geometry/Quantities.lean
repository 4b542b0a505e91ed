import FormLowering.Proofs.Reading.Nonempty
import FormLowering.Proofs.TableTokens

/-!
# Geometric quantities and their names

The name of a geometric quantity is the text of its family, the digit of a side if there is
one, and an index that starts with an underscore if there is one.  All three can be read off
it.

The index of an entry is the number of its row and the number of its column, without anything
between the two.  So it tells the row and the column apart only as far as it is known how many
digits the column has.  Rows may have any number of digits.

The digit of a side stands behind the text of the family.  So it can be put into a name that
has none (`restrictName`), and no name belongs to two sides.
-/

namespace FormLowering

/-! ### Families of names -/

/-- The texts that names start with, one for each family of quantities. -/
def nameFamilies : List String :=
  ["K", "J", "detJ", "n"]

/-- A name, split behind the text of its family. -/
def splitFamily? (name : Token) : Option (String × String) :=
  (nameFamilies.find? fun family => family.toList.isPrefixOf name.toList).map fun family =>
    (family, .ofList (name.toList.drop family.length))

/-- No family starts with the text of another one. -/
theorem splitFamily?_append {family : String} (hFamily : family ∈ nameFamilies) (rest : String) :
    splitFamily? (family ++ rest) = some (family, rest) := by
  have hFind : nameFamilies.find? (fun other => other.toList.isPrefixOf (family ++ rest).toList) =
      some family := by
    simp only [nameFamilies, List.mem_cons, List.not_mem_nil, or_false] at hFamily ⊢
    rcases hFamily with rfl | rfl | rfl | rfl <;>
      simp [String.toList_append, List.find?, List.isPrefixOf]
  rw [splitFamily?, hFind, Option.map_some, String.toList_append, ← String.length_toList,
    List.drop_left, String.ofList_toList]

theorem JacobianKind.letter_mem_nameFamilies (kind : JacobianKind) :
    kind.letter ∈ nameFamilies := by
  cases kind <;> decide

theorem JacobianKind.entryName_eq (kind : JacobianKind) (row column : Nat) (side : Restriction) :
    kind.entryName row column side =
      kind.letter ++ side.suffix ++ ("_" ++ (toString row ++ toString column)) := by
  simp only [JacobianKind.entryName, String.append_assoc]

theorem normalName_eq (side : Restriction) (component : Nat) :
    normalName side component = "n" ++ side.suffix ++ ("_" ++ toString component) := by
  simp only [normalName, String.append_assoc]

/-! ### Quantities -/

/-- A geometric quantity that emitted code can refer to by name. -/
inductive GeometricQuantity where
  /-- An entry of a Jacobian matrix. -/
  | entry (kind : JacobianKind) (row column : Nat) (side : Restriction)
  /-- The determinant of the Jacobian. -/
  | determinant (side : Restriction)
  /-- A component of the facet normal. -/
  | normal (side : Restriction) (component : Nat)
deriving DecidableEq

/-- The families of quantities: the entries of each matrix, determinants and normals. -/
inductive QuantityFamily where
  | entries (kind : JacobianKind)
  | determinants
  | normals
deriving DecidableEq

/-- The text that the names of a family start with. -/
def QuantityFamily.text : QuantityFamily → String
  | .entries kind => kind.letter
  | .determinants => "detJ"
  | .normals => "n"

namespace QuantityFamily

theorem text_mem_nameFamilies (family : QuantityFamily) : family.text ∈ nameFamilies := by
  cases family with
  | entries kind => exact kind.letter_mem_nameFamilies
  | determinants => exact show "detJ" ∈ nameFamilies by decide
  | normals => exact show "n" ∈ nameFamilies by decide

theorem text_injective {family family' : QuantityFamily} (hText : family.text = family'.text) :
    family = family' := by
  rcases family with ⟨⟨⟩⟩ | _ | _ <;> rcases family' with ⟨⟨⟩⟩ | _ | _ <;>
    first | rfl | exact absurd hText (by decide)

end QuantityFamily

namespace GeometricQuantity

/-- The name of a quantity. -/
def name : GeometricQuantity → Token
  | .entry kind row column side => kind.entryName row column side
  | .determinant side => determinantName side
  | .normal side component => normalName side component

/-- The family of a quantity. -/
def family : GeometricQuantity → QuantityFamily
  | .entry kind _ _ _ => .entries kind
  | .determinant _ => .determinants
  | .normal _ _ => .normals

/-- The side of the facet that a quantity belongs to. -/
def side : GeometricQuantity → Restriction
  | .entry _ _ _ side | .determinant side | .normal side _ => side

/-- The text behind the digit of the side. -/
def index : GeometricQuantity → String
  | .entry _ row column _ => "_" ++ (toString row ++ toString column)
  | .determinant _ => ""
  | .normal _ component => "_" ++ toString component

/-- Whether a quantity is no entry of a matrix, or one in the first ten columns. -/
def ColumnBelowTen : GeometricQuantity → Prop
  | .entry _ _ column _ => column < 10
  | .determinant _ | .normal _ _ => True

instance : DecidablePred ColumnBelowTen
  | .entry _ _ column _ => inferInstanceAs (Decidable (column < 10))
  | .determinant _ => inferInstanceAs (Decidable True)
  | .normal _ _ => inferInstanceAs (Decidable True)

/-! ### Reading a name -/

theorem name_eq_append (quantity : GeometricQuantity) :
    quantity.name = quantity.family.text ++ (quantity.side.suffix ++ quantity.index) := by
  rw [← String.append_assoc]
  cases quantity with
  | entry kind row column side => exact kind.entryName_eq row column side
  | determinant side => exact String.append_empty.symm
  | normal side component => exact normalName_eq side component

/-- The text behind a family starts with the digit of the side, or there is none. -/
theorem suffix_unique {side side' : Restriction} {index index' : String}
    (hIndex : index = "" ∨ ∃ rest, index = "_" ++ rest)
    (hIndex' : index' = "" ∨ ∃ rest, index' = "_" ++ rest)
    (hEqual : side.suffix ++ index = side'.suffix ++ index') : side = side' := by
  have hText := congrArg (·.toList.head?) hEqual
  rcases hIndex with rfl | ⟨rest, rfl⟩ <;> rcases hIndex' with rfl | ⟨rest', rfl⟩ <;>
    cases side <;> cases side' <;> simp [Restriction.suffix] at hText ⊢

/-- An index is never taken for the digit of a side. -/
theorem index_eq (quantity : GeometricQuantity) :
    quantity.index = "" ∨ ∃ rest, quantity.index = "_" ++ rest := by
  cases quantity with
  | entry kind row column side => exact .inr ⟨_, rfl⟩
  | determinant side => exact .inl rfl
  | normal side component => exact .inr ⟨_, rfl⟩

/-- The three parts of a name can be read off it. -/
theorem name_eq_iff {quantity quantity' : GeometricQuantity} :
    quantity.name = quantity'.name ↔ quantity.family = quantity'.family ∧
      quantity.side = quantity'.side ∧ quantity.index = quantity'.index := by
  rw [name_eq_append, name_eq_append]
  constructor
  · intro hName
    have hSplit := congrArg splitFamily? hName
    rw [splitFamily?_append quantity.family.text_mem_nameFamilies,
      splitFamily?_append quantity'.family.text_mem_nameFamilies] at hSplit
    obtain ⟨hFamily, hRest⟩ := Prod.mk.inj (Option.some.inj hSplit)
    have hSide : quantity.side = quantity'.side :=
      suffix_unique quantity.index_eq quantity'.index_eq hRest
    rw [hSide] at hRest
    exact ⟨QuantityFamily.text_injective hFamily, hSide, (String.append_right_inj _).mp hRest⟩
  · rintro ⟨hFamily, hSide, hIndex⟩
    rw [hFamily, hSide, hIndex]

/-! ### Rows and columns -/

/-- Two numbers that are written one after the other can be told apart if it is known how
many digits the second one has. -/
theorem toString_append_inj_of_digitCount {row row' column column' : Nat}
    (hDigits : digitCount column = digitCount column')
    (hText : toString row ++ toString column = toString row' ++ toString column') :
    row = row' ∧ column = column' := by
  have hChars := congrArg String.toList hText
  simp only [String.toList_append, Nat.toString_eq_repr, Nat.toList_repr] at hChars
  obtain ⟨hRow, hColumn⟩ := List.append_inj' hChars hDigits
  exact ⟨toDigits_injective hRow, toDigits_injective hColumn⟩

/-- Quantities in the first ten columns are identified by their names. -/
theorem eq_of_name_eq {quantity quantity' : GeometricQuantity} (hColumn : quantity.ColumnBelowTen)
    (hColumn' : quantity'.ColumnBelowTen) (hName : quantity.name = quantity'.name) :
    quantity = quantity' := by
  obtain ⟨hFamily, hSide, hIndex⟩ := name_eq_iff.mp hName
  cases quantity with
  | entry kind row column side =>
      cases quantity' with
      | entry kind' row' column' side' =>
          have hDigits : digitCount column = digitCount column' := by
            rw [digitCount_eq_one hColumn, digitCount_eq_one hColumn']
          obtain ⟨rfl, rfl⟩ :=
            toString_append_inj_of_digitCount hDigits ((String.append_right_inj "_").mp hIndex)
          obtain rfl : kind = kind' := QuantityFamily.entries.inj hFamily
          obtain rfl : side = side' := hSide
          rfl
      | determinant side' => cases hFamily
      | normal side' component' => cases hFamily
  | determinant side =>
      cases quantity' with
      | entry kind' row' column' side' => cases hFamily
      | determinant side' => exact congrArg determinant hSide
      | normal side' component' => cases hFamily
  | normal side component =>
      cases quantity' with
      | entry kind' row' column' side' => cases hFamily
      | determinant side' => cases hFamily
      | normal side' component' =>
          obtain rfl := Nat.repr_injective ((String.append_right_inj "_").mp hIndex)
          obtain rfl : side = side' := hSide
          rfl

/-- A column with two digits can be taken for a row with one digit more. -/
example : (entry .inverse 1 10 .none).name = (entry .inverse 11 0 .none).name := by decide

theorem injOn_name : Set.InjOn name {quantity | quantity.ColumnBelowTen} :=
  fun _ hColumn _ hColumn' => eq_of_name_eq hColumn hColumn'

end GeometricQuantity

/-! ### Sides of a facet -/

/-- The name with the digit of a side behind the text of its family. -/
def restrictName (side : Restriction) (name : Token) : Token :=
  match splitFamily? name with
  | some (family, rest) => family ++ side.suffix ++ rest
  | none => name

theorem restrictName_append {family : String} (hFamily : family ∈ nameFamilies)
    (side : Restriction) (index : String) :
    restrictName side (family ++ Restriction.none.suffix ++ index) =
      family ++ side.suffix ++ index := by
  have hNone : family ++ Restriction.none.suffix ++ index = family ++ index :=
    congrArg (· ++ index) String.append_empty
  rw [hNone, restrictName, splitFamily?_append hFamily]

theorem restrictName_entryName (side : Restriction) (kind : JacobianKind) (row column : Nat) :
    restrictName side (kind.entryName row column .none) = kind.entryName row column side := by
  rw [kind.entryName_eq, kind.entryName_eq, restrictName_append kind.letter_mem_nameFamilies]

theorem restrictName_determinantName (side : Restriction) :
    restrictName side (determinantName .none) = determinantName side := by
  cases side <;> decide

theorem restrictName_normalName (side : Restriction) (component : Nat) :
    restrictName side (normalName .none component) = normalName side component := by
  rw [normalName_eq, normalName_eq, restrictName_append (by decide)]

/-- Whether a text is the name of a geometric quantity on a side. -/
inductive IsNameOn (side : Restriction) : Token → Prop
  | entry (kind : JacobianKind) (row column : Nat) :
    IsNameOn side (kind.entryName row column side)
  | determinant : IsNameOn side (determinantName side)
  | normal (component : Nat) : IsNameOn side (normalName side component)

theorem IsNameOn.exists_quantity {side : Restriction} {name : Token} (hName : IsNameOn side name) :
    ∃ quantity : GeometricQuantity, quantity.side = side ∧ quantity.name = name := by
  cases hName with
  | entry kind row column => exact ⟨.entry kind row column side, rfl, rfl⟩
  | determinant => exact ⟨.determinant side, rfl, rfl⟩
  | normal component => exact ⟨.normal side component, rfl, rfl⟩

/-- A name belongs to one side. -/
theorem IsNameOn.side_unique {side side' : Restriction} {name : Token}
    (hName : IsNameOn side name) (hName' : IsNameOn side' name) : side = side' := by
  obtain ⟨quantity, rfl, hQuantity⟩ := hName.exists_quantity
  obtain ⟨quantity', rfl, hQuantity'⟩ := hName'.exists_quantity
  exact (GeometricQuantity.name_eq_iff.mp (hQuantity.trans hQuantity'.symm)).2.1

/-! ### Names in a dialect -/

namespace Dialect

/-- The token by which a dialect refers to a quantity. -/
def nameOf (dialect : Dialect) : GeometricQuantity → Token
  | .entry kind row column side => dialect.jacobian kind row column side
  | .determinant side => dialect.determinant side
  | .normal side component => dialect.normal side component

theorem Available.nameOf_eq {dialect : Dialect} (hAvailable : dialect.Available) :
    dialect.nameOf = GeometricQuantity.name := by
  funext quantity
  cases quantity with
  | entry kind row column side => exact congrFun₃ (congrFun hAvailable.jacobian_eq kind) ..
  | determinant side => exact congrFun hAvailable.determinant_eq side
  | normal side component => exact congrFun₂ hAvailable.normal_eq side component

end Dialect

end FormLowering
