import FormLowering.Element.Serial
import FormLowering.Form.Serial
import FormLowering.Geometry.Serial
import FormLowering.Proofs.Traversal.Nodes

/-!
# Serialised forms are read back

What is written is read back: expressions, elements and sets of names.  Nothing is asked
of an element beyond that its numbers fit into words, so descriptions whose sizes do not
fit together survive as well.

Numbers are words of 64 bits, and integers are signed.  The one thing that is written and
cannot be read back is a real literal that is not finite.  It is written as `null`, and an
expression that contains one is refused as a whole.
-/

namespace FormLowering

/-- Lists are read back if their elements are. -/
theorem mapM_eq_some_iff {α : Type} {read : α → Option α} {good : α → Prop} {values others : List α}
    (hRead : ∀ value ∈ values, ∀ {other}, read value = some other ↔ other = value ∧ good value) :
    values.mapM read = some others ↔ others = values ∧ ∀ value ∈ values, good value := by
  induction values generalizing others with
  | nil => simp [eq_comm]
  | cons value rest ih =>
      rw [List.forall_mem_cons] at hRead ⊢
      simp only [List.mapM_cons, Option.bind_eq_bind, Option.bind_eq_some_iff, hRead.1,
        ih hRead.2, Option.pure_def, Option.some.injEq]
      constructor
      · rintro ⟨_, ⟨rfl, hFirst⟩, _, ⟨rfl, hRest⟩, rfl⟩
        exact ⟨rfl, hFirst, hRest⟩
      · rintro ⟨rfl, hFirst, hRest⟩
        exact ⟨value, ⟨rfl, hFirst⟩, rest, ⟨rfl, hRest⟩, rfl⟩

/-! ### Numbers and names -/

namespace Json

/-- Whether a number is an unsigned word. -/
def FitsWord (value : Nat) : Prop :=
  value < 2 ^ 64

/-- Whether a number is a signed word. -/
def FitsSignedWord (value : Int) : Prop :=
  -2 ^ 63 ≤ value ∧ value < 2 ^ 63

theorem nat?_integer {value : Nat} (hValue : FitsWord value) :
    nat? (.integer value) = some value := by
  have hBound : (value : Int) < Int.pow 2 64 := Int.ofNat_lt.mpr hValue
  rw [nat?, if_pos ⟨Int.natCast_nonneg value, hBound⟩, Int.toNat_natCast]

theorem int?_integer {value : Int} (hValue : FitsSignedWord value) :
    int? (.integer value) = some value :=
  if_pos hValue

theorem nats?_ofNats {values : List Nat} (hValues : ∀ value ∈ values, FitsWord value) :
    nats? (ofNats values) = some values := by
  simp only [nats?, ofNats, elements?, Option.bind_some]
  induction values with
  | nil => rfl
  | cons value rest ih =>
      rw [List.forall_mem_cons] at hValues
      rw [List.map_cons, List.mapM_cons, nat?_integer hValues.1, ih hValues.2]
      rfl

end Json

open Json (FitsWord FitsSignedWord)

theorem NodeKind.ofName?_name (kind : NodeKind) : ofName? kind.name = some kind := by
  cases kind <;> rfl

theorem Restriction.ofJson?_serialName (restriction : Restriction) :
    ofJson? (.string restriction.serialName) = some restriction := by
  cases restriction <;> rfl

theorem ElementaryFunction.ofJson?_serialName (function : ElementaryFunction) :
    ofJson? (.string function.serialName) = some function := by
  cases function <;> rfl

theorem Mapping.ofJson?_serialName (mapping : Mapping) :
    ofJson? (.string mapping.serialName) = some mapping := by
  cases mapping <;> rfl

namespace Argument

theorem ofJson?_of_fields {value number element : Json}
    (hFields : value.fields? ["number", "element"] = some [number, element]) :
    ofJson? value = do return ⟨← number.nat?, ← element.nat?⟩ := by
  rw [ofJson?, hFields]
  rfl

theorem ofJson?_toJson {argument : Argument} (hNumber : FitsWord argument.number)
    (hElement : FitsWord argument.element) : ofJson? argument.toJson = some argument := by
  rw [ofJson?_of_fields rfl, Json.nat?_integer hNumber, Json.nat?_integer hElement]
  rfl

end Argument

namespace Coefficient

theorem ofJson?_of_fields {value number element : Json}
    (hFields : value.fields? ["number", "element"] = some [number, element]) :
    ofJson? value = do return ⟨← number.nat?, ← element.nat?⟩ := by
  rw [ofJson?, hFields]
  rfl

theorem ofJson?_toJson {coefficient : Coefficient} (hNumber : FitsWord coefficient.number)
    (hElement : FitsWord coefficient.element) :
    ofJson? coefficient.toJson = some coefficient := by
  rw [ofJson?_of_fields rfl, Json.nat?_integer hNumber, Json.nat?_integer hElement]
  rfl

end Coefficient

/-! ### Expressions -/

namespace Expr

/-- Whether the numbers of a node are words. -/
def NumbersFit : Expr → Prop
  | .indexed _ component => ∀ index ∈ component, FitsWord index
  | .derivative _ direction => FitsWord direction
  | .argument basis => FitsWord basis.number ∧ FitsWord basis.element
  | .coefficient field => FitsWord field.number ∧ FitsWord field.element
  | .integer value => FitsSignedWord value
  | _ => True

/-- Whether a real literal is finite. -/
def FiniteLiteral : Expr → Prop
  | .real value => value.isFinite
  | _ => True

theorem ofJson?_taggedJson (kind : NodeKind) (payload : Json) :
    ofJson? (taggedJson kind payload) = ofPayload? kind payload := by
  rw [taggedJson, ofJson?, NodeKind.ofName?_name]
  rfl

theorem ofJsonAll?_toJsonAll (operands : List Expr) :
    ofJsonAll? (toJsonAll operands) = operands.mapM fun operand => ofJson? operand.toJson := by
  induction operands with
  | nil => rfl
  | cons operand rest ih => rw [toJsonAll, ofJsonAll?, ih, List.mapM_cons]

/-- An operation is read back with what its operands are read as. -/
theorem ofJson?_operation (operation : Operation) (operands : List Expr) :
    ofJson? (operation.node operands).toJson =
      (operands.mapM fun operand => ofJson? operand.toJson).map operation.node := by
  cases operation with
  | elementary function =>
      simp only [Operation.node, toJson, ofJson?_taggedJson, ofPayload?, ofJsonAll?_toJsonAll,
        ElementaryFunction.ofJson?_serialName, Option.map_eq_bind]
      rfl
  | _ =>
      simp only [Operation.node, toJson, ofJson?_taggedJson, ofPayload?, ofJsonAll?_toJsonAll]
      rfl

/-- A modifier is read back around what its operand is read as. -/
theorem ofJson?_modifier {modifier : Modifier} {operand : Expr}
    (hNumbers : NumbersFit (modifier.node operand)) :
    ofJson? (modifier.node operand).toJson = (ofJson? operand.toJson).map modifier.node := by
  simp only [Option.map_eq_bind]
  cases modifier with
  | index component =>
      have hComponent : ∀ index ∈ component, FitsWord index := hNumbers
      simp only [Modifier.node, toJson, ofJson?_taggedJson, ofPayload?, Json.nats?_ofNats hComponent]
      rfl
  | restrict restriction =>
      simp only [Modifier.node, toJson, ofJson?_taggedJson, ofPayload?,
        Restriction.ofJson?_serialName]
      rfl
  | differentiate direction =>
      have hDirection : FitsWord direction := hNumbers
      simp only [Modifier.node, toJson, ofJson?_taggedJson, ofPayload?, Json.nat?_integer hDirection]
      rfl

theorem ofJson?_power (base exponent : Expr) :
    ofJson? (Expr.power base exponent).toJson =
      (ofJson? base.toJson).bind fun base' => (ofJson? exponent.toJson).map (Expr.power base') := by
  simp only [toJson, ofJson?_taggedJson, ofPayload?, Option.map_eq_bind]
  rfl

/-- A real literal is read back if it is finite. -/
theorem ofJson?_real {value : Binary64} {other : Expr} :
    ofJson? (Expr.real value).toJson = some other ↔ other = .real value ∧ value.isFinite := by
  rw [toJson, ofJson?_taggedJson]
  cases hFinite : value.isFinite with
  | false => simp [ofPayload?, Json.real?]
  | true => simp [ofPayload?, Json.real?, eq_comm]

theorem ofJson?_constant {leaf : Constant} (hNumbers : NumbersFit leaf.expr) {other : Expr} :
    ofJson? leaf.expr.toJson = some other ↔ other = leaf.expr ∧ FiniteLiteral leaf.expr := by
  cases leaf with
  | real value => exact ofJson?_real
  | integer value =>
      have hValue : FitsSignedWord value := hNumbers
      simp only [Constant.expr, toJson, ofJson?_taggedJson, ofPayload?, Json.int?_integer hValue]
      simp [FiniteLiteral, eq_comm]
  | symbol name =>
      simp only [Constant.expr, toJson, ofJson?_taggedJson, ofPayload?, Json.text?]
      simp [FiniteLiteral, eq_comm]
  | normal =>
      simp only [Constant.expr, toJson, ofJson?, NodeKind.ofName?_name]
      simp [ofBareKind?, FiniteLiteral, eq_comm]
  | zero =>
      simp only [Constant.expr, toJson, ofJson?, NodeKind.ofName?_name]
      simp [ofBareKind?, FiniteLiteral, eq_comm]

/-- What the serialised form of an expression is read as: the expression itself, if its
literals are finite, and else nothing. -/
theorem ofJson?_toJson {expr other : Expr} (hNumbers : expr.Every NumbersFit) :
    ofJson? expr.toJson = some other ↔ other = expr ∧ expr.Every FiniteLiteral := by
  induction expr using node_induction generalizing other with
  | operation operation operands ih =>
      have hOperands := (every_operation.mp hNumbers).2
      have hLiteral : FiniteLiteral (operation.node operands) := by cases operation <;> exact trivial
      have hRead {others : List Expr} :
          (operands.mapM fun operand => ofJson? operand.toJson) = some others ↔
            others = operands ∧ ∀ operand ∈ operands, operand.Every FiniteLiteral :=
        mapM_eq_some_iff fun operand hOperand {_} => ih operand hOperand (hOperands operand hOperand)
      simp only [ofJson?_operation, Option.map_eq_some_iff, hRead, every_operation]
      constructor
      · rintro ⟨_, ⟨rfl, hFinite⟩, rfl⟩
        exact ⟨rfl, hLiteral, hFinite⟩
      · rintro ⟨rfl, -, hFinite⟩
        exact ⟨operands, ⟨rfl, hFinite⟩, rfl⟩
  | power base exponent ihBase ihExponent =>
      obtain ⟨-, hBase, hExponent⟩ := hNumbers
      simp only [ofJson?_power, Option.bind_eq_some_iff, Option.map_eq_some_iff, ihBase hBase,
        ihExponent hExponent]
      constructor
      · rintro ⟨_, ⟨rfl, hFiniteBase⟩, _, ⟨rfl, hFiniteExponent⟩, rfl⟩
        exact ⟨rfl, trivial, hFiniteBase, hFiniteExponent⟩
      · rintro ⟨rfl, -, hFiniteBase, hFiniteExponent⟩
        exact ⟨base, ⟨rfl, hFiniteBase⟩, exponent, ⟨rfl, hFiniteExponent⟩, rfl⟩
  | modifier modifier operand ih =>
      obtain ⟨hOwn, hOperand⟩ := every_modifier.mp hNumbers
      have hLiteral : FiniteLiteral (modifier.node operand) := by cases modifier <;> exact trivial
      simp only [ofJson?_modifier hOwn, Option.map_eq_some_iff, ih hOperand, every_modifier]
      constructor
      · rintro ⟨_, ⟨rfl, hFinite⟩, rfl⟩
        exact ⟨rfl, hLiteral, hFinite⟩
      · rintro ⟨rfl, -, hFinite⟩
        exact ⟨operand, ⟨rfl, hFinite⟩, rfl⟩
  | argument basis =>
      have hBasis : FitsWord basis.number ∧ FitsWord basis.element := hNumbers
      simp only [toJson, ofJson?_taggedJson, ofPayload?,
        Argument.ofJson?_toJson hBasis.1 hBasis.2]
      simp [Every, FiniteLiteral, eq_comm]
  | coefficient field =>
      have hField : FitsWord field.number ∧ FitsWord field.element := hNumbers
      simp only [toJson, ofJson?_taggedJson, ofPayload?,
        Coefficient.ofJson?_toJson hField.1 hField.2]
      simp [Every, FiniteLiteral, eq_comm]
  | constant leaf =>
      rw [every_constant] at hNumbers ⊢
      exact ofJson?_constant hNumbers

end Expr

/-! ### Elements -/

namespace FiniteElement

mutual

/-- Whether the numbers of an element, and of its parts, are words.  The sizes need not
agree with each other. -/
def NumbersFit : FiniteElement → Prop
  | ⟨_, degree, _, valueSize, parts⟩ =>
    FitsWord degree ∧ FitsWord valueSize ∧ AllNumbersFit parts

/-- Whether the numbers of every element of a list are words. -/
def AllNumbersFit : List FiniteElement → Prop
  | [] => True
  | element :: rest => NumbersFit element ∧ AllNumbersFit rest

end

theorem ofMembers?_cons_of_ne {name : String} (hName : name ≠ "sub_elements") (value : Json)
    (rest : List (String × Json)) : ofMembers? ((name, value) :: rest) = ofMembers? rest := by
  cases value <;> simp [ofMembers?, hName]

/-- A record with all of its fields in order is read field by field. -/
theorem ofJson?_record (family degree mapping valueSize : Json) (parts : List Json) :
    ofJson? (.object [("family", family), ("degree", degree), ("mapping", mapping),
      ("value_size", valueSize), ("sub_elements", .array parts)]) =
        (ofJsonAll? parts).bind (ofFields? family degree mapping valueSize) := by
  have hMembers : ofMembers? [("family", family), ("degree", degree), ("mapping", mapping),
      ("value_size", valueSize), ("sub_elements", .array parts)] = ofJsonAll? parts := by
    simp only [ofMembers?_cons_of_ne, ne_eq, String.reduceEq, not_false_eq_true]
    rfl
  rw [ofJson?, hMembers]
  rfl

theorem ofFields?_written {family : String} {degree valueSize : Nat} {mapping : Mapping}
    {parts : List FiniteElement} (hDegree : FitsWord degree) (hSize : FitsWord valueSize) :
    ofFields? (.string family) (.integer degree) (.string mapping.serialName)
      (.integer valueSize) parts = some ⟨family, degree, mapping, valueSize, parts⟩ := by
  rw [ofFields?, Json.nat?_integer hDegree, Json.nat?_integer hSize,
    Mapping.ofJson?_serialName]
  rfl

mutual

theorem ofJson?_toJson : (element : FiniteElement) → element.NumbersFit →
    ofJson? element.toJson = some element
  | ⟨family, degree, mapping, valueSize, parts⟩, hNumbers => by
      obtain ⟨hDegree, hSize, hParts⟩ := hNumbers
      rw [toJson, ofJson?_record, ofJsonAll?_toJsonAll parts hParts, Option.bind_some,
        ofFields?_written hDegree hSize]

theorem ofJsonAll?_toJsonAll : (elements : List FiniteElement) → AllNumbersFit elements →
    ofJsonAll? (toJsonAll elements) = some elements
  | [], _ => rfl
  | element :: rest, hNumbers => by
      rw [toJsonAll, ofJsonAll?, ofJson?_toJson element hNumbers.1,
        ofJsonAll?_toJsonAll rest hNumbers.2]
      rfl

end

end FiniteElement

/-! ### Sets of names -/

/-- A set of names is read back: its names are in order, so that reading finds the same
elements. -/
theorem GeometryNames.ofJson?_toJson (names : GeometryNames) :
    ofJson? names.toJson = some names := by
  have hTexts : (names.elements.map Json.string).mapM Json.text? = some names.elements := by
    have hText : ∀ name ∈ names.elements, ∀ {other},
        (Json.string name).text? = some other ↔ other = name ∧ True := by
      simp [Json.text?, eq_comm]
    rw [List.mapM_map]
    exact (mapM_eq_some_iff hText).mpr ⟨rfl, fun _ _ => trivial⟩
  have hNames : SortedSet.ofList names.elements = names :=
    SortedSet.ext_mem fun _ => SortedSet.mem_ofList
  have hFields : names.toJson.fields? ["transforms"] =
      some [.array (names.elements.map Json.string)] := rfl
  rw [ofJson?, hFields]
  simp only [Option.bind_eq_bind, Option.bind_some, Json.elements?, hTexts, hNames,
    Option.pure_def]

/-! ### Everything that is serialised -/

/-- Serialised forms are read back.  The serialised form of an expression is read as that
expression if all of its real literals are finite, and cannot be read otherwise.  Every
element and every set of names is read back as it was, whether or not the sizes of the
element fit together. -/
theorem serial_forms_read_back {expr : Expr} (hExpr : expr.Every Expr.NumbersFit)
    {element : FiniteElement} (hElement : element.NumbersFit) (names : GeometryNames) :
    (∀ other, Expr.ofJson? expr.toJson = some other ↔
      other = expr ∧ expr.Every Expr.FiniteLiteral) ∧
    FiniteElement.ofJson? element.toJson = some element ∧
    GeometryNames.ofJson? names.toJson = some names :=
  ⟨fun _ => Expr.ofJson?_toJson hExpr, FiniteElement.ofJson?_toJson element hElement,
    GeometryNames.ofJson?_toJson names⟩

/-- A product with nodes of several shapes, and the same product with an infinite literal;
a mixed element that has neither the degree nor the size of its part. -/
theorem serial_forms_read_back_product :
    let product (literal : Binary64) : Expr :=
      .product [.derivative (.argument ⟨1, 0⟩) 0, .restricted (.coefficient ⟨2, 1⟩) .positive,
        .indexed .facetNormal [0, 1], .power (.symbol "h") (.integer (-2)),
        .elementary .sqrt [.sum [], .zero], .real literal]
    let element : FiniteElement := ⟨"Mixed", 0, .covariantPiola, 7, [.lagrange 1]⟩
    Expr.ofJson? (product (.ofRatio false 1 2)).toJson = some (product (.ofRatio false 1 2)) ∧
      Expr.ofJson? (product (.infinity true)).toJson = none ∧
      FiniteElement.ofJson? element.toJson = some element ∧
      GeometryNames.ofJson? (GeometryNames.toJson (.ofList ["n_0", "J_00"])) =
        some (.ofList ["J_00", "n_0"]) := by
  intro product element
  have hProduct (literal : Binary64) : (product literal).Every Expr.NumbersFit := by
    simp [product, Expr.Every, Expr.AllEvery, Expr.NumbersFit, FitsWord, FitsSignedWord]
  have hElement : element.NumbersFit := by
    simp [element, FiniteElement.lagrange, FiniteElement.simple, FiniteElement.NumbersFit,
      FiniteElement.AllNumbersFit, FitsWord]
  have hFinite : (product (.ofRatio false 1 2)).Every Expr.FiniteLiteral := by
    have hHalf : (Binary64.ofRatio false 1 2).isFinite := by decide +kernel
    simp [product, Expr.Every, Expr.AllEvery, Expr.FiniteLiteral, hHalf]
  obtain ⟨hRead, hReadElement, hReadNames⟩ :=
    serial_forms_read_back (hProduct (.ofRatio false 1 2)) hElement (.ofList ["n_0", "J_00"])
  refine ⟨(hRead _).mpr ⟨rfl, hFinite⟩, ?_, hReadElement, hReadNames⟩
  rw [Option.eq_none_iff_forall_ne_some]
  intro other hOther
  have hInfinite := (((serial_forms_read_back (hProduct (.infinity true)) hElement ∅).1 other).mp
    hOther).2
  simp [product, Expr.Every, Expr.AllEvery, Expr.FiniteLiteral, Binary64.isFinite] at hInfinite

end FormLowering
