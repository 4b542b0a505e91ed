import FormLowering.Proofs.Reading.Nonempty
import FormLowering.Proofs.Tokens.Identifiers
import FormLowering.Proofs.Tokens.Preserved

/-!
# Names that tokens mention

A compiler that reads emitted code has to find a declaration for every identifier that
names a geometric quantity.  A token *mentions* these names.

Whatever a dialect writes between the operands of an operation, it never joins two
identifiers and never writes such a name by itself.  So an operation mentions what its
operands mention.  Literals and names of tables mention nothing.
-/

namespace FormLowering

/-- Whether a text is the name of a geometric quantity. -/
inductive IsGeometryName : Token → Prop
  | entry (kind : JacobianKind) (row column : Nat) (side : Restriction) :
    IsGeometryName (kind.entryName row column side)
  | determinant (side : Restriction) : IsGeometryName (determinantName side)
  | normal (side : Restriction) (component : Nat) : IsGeometryName (normalName side component)

/-- Whether a text has a `J`, or an underscore behind a `K` or an `n`. -/
def looksGeometric (text : Token) : Bool :=
  text.toList.contains 'J' ||
    text.toList.contains '_' && (text.toList.head? == some 'K' || text.toList.head? == some 'n')

theorem IsGeometryName.looksGeometric {name : Token} (hName : IsGeometryName name) :
    looksGeometric name = true := by
  cases hName with
  | entry kind row column side =>
      cases kind <;> cases side <;>
        simp [FormLowering.looksGeometric, JacobianKind.entryName, JacobianKind.letter,
          Restriction.suffix]
  | determinant side => cases side <;> decide
  | normal side component =>
      cases side <;> simp [FormLowering.looksGeometric, normalName, Restriction.suffix]

theorem IsGeometryName.isIdentifier {name : Token} (hName : IsGeometryName name) :
    IsIdentifier name := by
  have hMark : PlainText "_".toList := by decide
  cases hName with
  | entry kind row column side =>
      have hLetter : IsIdentifier kind.letter := by cases kind <;> decide
      exact (((hLetter.append (.suffix side)).append hMark).append (.natText row)).append
        (.natText column)
  | determinant side => exact IsIdentifier.append (by decide) (.suffix side)
  | normal side component =>
      have hLetter : IsIdentifier "n" := by decide
      exact ((hLetter.append (.suffix side)).append hMark).append (.natText component)

/-- Whether a token mentions a name: the name is that of a geometric quantity and one of
the identifiers of the token. -/
def Mentions (token name : Token) : Prop :=
  IsGeometryName name ∧ name ∈ identifiers token

/-- A name mentions itself and nothing else. -/
theorem mentions_name {name other : Token} (hName : IsGeometryName name) :
    Mentions name other ↔ other = name := by
  rw [Mentions, identifiers_of_isIdentifier hName.isIdentifier, List.mem_singleton]
  exact ⟨And.right, fun hEq => ⟨hEq ▸ hName, hEq⟩⟩

theorem mentions_append_of_closed {left right name : Token}
    (hLeft : left.toList.getLast?.any endsIdentifier = true) :
    Mentions (left ++ right) name ↔ Mentions left name ∨ Mentions right name := by
  unfold Mentions
  rw [identifiers_append_of_closed right hLeft, List.mem_append, and_or_left]

theorem mentions_append_of_open {left right name : Token}
    (hRight : right.toList.head?.any endsIdentifier = true) :
    Mentions (left ++ right) name ↔ Mentions left name ∨ Mentions right name := by
  unfold Mentions
  rw [identifiers_append_of_open left hRight, List.mem_append, and_or_left]

theorem mentions_intercalate {separator : String} (hNone : identifiers separator = [])
    (hOpen : separator.toList.head?.any endsIdentifier = true)
    (hClosed : separator.toList.getLast?.any endsIdentifier = true) {tokens : List Token}
    {name : Token} :
    Mentions (separator.intercalate tokens) name ↔ ∃ token ∈ tokens, Mentions token name := by
  unfold Mentions
  rw [identifiers_intercalate hNone hOpen hClosed, List.mem_flatMap]
  constructor
  · rintro ⟨hName, token, hToken, hMem⟩
    exact ⟨token, hToken, hName, hMem⟩
  · rintro ⟨token, hToken, hName, hMem⟩
    exact ⟨hName, token, hToken, hMem⟩

/-- Whether no identifier of a text looks like the name of a geometric quantity. -/
def isSilent (text : Token) : Bool :=
  (identifiers text).all fun name => !looksGeometric name

theorem not_mentions_of_isSilent {text name : Token} (hSilent : isSilent text = true) :
    ¬Mentions text name := by
  rintro ⟨hName, hMem⟩
  have hLooks := List.all_eq_true.mp hSilent name hMem
  rw [hName.looksGeometric] at hLooks
  contradiction

/-- Text around a token that ends and begins with operators, and names nothing. -/
theorem mentions_enclosed {opening closing token name : Token}
    (hOpening : (opening.toList.getLast?.any endsIdentifier && isSilent opening) = true)
    (hClosing : (closing.toList.head?.any endsIdentifier && isSilent closing) = true) :
    Mentions (opening ++ token ++ closing) name ↔ Mentions token name := by
  rw [Bool.and_eq_true] at hOpening hClosing
  rw [mentions_append_of_open hClosing.1, mentions_append_of_closed hOpening.1]
  simp only [not_mentions_of_isSilent hOpening.2, not_mentions_of_isSilent hClosing.2, false_or,
    or_false]

/-! ### Tokens that mention nothing -/

/-- An identifier mentions nothing but itself. -/
theorem IsIdentifier.not_mentions {text : Token} (hText : IsIdentifier text)
    (hOther : ¬IsGeometryName text) (name : Token) : ¬Mentions text name := by
  rintro ⟨hName, hMem⟩
  rw [identifiers_of_isIdentifier hText, List.mem_singleton] at hMem
  exact hOther (hMem ▸ hName)

/-- Numbers name nothing: they have neither a `J` nor an underscore. -/
theorem not_mentions_of_literalText {text name : Token}
    (hText : Binary64.LiteralText text.toList) : ¬Mentions text name := by
  rintro ⟨hName, hMem⟩
  have hSubset := subset_of_mem_identifiers hMem
  have hAbsent : ∀ {character}, ¬Binary64.IsLiteralCharacter character → character ∉ name.toList :=
    fun hOther hCharacter => hOther (hText _ (hSubset hCharacter))
  have hLetter : ¬Binary64.IsLiteralCharacter 'J' := by decide
  have hMark : ¬Binary64.IsLiteralCharacter '_' := by decide
  have hLooks := hName.looksGeometric
  simp only [looksGeometric, List.contains_iff_mem, Bool.or_eq_true, Bool.and_eq_true] at hLooks
  rcases hLooks with hIn | ⟨hIn, -⟩
  · exact hAbsent hLetter hIn
  · exact hAbsent hMark hIn

/-- A name other than those of entries and of normals, without a `J`. -/
def IsPlainName (text : Token) : Prop :=
  text.toList.head?.any (fun first => first != 'K' && first != 'n') = true ∧ PlainText text.toList

instance (text : Token) : Decidable (IsPlainName text) :=
  inferInstanceAs (Decidable (_ ∧ _))

namespace IsPlainName

theorem append {left right : Token} (hLeft : IsPlainName left) (hRight : PlainText right.toList) :
    IsPlainName (left ++ right) := by
  obtain ⟨first, hFirst, hOther⟩ := (Option.any_eq_true _ _).mp hLeft.1
  constructor
  · rw [String.toList_append, List.head?_append, hFirst]
    exact hOther
  · rw [String.toList_append]
    exact hLeft.2.append hRight

theorem isIdentifier {text : Token} (hPlain : IsPlainName text) : IsIdentifier text := by
  obtain ⟨first, hFirst, -⟩ := (Option.any_eq_true _ _).mp hPlain.1
  refine ⟨?_, List.all_eq_true.mpr fun character hMem => (hPlain.2 character hMem).1⟩
  intro hEmpty
  rw [hEmpty] at hFirst
  contradiction

theorem not_mentions {text : Token} (hPlain : IsPlainName text) (name : Token) :
    ¬Mentions text name := by
  refine hPlain.isIdentifier.not_mentions (fun hName => ?_) name
  obtain ⟨first, hFirst, hOther⟩ := (Option.any_eq_true _ _).mp hPlain.1
  have hLooks := hName.looksGeometric
  simp only [looksGeometric, List.contains_iff_mem, Bool.or_eq_true, Bool.and_eq_true, hFirst]
    at hLooks
  rcases hLooks with hLetter | ⟨-, hHead⟩
  · exact (hPlain.2 'J' hLetter).2 rfl
  · rw [Bool.and_eq_true, bne_iff_ne, bne_iff_ne] at hOther
    simp only [beq_iff_eq, Option.some.injEq] at hHead
    exact hHead.elim hOther.1 hOther.2

end IsPlainName

theorem isPlainName_loopVariable (number : Nat) : IsPlainName (loopVariable number) := by
  have hLetter : IsPlainName "r" := by decide
  unfold loopVariable
  split
  any_goals decide
  exact hLetter.append (.natText number)

namespace ElementCatalog

/-- The token of a basis has the names of a table, of the point and of a loop variable. -/
theorem not_mentions_argumentToken {argument : Argument} {request : TableRequest} {name : Token} :
    ¬Mentions (argumentToken argument request) name := by
  have hElement : IsPlainName "FE" := by decide
  have hComponent : PlainText "_C".toList := by decide
  have hLabel : IsPlainName (tableLabel argument.element request.component request.derivatives) :=
    (((hElement.append (.natText _)).append hComponent).append (.natText _)).append
      (.derivativeSuffix _)
  have hLoop := isPlainName_loopVariable argument.number
  have hTable := hLabel.append (.sideSuffix request.restriction)
  unfold argumentToken
  rw [mentions_append_of_open (by decide), mentions_append_of_closed (by simp; decide),
    mentions_append_of_open (by decide)]
  simp only [hTable.not_mentions, hLoop.not_mentions, or_false, false_or, not_or]
  exact ⟨not_mentions_of_isSilent (by decide), not_mentions_of_isSilent (by decide)⟩

theorem not_mentions_coefficientToken {coefficient : Coefficient} {request : TableRequest}
    {name : Token} : ¬Mentions (coefficientToken coefficient request) name := by
  have hField : IsPlainName "F" := by decide
  have hComponent : PlainText "_C".toList := by decide
  have hToken : IsPlainName (coefficientToken coefficient request) :=
    ((((hField.append (.natText _)).append hComponent).append (.natText _)).append
      (.derivativeSuffix _)).append (.sideSuffix _)
  exact hToken.not_mentions name

variable {catalog : ElementCatalog} {request : TableRequest} {token name : Token}

theorem not_mentions_argument {argument : Argument}
    (hCode : (catalog.tables.argument argument request).code = some token) :
    ¬Mentions token name := by
  simp only [tables] at hCode
  split at hCode <;> cases hCode
  exact not_mentions_argumentToken

theorem not_mentions_coefficient {coefficient : Coefficient}
    (hCode : catalog.tables.coefficient coefficient request = some token) :
    ¬Mentions token name := by
  simp only [tables] at hCode
  split at hCode <;> cases hCode
  exact not_mentions_coefficientToken

end ElementCatalog

/-! ### Operations of dialects -/

namespace Dialect

variable {name : Token}

/-- A call mentions what its arguments mention, if the name of what is called is none of
a geometric quantity. -/
theorem mentions_call {callee : String} (hCallee : isSilent (callee ++ "(") = true)
    {arguments : List Token} :
    Mentions (call callee arguments) name ↔ ∃ argument ∈ arguments, Mentions argument name := by
  have hOpens : ((callee ++ "(").toList.getLast?.any endsIdentifier && isSilent (callee ++ "(")) =
      true := Bool.and_eq_true_iff.mpr ⟨closed_append callee (by decide), hCallee⟩
  unfold call
  rw [mentions_enclosed hOpens (by decide), mentions_intercalate (by decide) (by decide) (by decide)]

theorem mentions_call_one {callee : String} (hCallee : isSilent (callee ++ "(") = true)
    {argument : Token} : Mentions (call callee [argument]) name ↔ Mentions argument name := by
  rw [mentions_call hCallee]
  simp only [List.mem_singleton, exists_eq_left]

theorem mentions_call_two {callee : String} (hCallee : isSilent (callee ++ "(") = true)
    {first second : Token} :
    Mentions (call callee [first, second]) name ↔ Mentions first name ∨ Mentions second name := by
  rw [mentions_call hCallee]
  simp only [List.mem_cons, List.not_mem_nil, or_false, exists_eq_or_imp, exists_eq_left]

theorem literalText_cppLiteral (precision : Option Nat) (value : Binary64) :
    Binary64.LiteralText (cppLiteral precision value).toList := by
  cases precision with
  | none => exact .shortestText value
  | some places => exact .scientificTextOf places value

namespace Available

variable {dialect : Dialect}

theorem not_mentions_literal (hAvailable : dialect.Available) (value : Binary64) :
    ¬Mentions (dialect.literal value) name := by
  cases hAvailable with
  | calls => exact not_mentions_of_literalText (.shortestText value)
  | cpp precision => exact not_mentions_of_literalText (literalText_cppLiteral precision value)

theorem mentions_multiply (hAvailable : dialect.Available) {tokens : List Token}
    (hNonempty : tokens ≠ []) :
    Mentions (dialect.multiply tokens) name ↔ ∃ token ∈ tokens, Mentions token name := by
  cases hAvailable with
  | calls =>
      match tokens with
      | [token] =>
        show Mentions token name ↔ _
        simp only [List.mem_singleton, exists_eq_left]
      | first :: second :: rest => exact mentions_call (by decide)
  | cpp precision =>
      show Mentions (if tokens.isEmpty then cppLiteral precision .one else "*".intercalate tokens)
        name ↔ _
      rw [if_neg (by simpa using hNonempty)]
      exact mentions_intercalate (by decide) (by decide) (by decide)

theorem mentions_sum (hAvailable : dialect.Available) {tokens : List Token} :
    Mentions (dialect.group (dialect.add tokens)) name ↔ ∃ token ∈ tokens, Mentions token name := by
  cases hAvailable with
  | calls => exact (mentions_call_one (by decide)).trans (mentions_call (by decide))
  | cpp precision =>
      show Mentions ("(" ++ " + ".intercalate tokens ++ ")") name ↔ _
      rw [mentions_enclosed (by decide) (by decide)]
      exact mentions_intercalate (by decide) (by decide) (by decide)

/-- A sum of terms is a group, unless there is a single term or none. -/
theorem mentions_join (hAvailable : dialect.Available) {terms : List Token} :
    (∃ token ∈ (dialect.join terms).toList, Mentions token name) ↔
      ∃ term ∈ terms, Mentions term name := by
  match terms with
  | [] => exact Iff.rfl
  | [term] => exact Iff.rfl
  | first :: second :: rest =>
    simp only [Dialect.join, Option.toList_some, List.mem_singleton, exists_eq_left]
    exact hAvailable.mentions_sum

theorem mentions_divide (hAvailable : dialect.Available) {numerator denominator : Token} :
    Mentions (dialect.divide numerator (dialect.group denominator)) name ↔
      Mentions numerator name ∨ Mentions denominator name := by
  cases hAvailable with
  | calls =>
      exact (mentions_call_two (by decide)).trans (or_congr_right (mentions_call_one (by decide)))
  | cpp precision =>
      have hSlash : ¬Mentions "/" name := not_mentions_of_isSilent (by decide)
      show Mentions (numerator ++ "/" ++ ("(" ++ denominator ++ ")")) name ↔ _
      rw [mentions_append_of_closed (closed_append numerator (by decide)),
        mentions_append_of_open (by decide), mentions_enclosed (by decide) (by decide)]
      simp only [hSlash, or_false]

theorem mentions_generalPower (hAvailable : dialect.Available) {base exponent : Token} :
    Mentions (dialect.generalPower base exponent) name ↔
      Mentions base name ∨ Mentions exponent name := by
  cases hAvailable with
  | calls => exact mentions_call_two (by decide)
  | cpp precision =>
      show Mentions (cppPower base exponent) name ↔ _
      rw [cppPower_eq_call]
      exact mentions_call_two (by decide)

theorem mentions_power (hAvailable : dialect.Available) {base : Token} (exponent : Int) :
    Mentions (dialect.power base exponent) name ↔ Mentions base name := by
  have hExponent : ¬Mentions (toString exponent) name :=
    not_mentions_of_literalText (.intText exponent)
  cases hAvailable with
  | calls => exact (mentions_call_two (by decide)).trans (or_iff_left hExponent)
  | cpp precision =>
      show Mentions (cppPower base (toString exponent)) name ↔ _
      rw [cppPower_eq_call]
      exact (mentions_call_two (by decide)).trans (or_iff_left hExponent)

theorem mentions_absolute (hAvailable : dialect.Available) {token : Token} :
    Mentions (dialect.absolute token) name ↔ Mentions token name := by
  cases hAvailable with
  | calls => exact mentions_call_one (by decide)
  | cpp precision => exact mentions_enclosed (by decide) (by decide)

theorem mentions_elementary (hAvailable : dialect.Available) (function : ElementaryFunction)
    {token : Token} : Mentions (dialect.elementary function token) name ↔ Mentions token name := by
  cases hAvailable with
  | calls => exact mentions_call_one (by cases function <;> decide)
  | cpp precision => exact mentions_enclosed (by cases function <;> decide) (by decide)

theorem mentions_reciprocal (hAvailable : dialect.Available) {token : Token} :
    Mentions (dialect.reciprocal token) name ↔ Mentions token name := by
  cases hAvailable with
  | calls => exact mentions_call_one (by decide)
  | cpp precision => exact mentions_enclosed (by decide) (by decide)

/-- To mention only names from a given collection is preserved by every operation. -/
theorem preserves_mentioned (hAvailable : dialect.Available) (collection : Token → Prop) :
    dialect.Preserves fun token => ∀ name, Mentions token name → collection name where
  literal value name hName := absurd hName (hAvailable.not_mentions_literal value)
  multiply hNonempty hTokens name hName := by
    obtain ⟨token, hToken, hName⟩ := (hAvailable.mentions_multiply hNonempty).mp hName
    exact hTokens token hToken name hName
  sum _ hTokens name hName := by
    obtain ⟨token, hToken, hName⟩ := hAvailable.mentions_sum.mp hName
    exact hTokens token hToken name hName
  divide hNumerator hDenominator name hName :=
    (hAvailable.mentions_divide.mp hName).elim (hNumerator name) (hDenominator name)
  power exponent hBase name hName := hBase name ((hAvailable.mentions_power exponent).mp hName)
  generalPower hBase hExponent name hName :=
    (hAvailable.mentions_generalPower.mp hName).elim (hBase name) (hExponent name)
  absolute hToken name hName := hToken name (hAvailable.mentions_absolute.mp hName)
  elementary function _ hToken name hName :=
    hToken name ((hAvailable.mentions_elementary function).mp hName)

end Available

end Dialect

end FormLowering
