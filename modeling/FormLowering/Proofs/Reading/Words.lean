import FormLowering.Proofs.Element.TableCharacters
import FormLowering.Proofs.Number.LiteralCharacters
import Mathlib.Tactic

/-!
# Words

A word is a nonempty text without brackets, commas, blanks and operators.
Names and literals are words, and so is every identifier: a word stands in
emitted code as one atom, whatever is written around it.
-/

namespace FormLowering

/-- Whether a character ends a word. -/
def isDelimiter (character : Char) : Bool :=
  "(), +*/".toList.contains character

/-- Text without characters that end a word. -/
def Undelimited (text : List Char) : Prop :=
  ∀ character ∈ text, isDelimiter character = false

/-- Decided by a walk through the text, never by all characters there are. -/
instance (text : List Char) : Decidable (Undelimited text) :=
  List.decidableBAll _ text

/-- A nonempty text without characters that end a word. -/
def IsWord (text : Token) : Prop :=
  text.toList ≠ [] ∧ Undelimited text.toList

instance (text : Token) : Decidable (IsWord text) :=
  inferInstanceAs (Decidable (_ ∧ _))

theorem IsWord.ne_empty {text : Token} (hWord : IsWord text) : text ≠ "" := by
  rintro rfl
  exact hWord.1 rfl

theorem not_isDelimiter_of_isIdentifierCharacter {character : Char}
    (hCharacter : isIdentifierCharacter character = true) : isDelimiter character = false := by
  -- A character that ends a word is one of the delimiters, none of which is in identifiers.
  have hNone : ("(), +*/".toList.all fun delimiter => !isIdentifierCharacter delimiter) = true := by
    decide
  by_contra hDelimiter
  have hIn : character ∈ "(), +*/".toList := by
    rw [Bool.not_eq_false, isDelimiter] at hDelimiter
    exact List.contains_iff_mem.mp hDelimiter
  have hOther := List.all_eq_true.mp hNone character hIn
  rw [hCharacter] at hOther
  contradiction

namespace Undelimited

theorem append {left right : List Char} (hLeft : Undelimited left) (hRight : Undelimited right) :
    Undelimited (left ++ right) := by
  intro character hMem
  rcases List.mem_append.mp hMem with hMem | hMem
  · exact hLeft character hMem
  · exact hRight character hMem

theorem of_subset {text longer : List Char} (hLonger : Undelimited longer)
    (hSubset : text ⊆ longer) : Undelimited text :=
  fun character hMem => hLonger character (hSubset hMem)

theorem of_plainText {text : List Char} (hText : PlainText text) : Undelimited text :=
  fun character hMem => not_isDelimiter_of_isIdentifierCharacter (hText character hMem).1

/-- No character of a literal ends a word. -/
theorem of_literalText {text : List Char} (hText : Binary64.LiteralText text) :
    Undelimited text := by
  have hMarks : Undelimited "-.einfNa".toList := by decide
  intro character hMem
  rcases hText character hMem with hDigit | hMark
  · exact not_isDelimiter_of_isIdentifierCharacter (isIdentifierCharacter_of_isDigit hDigit)
  · exact hMarks character hMark

theorem natText (number : Nat) : Undelimited (toString number).toList :=
  of_plainText (.natText number)

end Undelimited

namespace IsWord

/-- A word with further characters behind it. -/
theorem append {left right : Token} (hLeft : IsWord left) (hRight : Undelimited right.toList) :
    IsWord (left ++ right) := by
  constructor
  · rw [String.toList_append]
    exact List.append_ne_nil_of_left_ne_nil hLeft.1 _
  · rw [String.toList_append]
    exact hLeft.2.append hRight

end IsWord

theorem isWord_intText (number : Int) : IsWord (toString number) := by
  refine ⟨?_, .of_literalText (.intText number)⟩
  rw [Int.toString_eq_repr, Int.repr_eq_if]
  split
  · rw [Nat.toList_repr]
    exact Nat.toDigits_ne_nil
  · simp

/-! ### Names -/

theorem Undelimited.suffix (side : Restriction) : Undelimited side.suffix.toList :=
  .of_plainText (.suffix side)

theorem isWord_entryName (kind : JacobianKind) (row column : Nat) (side : Restriction) :
    IsWord (kind.entryName row column side) := by
  have hLetter : IsWord kind.letter := by cases kind <;> decide
  have hMark : Undelimited "_".toList := by decide
  exact (((hLetter.append (.suffix side)).append hMark).append (.natText row)).append
    (.natText column)

theorem isWord_determinantName (side : Restriction) : IsWord (determinantName side) :=
  IsWord.append (by decide) (.suffix side)

theorem isWord_normalName (side : Restriction) (component : Nat) :
    IsWord (normalName side component) := by
  have hLetter : IsWord "n" := by decide
  have hMark : Undelimited "_".toList := by decide
  exact ((hLetter.append (.suffix side)).append hMark).append (.natText component)

namespace ElementCatalog

theorem isWord_argumentToken (argument : Argument) (request : TableRequest) :
    IsWord (argumentToken argument request) := by
  have hElement : IsWord "FE" := by decide
  have hComponent : Undelimited "_C".toList := by decide
  have hLoop : Undelimited "[ip][".toList := by decide
  have hEnd : Undelimited "]".toList := by decide
  have hLabel : IsWord (tableLabel argument.element request.component request.derivatives) :=
    (((hElement.append (.natText _)).append hComponent).append (.natText _)).append
      (.of_plainText (.derivativeSuffix _))
  exact (((hLabel.append (.of_plainText (.sideSuffix _))).append hLoop).append
    (.of_plainText (.loopVariable _))).append hEnd

theorem isWord_coefficientToken (coefficient : Coefficient) (request : TableRequest) :
    IsWord (coefficientToken coefficient request) := by
  have hField : IsWord "F" := by decide
  have hComponent : Undelimited "_C".toList := by decide
  exact ((((hField.append (.natText _)).append hComponent).append (.natText _)).append
    (.of_plainText (.derivativeSuffix _))).append (.of_plainText (.sideSuffix _))

end ElementCatalog

/-! ### Literals -/

namespace Binary64

theorem positionalText_ne_nil (digits : List Char) (leading : Int) :
    (positionalText digits leading).toList ≠ [] := by
  unfold positionalText
  split <;> simp

theorem shortestMagnitude_ne_nil (rank : Nat) : (shortestMagnitude rank).toList ≠ [] := by
  unfold shortestMagnitude
  split
  · decide
  · simp only
    split
    · exact positionalText_ne_nil _ _
    · simp [scientificText]

/-- A literal is a word. -/
theorem isWord_shortestText (value : Binary64) : IsWord value.shortestText := by
  refine ⟨?_, .of_literalText (.shortestText value)⟩
  match value with
  | .nan => decide
  | .infinity true => decide
  | .infinity false => decide
  | .finite negative rank =>
    rw [shortestText, signedText, String.toList_append]
    exact List.append_ne_nil_of_right_ne_nil _ (shortestMagnitude_ne_nil rank)

end Binary64

end FormLowering
