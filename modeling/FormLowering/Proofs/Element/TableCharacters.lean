import FormLowering.Element.Catalog
import Mathlib.Data.List.Basic

/-!
# Characters of table names

The names of tables and of loop variables are made of letters, digits and underscores,
and the letter `J` of the Jacobian is not among them.
-/

namespace FormLowering

/-- Whether a character can stand in an identifier. -/
def isIdentifierCharacter (character : Char) : Bool :=
  character.isAlphanum || character == '_'

theorem isIdentifierCharacter_of_isDigit {character : Char} (hDigit : character.isDigit = true) :
    isIdentifierCharacter character = true := by
  simp [isIdentifierCharacter, Char.isAlphanum, hDigit]

/-! ### Numbers -/

/-- Whether a text is made of digits. -/
def AllDigits (text : String) : Prop :=
  ∀ character ∈ text.toList, character.isDigit = true

theorem AllDigits.natText (number : Nat) : AllDigits (toString number) := by
  intro character hMem
  rw [Nat.toString_eq_repr, Nat.toList_repr] at hMem
  exact Nat.isDigit_of_mem_toDigits (by decide) (by decide) hMem

/-! ### Plain text -/

/-- Text of letters, digits and underscores without a `J`. -/
def PlainText (text : List Char) : Prop :=
  ∀ character ∈ text, isIdentifierCharacter character = true ∧ character ≠ 'J'

instance (text : List Char) : Decidable (PlainText text) :=
  List.decidableBAll _ text

namespace PlainText

theorem append {left right : List Char} (hLeft : PlainText left) (hRight : PlainText right) :
    PlainText (left ++ right) :=
  List.forall_mem_append.mpr ⟨hLeft, hRight⟩

theorem natText (number : Nat) : PlainText (toString number).toList := by
  have hLetter : 'J'.isDigit = false := by decide
  intro character hMem
  have hDigit : character.isDigit = true := AllDigits.natText number character hMem
  refine ⟨isIdentifierCharacter_of_isDigit hDigit, ?_⟩
  rintro rfl
  rw [hLetter] at hDigit
  contradiction

theorem suffix (side : Restriction) : PlainText side.suffix.toList := by
  cases side <;> decide

theorem sideSuffix (side : Restriction) : PlainText (sideSuffix side).toList := by
  cases side <;> decide

theorem derivativeSuffix (derivatives : List Nat) :
    PlainText (derivativeSuffix derivatives).toList := by
  rw [FormLowering.derivativeSuffix]
  split
  · decide
  · have hMark : PlainText "_D".toList := by decide
    rw [String.toList_append, String.toList_join]
    apply hMark.append
    intro character hMem
    obtain ⟨text, hText, hIn⟩ := List.mem_flatMap.mp hMem
    obtain ⟨count, -, rfl⟩ := List.mem_map.mp hText
    exact natText count character hIn

theorem loopVariable (number : Nat) : PlainText (loopVariable number).toList := by
  have hLetter : PlainText "r".toList := by decide
  unfold FormLowering.loopVariable
  -- The first four loop variables are letters.
  split
  any_goals decide
  rw [String.toList_append]
  exact hLetter.append (natText number)

end PlainText

end FormLowering
