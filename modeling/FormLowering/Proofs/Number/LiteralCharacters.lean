import FormLowering.Number.Literal
import Mathlib.Data.List.Basic

/-!
# Characters of literals

A literal is written with digits, a point, the mark of the exponent and signs, in either
form, and otherwise it is infinite or not a number.  No other character occurs.
-/

namespace FormLowering

namespace Binary64

/-- Whether a character occurs in literals. -/
def IsLiteralCharacter (character : Char) : Prop :=
  character.isDigit = true ∨ character ∈ "-.einfNa".toList

instance (character : Char) : Decidable (IsLiteralCharacter character) :=
  inferInstanceAs (Decidable (_ ∨ _))

/-- Text of characters that occur in literals. -/
def LiteralText (text : List Char) : Prop :=
  ∀ character ∈ text, IsLiteralCharacter character

instance (text : List Char) : Decidable (LiteralText text) :=
  List.decidableBAll _ text

namespace LiteralText

theorem append {left right : List Char} (hLeft : LiteralText left) (hRight : LiteralText right) :
    LiteralText (left ++ right) :=
  List.forall_mem_append.mpr ⟨hLeft, hRight⟩

theorem of_subset {text longer : List Char} (hLonger : LiteralText longer)
    (hSubset : text ⊆ longer) : LiteralText text :=
  fun character hMem => hLonger character (hSubset hMem)

/-- A literal can be read off a text that goes on with a character that no literal has. -/
theorem append_cons_inj {left right rest rest' : List Char} (mark : Char)
    (hMark : ¬IsLiteralCharacter mark) (hLeft : LiteralText left) (hRight : LiteralText right)
    (hText : left ++ mark :: rest = right ++ mark :: rest') : left = right ∧ rest = rest' := by
  have hTake {text behind : List Char} (hLiteral : LiteralText text) :
      (text ++ mark :: behind).takeWhile (IsLiteralCharacter ·) = text := by
    rw [List.takeWhile_append_of_pos fun character hMem => decide_eq_true (hLiteral character hMem),
      List.takeWhile_cons_of_neg (by simpa using hMark), List.append_nil]
  have hSame : left = right := by rw [← hTake hLeft, hText, hTake hRight]
  subst hSame
  exact ⟨rfl, (List.cons.inj (List.append_cancel_left hText)).2⟩

theorem toDigits (number : Nat) : LiteralText (Nat.toDigits 10 number) :=
  fun _ hMem => .inl (Nat.isDigit_of_mem_toDigits (by decide) (by decide) hMem)

theorem natText (number : Nat) : LiteralText (toString number).toList := by
  rw [Nat.toString_eq_repr, Nat.toList_repr]
  exact toDigits number

theorem intText (number : Int) : LiteralText (toString number).toList := by
  rw [Int.toString_eq_repr, Int.repr_eq_if]
  split
  · exact natText _
  · rw [String.toList_append]
    exact append (by decide) (natText _)

theorem zeros (count : Nat) : LiteralText (List.replicate count '0') := by
  intro character hMem
  rw [List.eq_of_mem_replicate hMem]
  decide

theorem significantDigits (number : Nat) : LiteralText (significantDigits number) := by
  apply (toDigits number).of_subset
  intro digit hMem
  rw [Binary64.significantDigits, List.mem_reverse] at hMem
  exact List.mem_reverse.mp ((List.dropWhile_sublist _).subset hMem)

theorem pointAfterFirst {digits : List Char} (hDigits : LiteralText digits) :
    LiteralText (pointAfterFirst digits) := by
  have hPoint : LiteralText ['.'] := by decide
  match digits with
  | [] => exact hDigits
  | [_] => exact hDigits
  | first :: second :: rest =>
    have hFirst : LiteralText [first] := hDigits.of_subset (by simp)
    have hRest : LiteralText (second :: rest) := hDigits.of_subset (by simp)
    exact hFirst.append (hPoint.append hRest)

theorem scientificText {digits : List Char} (hDigits : LiteralText digits) (leading : Int) :
    LiteralText (scientificText digits leading).toList := by
  have hMark : LiteralText "e".toList := by decide
  rw [Binary64.scientificText, String.toList_append, String.toList_append, String.toList_ofList]
  exact ((pointAfterFirst hDigits).append hMark).append (.intText leading)

theorem positionalText {digits : List Char} (hDigits : LiteralText digits) (leading : Int) :
    LiteralText (positionalText digits leading).toList := by
  have hPoint : LiteralText ['.'] := by decide
  have hZero : LiteralText ['0'] := by decide
  have hFraction : ∀ fraction, LiteralText fraction →
      LiteralText (if fraction.isEmpty then ['0'] else fraction) := by
    intro fraction hFraction
    split
    · exact hZero
    · exact hFraction
  unfold Binary64.positionalText
  split
  · rw [String.toList_ofList]
    exact ((hDigits.of_subset (List.take_subset _ _)).append (.zeros _)).append
      (hPoint.append (hFraction _ (hDigits.of_subset (List.drop_subset _ _))))
  · rw [String.toList_ofList]
    exact hZero.append (hPoint.append ((LiteralText.zeros _).append hDigits))

theorem shortestMagnitude (rank : Nat) : LiteralText (shortestMagnitude rank).toList := by
  unfold Binary64.shortestMagnitude
  split
  · decide
  · simp only
    split
    · exact positionalText (significantDigits _) _
    · exact scientificText (significantDigits _) _

theorem scientificMagnitude (places rank : Nat) :
    LiteralText (scientificMagnitude places rank).toList := by
  unfold Binary64.scientificMagnitude
  split
  · exact scientificText (zeros _) 0
  · exact scientificText ((toDigits _).of_subset (List.take_subset _ _)) _

theorem signedText {magnitude : Nat → String}
    (hMagnitude : ∀ rank, LiteralText (magnitude rank).toList) (value : Binary64) :
    LiteralText (signedText magnitude value).toList := by
  match value with
  | .nan =>
    show LiteralText "NaN".toList
    decide
  | .infinity negative =>
    show LiteralText (if negative then "-inf" else "inf").toList
    cases negative <;> decide
  | .finite negative rank =>
    have hSign : LiteralText (if negative then "-" else "").toList := by
      cases negative <;> decide
    show LiteralText ((if negative then "-" else "") ++ magnitude rank).toList
    rw [String.toList_append]
    exact hSign.append (hMagnitude rank)

/-- The shortest form of a number has no other characters. -/
theorem shortestText (value : Binary64) : LiteralText value.shortestText.toList :=
  signedText shortestMagnitude value

/-- The scientific form has none either. -/
theorem scientificTextOf (places : Nat) (value : Binary64) :
    LiteralText (value.scientificTextOf places).toList :=
  signedText (scientificMagnitude places) value

end LiteralText

end Binary64

end FormLowering
