import FormLowering.Proofs.Reading.Interpretation
import Mathlib.Data.Rat.Init
import Mathlib.Algebra.Field.Rat

/-!
# An interpretation by leading digits

The laws that are asked of interpretations can be met.  A word denotes the
natural number that its leading digits spell, so a name denotes zero and a
literal of a natural number denotes that number.

Names can be given any other values by their first letter, since literals of
natural numbers begin with a digit.
-/

namespace FormLowering

namespace Interpretation

/-- Words denote the natural numbers that they begin with, and functions other
than arithmetic return their argument. -/
def decimal : Interpretation ℚ where
  word text := (Nat.ofDigitChars 10 (text.toList.takeWhile Char.isDigit) 0 : Nat)
  absolute value := value
  elementary _ value := value
  power base _ := base
  generalPower base _ := base

theorem toList_literal (number : Nat) :
    (toString number ++ ".0").toList = Nat.toDigits 10 number ++ ['.', '0'] := by
  rw [String.toList_append, Nat.toString_eq_repr, Nat.toList_repr]
  rfl

theorem decimal_naturalLiterals : decimal.NaturalLiterals := by
  intro number _
  have hDigits : (toString number ++ ".0").toList.takeWhile Char.isDigit =
      Nat.toDigits 10 number := by
    rw [toList_literal]
    have hAll : ∀ digit ∈ Nat.toDigits 10 number, digit.isDigit = true := fun digit hMem =>
      Nat.isDigit_of_mem_toDigits (by decide) (by decide) hMem
    rw [List.takeWhile_append_of_pos hAll]
    simp
  show ((Nat.ofDigitChars 10 _ 0 : Nat) : ℚ) = number
  rw [hDigits, Nat.ofDigitChars_ten_toDigits]

/-- The interpretation with the given values for words that begin with a letter. -/
def withLetter {V : Type} (I : Interpretation V) (letter : Char) (value : Token → V) :
    Interpretation V :=
  { I with word := fun text => if text.toList.head? = some letter then value text else I.word text }

theorem withLetter_word {V : Type} (I : Interpretation V) {letter : Char} (value : Token → V)
    {text : Token} (hText : text.toList.head? = some letter) :
    (I.withLetter letter value).word text = value text :=
  if_pos hText

theorem withLetter_word_of_ne {V : Type} (I : Interpretation V) {letter : Char}
    (value : Token → V) {text : Token} (hText : text.toList.head? ≠ some letter) :
    (I.withLetter letter value).word text = I.word text :=
  if_neg hText

/-- Literals of natural numbers keep their values. -/
theorem withLetter_naturalLiterals {V : Type} [NatCast V] {I : Interpretation V}
    (hNatural : I.NaturalLiterals) {letter : Char} (hLetter : letter.isDigit = false)
    (value : Token → V) : (I.withLetter letter value).NaturalLiterals := by
  intro number hBound
  have hText : (toString number ++ ".0").toList.head? ≠ some letter := by
    rw [toList_literal]
    intro hHead
    -- The first character of the literal is a digit.
    obtain ⟨first, rest, hDigits⟩ :=
      List.exists_cons_of_ne_nil (Nat.toDigits_ne_nil (n := number) (b := 10))
    rw [hDigits] at hHead
    obtain rfl : first = letter := Option.some.inj hHead
    have hDigit := Nat.isDigit_of_mem_toDigits (by decide) (by decide)
      (hDigits ▸ List.mem_cons_self : first ∈ Nat.toDigits 10 number)
    rw [hDigit] at hLetter
    contradiction
  rw [withLetter_word_of_ne I value hText]
  exact hNatural number hBound

end Interpretation

end FormLowering
