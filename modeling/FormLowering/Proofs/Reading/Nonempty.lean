import FormLowering.Proofs.Semantics.TensorArithmetic
import Mathlib.Algebra.Ring.PUnit

/-!
# Tokens are never empty

Both languages can be written in more than one way, since C++ literals come in a
chosen precision.  What these *available* dialects have in common is that every
operation on nonempty tokens writes a nonempty token.  That is a reading in which
all tokens have the same value, so from nonempty tokens the available dialects make
code of the same shape, and fail alike.
-/

namespace FormLowering

/-- The dialects in which code is emitted. -/
inductive Dialect.Available : Dialect → Prop
  | calls : Available .calls
  | cpp (precision : Option Nat) : Available (.cpp precision)

theorem append_ne_empty_of_left {left right : String} (hLeft : left ≠ "") : left ++ right ≠ "" :=
  fun hEmpty => hLeft (String.append_eq_empty_iff.mp hEmpty).1

theorem append_ne_empty_of_right {left right : String} (hRight : right ≠ "") :
    left ++ right ≠ "" :=
  fun hEmpty => hRight (String.append_eq_empty_iff.mp hEmpty).2

/-- A separator between nonempty texts does not matter for whether the whole is empty. -/
theorem intercalate_ne_empty {separator : String} {texts : List String} (hNonempty : texts ≠ [])
    (hTexts : ∀ text ∈ texts, text ≠ "") : separator.intercalate texts ≠ "" := by
  match texts with
  | [text] =>
    rw [String.intercalate_singleton]
    exact hTexts text List.mem_cons_self
  | first :: second :: rest =>
    rw [String.intercalate_cons_cons]
    exact append_ne_empty_of_left (append_ne_empty_of_left (hTexts first List.mem_cons_self))

namespace Binary64

theorem shortestText_ne_empty (value : Binary64) : value.shortestText ≠ "" :=
  (isWord_shortestText value).ne_empty

theorem scientificText_ne_empty (digits : List Char) (leading : Int) :
    scientificText digits leading ≠ "" := by
  have hMark : "e" ≠ "" := by decide
  exact append_ne_empty_of_left (append_ne_empty_of_right hMark)

theorem scientificTextOf_ne_empty (places : Nat) (value : Binary64) :
    value.scientificTextOf places ≠ "" := by
  match value with
  | .nan =>
    show "NaN" ≠ ""
    decide
  | .infinity negative =>
    show (if negative then "-inf" else "inf") ≠ ""
    cases negative <;> decide
  | .finite negative rank =>
    apply append_ne_empty_of_right
    unfold scientificMagnitude
    split
    · exact scientificText_ne_empty _ _
    · exact scientificText_ne_empty _ _

end Binary64

namespace Dialect

theorem cppLiteral_ne_empty (precision : Option Nat) (value : Binary64) :
    cppLiteral precision value ≠ "" := by
  cases precision with
  | none => exact value.shortestText_ne_empty
  | some places => exact value.scientificTextOf_ne_empty places

theorem call_ne_empty (name : String) (arguments : List Token) : call name arguments ≠ "" := by
  have hClosing : ")" ≠ "" := by decide
  exact append_ne_empty_of_right hClosing

theorem cppPower_ne_empty (base exponent : Token) : cppPower base exponent ≠ "" := by
  have hClosing : ")" ≠ "" := by decide
  exact append_ne_empty_of_right hClosing

namespace Available

variable {dialect : Dialect}

theorem literal_ne_empty (hAvailable : dialect.Available) (value : Binary64) :
    dialect.literal value ≠ "" := by
  cases hAvailable with
  | calls => exact value.shortestText_ne_empty
  | cpp precision => exact cppLiteral_ne_empty precision value

theorem multiply_ne_empty (hAvailable : dialect.Available) {tokens : List Token}
    (hNonempty : tokens ≠ []) (hTokens : ∀ token ∈ tokens, token ≠ "") :
    dialect.multiply tokens ≠ "" := by
  cases hAvailable with
  | calls =>
      match tokens with
      | [token] => exact hTokens token List.mem_cons_self
      | first :: second :: rest => exact call_ne_empty _ _
  | cpp precision =>
      show (if tokens.isEmpty then cppLiteral precision .one else "*".intercalate tokens) ≠ ""
      rw [if_neg (by simpa using hNonempty)]
      exact intercalate_ne_empty hNonempty hTokens

theorem group_ne_empty (hAvailable : dialect.Available) (token : Token) :
    dialect.group token ≠ "" := by
  have hClosing : ")" ≠ "" := by decide
  cases hAvailable with
  | calls => exact call_ne_empty _ _
  | cpp precision => exact append_ne_empty_of_right hClosing

theorem divide_ne_empty (hAvailable : dialect.Available) {numerator : Token} (denominator : Token)
    (hNumerator : numerator ≠ "") : dialect.divide numerator denominator ≠ "" := by
  cases hAvailable with
  | calls => exact call_ne_empty _ _
  | cpp precision => exact append_ne_empty_of_left (append_ne_empty_of_left hNumerator)

theorem power_ne_empty (hAvailable : dialect.Available) (base : Token) (exponent : Int) :
    dialect.power base exponent ≠ "" := by
  cases hAvailable with
  | calls => exact call_ne_empty _ _
  | cpp precision => exact cppPower_ne_empty _ _

theorem generalPower_ne_empty (hAvailable : dialect.Available) (base exponent : Token) :
    dialect.generalPower base exponent ≠ "" := by
  cases hAvailable with
  | calls => exact call_ne_empty _ _
  | cpp precision => exact cppPower_ne_empty _ _

theorem absolute_ne_empty (hAvailable : dialect.Available) (token : Token) :
    dialect.absolute token ≠ "" := by
  have hClosing : ")" ≠ "" := by decide
  cases hAvailable with
  | calls => exact call_ne_empty _ _
  | cpp precision => exact append_ne_empty_of_right hClosing

theorem elementary_ne_empty (hAvailable : dialect.Available) (function : ElementaryFunction)
    (token : Token) : dialect.elementary function token ≠ "" := by
  have hClosing : ")" ≠ "" := by decide
  cases hAvailable with
  | calls => exact call_ne_empty _ _
  | cpp precision => exact append_ne_empty_of_right hClosing

theorem reciprocal_ne_empty (hAvailable : dialect.Available) (token : Token) :
    dialect.reciprocal token ≠ "" := by
  have hClosing : ")" ≠ "" := by decide
  cases hAvailable with
  | calls => exact call_ne_empty _ _
  | cpp precision => exact append_ne_empty_of_right hClosing

/-! ### Names are the same in every available dialect -/

theorem jacobian_eq (hAvailable : dialect.Available) : dialect.jacobian = JacobianKind.entryName := by
  cases hAvailable <;> rfl

theorem determinant_eq (hAvailable : dialect.Available) : dialect.determinant = determinantName := by
  cases hAvailable <;> rfl

theorem normal_eq (hAvailable : dialect.Available) : dialect.normal = normalName := by
  cases hAvailable <;> rfl

end Available

/-- The interpretation with a single value. -/
def oneValue : Interpretation Unit :=
  ⟨fun _ => (), fun _ => (), fun _ _ => (), fun _ _ => (), fun _ _ => ()⟩

/-- The nonempty tokens of an available dialect, all with the same value. -/
def Available.nonemptyReading {dialect : Dialect} (hAvailable : dialect.Available) :
    dialect.Reading oneValue where
  Denotes token _ := token ≠ ""
  Exact _ := True
  exact_one := trivial
  exact_of_le _ _ := trivial
  div_one _ := rfl
  unique _ _ := rfl
  ne_empty hToken := hToken
  word hWord := hWord.ne_empty
  literal := hAvailable.literal_ne_empty
  natural _ := hAvailable.literal_ne_empty _
  multiply hNonempty hTokens :=
    hAvailable.multiply_ne_empty hNonempty (forall_mem_of_forall₂ hTokens)
  sum _ _ := hAvailable.group_ne_empty _
  divide hNumerator _ := hAvailable.divide_ne_empty _ hNumerator
  power exponent _ := hAvailable.power_ne_empty _ exponent
  generalPower _ _ := hAvailable.generalPower_ne_empty _ _
  absolute _ := hAvailable.absolute_ne_empty _
  elementary function _ _ _ := hAvailable.elementary_ne_empty function _
  jacobian kind row column side := by
    rw [hAvailable.jacobian_eq]
    exact (isWord_entryName kind row column side).ne_empty
  reciprocal side := hAvailable.reciprocal_ne_empty _
  normal side component := by
    rw [hAvailable.normal_eq]
    exact (isWord_normalName side component).ne_empty

end Dialect

end FormLowering
