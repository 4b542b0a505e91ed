import FormLowering.Proofs.Reading.Reader
import Mathlib.Algebra.BigOperators.Group.List.Basic
import Mathlib.Algebra.Field.Basic

/-!
# What emitted code denotes

An interpretation gives a value to every word and a function to every operation
that is not arithmetic.  A token denotes a value if it is the text of a
well-formed expression with that value.  No token denotes two values, since a
text has at most one reading.
-/

namespace FormLowering

/-- Values of words, and the functions that are not arithmetic. -/
structure Interpretation (V : Type) where
  word : Token → V
  absolute : V → V
  elementary : ElementaryFunction → V → V
  /-- A power with an integer exponent. -/
  power : (base exponent : V) → V
  /-- A power with any other exponent. -/
  generalPower : (base exponent : V) → V

/-- Whether natural numbers that are exact doubles denote themselves. -/
def Interpretation.NaturalLiterals {V : Type} [NatCast V] (I : Interpretation V) : Prop :=
  ∀ number : Nat, number < 2 ^ 53 → I.word (toString number ++ ".0") = number

/-- The languages of emitted code. -/
inductive Language where
  /-- Nested calls of named operations, without operators and parentheses. -/
  | calls
  /-- Arithmetic expressions of C++. -/
  | cpp
deriving DecidableEq

variable {V : Type} [Field V]

/-- The value of a call among nested calls. -/
def Interpretation.namedCall? (I : Interpretation V) : Token → List V → Option V
  | "add", terms => some terms.sum
  | "multiply", factors => some factors.prod
  | "divide", [numerator, denominator] => some (numerator / denominator)
  | "group", [inner] => some inner
  | "inverse", [value] => some (1 / value)
  | "power", [base, exponent] => some (I.power base exponent)
  | "std_power", [base, exponent] => some (I.generalPower base exponent)
  | "abs", [value] => some (I.absolute value)
  | "sqrt", [value] => some (I.elementary .sqrt value)
  | "exp", [value] => some (I.elementary .exp value)
  | "ln", [value] => some (I.elementary .ln value)
  | "cos", [value] => some (I.elementary .cos value)
  | "sin", [value] => some (I.elementary .sin value)
  | _, _ => none

/-- The value of a call of the C++ standard library, which has one power for all
exponents. -/
def Interpretation.libraryCall? (I : Interpretation V) : Token → List V → Option V
  | "std::pow", [base, exponent] => some (I.power base exponent)
  | "std::abs", [value] => some (I.absolute value)
  | "std::sqrt", [value] => some (I.elementary .sqrt value)
  | "std::exp", [value] => some (I.elementary .exp value)
  | "std::log", [value] => some (I.elementary .ln value)
  | "std::cos", [value] => some (I.elementary .cos value)
  | "std::sin", [value] => some (I.elementary .sin value)
  | _, _ => none

/-- The value of an operation. -/
def Operator.apply : Operator → V → V → V
  | .plus, left, right => left + right
  | .times, left, right => left * right
  | .divided, left, right => left / right

namespace Language

/-- Whether expressions are written with operators and parentheses. -/
def hasOperators : Language → Bool
  | .calls => false
  | .cpp => true

/-- The value of a call in the language. -/
def call? (language : Language) (I : Interpretation V) : Token → List V → Option V :=
  match language with
  | .calls => I.namedCall?
  | .cpp => I.libraryCall?

end Language

namespace CodeTree

mutual

/-- The value of an expression, if it is one of the language. -/
def value? (language : Language) (I : Interpretation V) : CodeTree → Option V
  | .word text => some (I.word text)
  | .group inner => if language.hasOperators then value? language I inner else none
  | .call callee arguments => (values? language I arguments).bind (language.call? I callee)
  | .binary operator left right =>
    if language.hasOperators then
      (value? language I left).bind fun left =>
        (value? language I right).map fun right => operator.apply left right
    else none

/-- The values of a list of expressions. -/
def values? (language : Language) (I : Interpretation V) : List CodeTree → Option (List V)
  | [] => some []
  | tree :: rest =>
    (value? language I tree).bind fun value => (values? language I rest).map (value :: ·)

end

theorem values?_eq_some {language : Language} {I : Interpretation V} {trees : List CodeTree}
    {values : List V}
    (hValues : List.Forall₂ (fun tree value => tree.value? language I = some value) trees values) :
    values? language I trees = some values := by
  induction hValues with
  | nil => rfl
  | cons hValue _ ih => rw [values?, hValue, ih]; rfl

end CodeTree

namespace Language

/-- Whether a token is the text of an expression with the given value. -/
def Denotes (language : Language) (I : Interpretation V) (token : Token) (value : V) : Prop :=
  ∃ tree : CodeTree,
    tree.WellFormed ∧ tree.text = token.toList ∧ tree.value? language I = some value

/-- No token denotes two values. -/
theorem Denotes.unique {language : Language} {I : Interpretation V} {token : Token} {left right : V}
    (hLeft : language.Denotes I token left) (hRight : language.Denotes I token right) :
    left = right := by
  obtain ⟨tree, hTree, hText, hValue⟩ := hLeft
  obtain ⟨tree', hTree', hText', hValue'⟩ := hRight
  have hSame : tree = tree' := CodeTree.text_injective hTree hTree' (hText.trans hText'.symm)
  rw [← hSame, hValue] at hValue'
  exact Option.some.inj hValue'

end Language

/-- Whether an entry has the given value.  Symbolic zero is zero. -/
def Entry.Denotes (language : Language) (I : Interpretation V) : Entry → V → Prop
  | none, value => value = 0
  | some token, value => language.Denotes I token value

end FormLowering
