import FormLowering.Dialect.Calls
import FormLowering.Dialect.Cpp
import FormLowering.Proofs.Number.NaturalLiterals
import FormLowering.Proofs.Reading.Interpretation
import Mathlib.Algebra.BigOperators.Group.List.Basic

/-!
# Readings of dialects

A reading of a dialect says which values its tokens denote, and that every
operation of the dialect writes what it stands for.  Both dialects have one:
`calls` among nested calls, and `cpp` among C++ expressions.

In C++ products and numerators are written without parentheses.  That is right
because no token that lowering emits is a bare sum: a token denotes a *term*,
and sums are grouped before they are used.
-/

namespace FormLowering

/-- Values of the tokens of a dialect that every operation respects. -/
structure Dialect.Reading {V : Type} [CommSemiring V] [Div V] (dialect : Dialect)
    (I : Interpretation V) where
  Denotes : Token → V → Prop
  /-- The natural numbers whose literals denote them. -/
  Exact : Nat → Prop
  exact_one : Exact 1
  exact_of_le : ∀ {small large}, small ≤ large → Exact large → Exact small
  /-- Division by one, which is never written. -/
  div_one : ∀ value : V, value / 1 = value
  unique : ∀ {token left right}, Denotes token left → Denotes token right → left = right
  ne_empty : ∀ {token value}, Denotes token value → token ≠ ""
  word : ∀ {token}, IsWord token → Denotes token (I.word token)
  literal : ∀ value, Denotes (dialect.literal value) (I.word value.shortestText)
  natural : ∀ {number : Nat}, Exact number → Denotes (dialect.literal (.ofNat number)) number
  multiply : ∀ {tokens values}, tokens ≠ [] → List.Forall₂ Denotes tokens values →
    Denotes (dialect.multiply tokens) values.prod
  sum : ∀ {tokens values}, tokens ≠ [] → List.Forall₂ Denotes tokens values →
    Denotes (dialect.group (dialect.add tokens)) values.sum
  divide : ∀ {numerator denominator value divisor}, Denotes numerator value →
    Denotes denominator divisor →
      Denotes (dialect.divide numerator (dialect.group denominator)) (value / divisor)
  power : ∀ {token value} (exponent : Int), Denotes token value →
    Denotes (dialect.power token exponent) (I.power value (I.word (toString exponent)))
  generalPower : ∀ {token exponent value power}, Denotes token value → Denotes exponent power →
    Denotes (dialect.generalPower token exponent) (I.generalPower value power)
  absolute : ∀ {token value}, Denotes token value →
    Denotes (dialect.absolute token) (I.absolute value)
  elementary : ∀ function {token value}, Denotes token value →
    Denotes (dialect.elementary function token) (I.elementary function value)
  jacobian : ∀ kind row column side,
    Denotes (dialect.jacobian kind row column side) (I.word (kind.entryName row column side))
  reciprocal : ∀ side,
    Denotes (dialect.reciprocal (dialect.determinant side)) (1 / I.word (determinantName side))
  normal : ∀ side component,
    Denotes (dialect.normal side component) (I.word (normalName side component))

variable {V : Type} [Field V]

namespace Language

/-- Whether a token is the text of an expression with the given value that is no
bare sum. -/
def DenotesTerm (language : Language) (I : Interpretation V) (token : Token) (value : V) : Prop :=
  ∃ tree : CodeTree, (tree.WellFormed ∧ 1 ≤ tree.level) ∧ tree.text = token.toList ∧
    tree.value? language I = some value

variable {language : Language} {I : Interpretation V}

theorem DenotesTerm.denotes {token : Token} {value : V}
    (hToken : language.DenotesTerm I token value) : language.Denotes I token value := by
  obtain ⟨tree, ⟨hTree, -⟩, hText, hValue⟩ := hToken
  exact ⟨tree, hTree, hText, hValue⟩

theorem DenotesTerm.unique {token : Token} {left right : V}
    (hLeft : language.DenotesTerm I token left) (hRight : language.DenotesTerm I token right) :
    left = right :=
  hLeft.denotes.unique hRight.denotes

theorem DenotesTerm.ne_empty {token : Token} {value : V}
    (hToken : language.DenotesTerm I token value) : token ≠ "" := by
  rintro rfl
  obtain ⟨tree, ⟨hTree, -⟩, hText, -⟩ := hToken
  exact tree.text_ne_nil hTree hText

theorem denotesTerm_word {token : Token} (hToken : IsWord token) :
    language.DenotesTerm I token (I.word token) :=
  ⟨.word token, ⟨hToken, by simp [CodeTree.level]⟩, rfl, rfl⟩

/-- The expressions of tokens that denote values. -/
theorem exists_trees {tokens : List Token} {values : List V}
    (hTokens : List.Forall₂ (language.DenotesTerm I) tokens values) :
    ∃ trees : List CodeTree,
      (∀ tree ∈ trees, tree.WellFormed ∧ 1 ≤ tree.level) ∧
        trees.map CodeTree.text = tokens.map String.toList ∧
          List.Forall₂ (fun tree value => tree.value? language I = some value) trees values := by
  induction hTokens with
  | nil => exact ⟨[], by simp, rfl, .nil⟩
  | cons hToken _ ih =>
      obtain ⟨tree, hTree, hText, hValue⟩ := hToken
      obtain ⟨trees, hTrees, hTexts, hValues⟩ := ih
      refine ⟨tree :: trees, ?_, ?_, .cons hValue hValues⟩
      · rintro other (_ | ⟨_, hOther⟩)
        · exact hTree
        · exact hTrees other hOther
      · rw [List.map_cons, List.map_cons, hText, hTexts]

/-- A call of tokens denotes the value of the operation that it names. -/
theorem denotesTerm_call {callee : Token} {tokens : List Token} {values : List V} {value : V}
    (hCallee : IsWord callee) (hNonempty : tokens ≠ [])
    (hTokens : List.Forall₂ (language.DenotesTerm I) tokens values)
    (hValue : language.call? I callee values = some value) :
    language.DenotesTerm I (Dialect.call callee tokens) value := by
  obtain ⟨trees, hTrees, hTexts, hValues⟩ := exists_trees hTokens
  have hSome : trees ≠ [] := by
    rintro rfl
    exact hNonempty (List.map_eq_nil_iff.mp hTexts.symm)
  refine ⟨.call callee trees, ⟨⟨hCallee, hSome, ?_⟩, by simp [CodeTree.level]⟩, ?_, ?_⟩
  · exact CodeTree.allWellFormed_iff.mpr fun tree hMem => (hTrees tree hMem).1
  · rw [CodeTree.text, CodeTree.texts_eq_map, hTexts, Dialect.call]
    simp [String.toList_append, String.toList_intercalate]
  · rw [CodeTree.value?, CodeTree.values?_eq_some hValues]
    exact hValue

end Language

/-! ### Nested calls -/

namespace Dialect

open FormLowering.Language

variable {I : Interpretation V}

theorem denotesTerm_literal {language : Language} (value : Binary64) :
    language.DenotesTerm I value.shortestText (I.word value.shortestText) :=
  denotesTerm_word (Binary64.isWord_shortestText value)

theorem denotesTerm_natural {language : Language} (hNatural : I.NaturalLiterals) {number : Nat}
    (hBound : number < 2 ^ 53) :
    language.DenotesTerm I (Binary64.ofNat number).shortestText (number : V) := by
  have hLiteral : language.DenotesTerm I (Binary64.ofNat number).shortestText
      (I.word (Binary64.ofNat number).shortestText) := denotesTerm_literal _
  rw [Binary64.shortestText_ofNat hBound, hNatural number hBound] at hLiteral
  rwa [Binary64.shortestText_ofNat hBound]

/-- Nested calls denote what their operations are named after. -/
def callsReading (hNatural : I.NaturalLiterals) : calls.Reading I where
  Denotes := Language.calls.DenotesTerm I
  Exact number := number < 2 ^ 53
  exact_one := by norm_num
  exact_of_le := lt_of_le_of_lt
  div_one := div_one
  unique := DenotesTerm.unique
  ne_empty := DenotesTerm.ne_empty
  word := denotesTerm_word
  literal := denotesTerm_literal
  natural := denotesTerm_natural hNatural
  multiply := by
    intro tokens values hNonempty hTokens
    -- A single factor is written without a call.
    match tokens, values, hTokens with
    | [token], [value], .cons hToken .nil => simpa [calls, callMultiply] using hToken
    | first :: second :: rest, values, hTokens =>
      exact denotesTerm_call (by decide) hNonempty hTokens rfl
  sum := by
    intro tokens values hNonempty hTokens
    have hSum : Language.calls.DenotesTerm I (call "add" tokens) values.sum :=
      denotesTerm_call (by decide) hNonempty hTokens rfl
    exact denotesTerm_call (by decide) (by simp) (.cons hSum .nil) rfl
  divide := by
    intro numerator denominator value divisor hNumerator hDenominator
    have hGroup : Language.calls.DenotesTerm I (call "group" [denominator]) divisor :=
      denotesTerm_call (by decide) (by simp) (.cons hDenominator .nil) rfl
    exact denotesTerm_call (by decide) (by simp) (.cons hNumerator (.cons hGroup .nil)) rfl
  power := by
    intro token value exponent hToken
    have hExponent : Language.calls.DenotesTerm I (toString exponent) (I.word (toString exponent)) :=
      denotesTerm_word (isWord_intText exponent)
    exact denotesTerm_call (by decide) (by simp) (.cons hToken (.cons hExponent .nil)) rfl
  generalPower := by
    intro token exponent value power hToken hExponent
    exact denotesTerm_call (by decide) (by simp) (.cons hToken (.cons hExponent .nil)) rfl
  absolute := by
    intro token value hToken
    exact denotesTerm_call (by decide) (by simp) (.cons hToken .nil) rfl
  elementary := by
    intro function token value hToken
    cases function with
    | sqrt => exact denotesTerm_call (by decide) (by simp) (.cons hToken .nil) rfl
    | exp => exact denotesTerm_call (by decide) (by simp) (.cons hToken .nil) rfl
    | ln => exact denotesTerm_call (by decide) (by simp) (.cons hToken .nil) rfl
    | cos => exact denotesTerm_call (by decide) (by simp) (.cons hToken .nil) rfl
    | sin => exact denotesTerm_call (by decide) (by simp) (.cons hToken .nil) rfl
  jacobian kind row column side := denotesTerm_word (isWord_entryName kind row column side)
  reciprocal side :=
    denotesTerm_call (by decide) (by simp)
      (.cons (denotesTerm_word (isWord_determinantName side)) .nil) rfl
  normal side component := denotesTerm_word (isWord_normalName side component)

end Dialect

/-! ### C++ expressions -/

namespace CodeTree

/-- A product whose second operand is written behind the first without
parentheses.  Operators associate to the left, so the first operand goes to the
innermost factor. -/
def behind (left : CodeTree) : CodeTree → CodeTree
  | .binary operator first second => .binary operator (behind left first) second
  | tree => .binary .times left tree

theorem text_behind (left : CodeTree) :
    (right : CodeTree) → (left.behind right).text = left.text ++ '*' :: right.text
  | .word _ | .group _ | .call _ _ => rfl
  | .binary operator first second => by
    rw [behind, text, text_behind left first, text]
    simp

theorem wellFormed_behind {left : CodeTree} (hLeft : left.WellFormed ∧ 1 ≤ left.level) :
    (right : CodeTree) → right.WellFormed → 1 ≤ right.level →
      (left.behind right).WellFormed ∧ (left.behind right).level = 1
  | .word _, hRight, _ | .group _, hRight, _ | .call _ _, hRight, _ => by
    refine ⟨⟨hLeft, hRight, ?_⟩, rfl⟩
    simp [level, Operator.level]
  | .binary operator first second, ⟨⟨hFirst, hFirstLevel⟩, hSecond⟩, hLevel => by
    -- The term is a product or quotient, so its first operand is a term again.
    have hOperator : operator.level = 1 := by
      cases operator <;> simp_all [level, Operator.level]
    rw [hOperator] at hFirstLevel
    obtain ⟨hInner, hInnerLevel⟩ := wellFormed_behind hLeft first hFirst hFirstLevel
    refine ⟨⟨⟨hInner, ?_⟩, hSecond⟩, hOperator⟩
    rw [hOperator, hInnerLevel]

theorem value?_binary {I : Interpretation V} {operator : Operator} {left right : CodeTree}
    {value other : V} (hLeft : left.value? .cpp I = some value)
    (hRight : right.value? .cpp I = some other) :
    (CodeTree.binary operator left right).value? .cpp I = some (operator.apply value other) := by
  rw [value?, hLeft, hRight]
  rfl

/-- Writing a term behind another one multiplies by it. -/
theorem value?_behind {I : Interpretation V} {left : CodeTree} {value : V}
    (hLeft : left.value? .cpp I = some value) :
    (right : CodeTree) → right.WellFormed → 1 ≤ right.level →
      (other : V) → right.value? .cpp I = some other →
        (left.behind right).value? .cpp I = some (value * other)
  | .word _, _, _, _, hRight | .group _, _, _, _, hRight | .call _ _, _, _, _, hRight =>
    value?_binary hLeft hRight
  | .binary operator first second, ⟨⟨hFirst, hFirstLevel⟩, _⟩, hLevel, other, hRight => by
    simp only [value?, Language.hasOperators, if_true] at hRight
    obtain ⟨firstValue, hFirstValue, hRight⟩ := Option.bind_eq_some_iff.mp hRight
    obtain ⟨secondValue, hSecondValue, rfl⟩ := Option.map_eq_some_iff.mp hRight
    rw [behind]
    cases operator with
    | plus => simp [level, Operator.level] at hLevel
    | times =>
      have hInner := value?_behind hLeft first hFirst hFirstLevel _ hFirstValue
      rw [value?_binary hInner hSecondValue]
      exact congrArg some (mul_assoc _ _ _)
    | divided =>
      have hInner := value?_behind hLeft first hFirst hFirstLevel _ hFirstValue
      rw [value?_binary hInner hSecondValue]
      exact congrArg some (mul_div_assoc _ _ _)

end CodeTree

namespace Language

variable {I : Interpretation V}

theorem denotesTerm_times {left right : Token} {value other : V}
    (hLeft : Language.cpp.DenotesTerm I left value)
    (hRight : Language.cpp.DenotesTerm I right other) :
    Language.cpp.DenotesTerm I (left ++ "*" ++ right) (value * other) := by
  obtain ⟨tree, hTree, hText, hValue⟩ := hLeft
  obtain ⟨tree', ⟨hTree', hLevel'⟩, hText', hValue'⟩ := hRight
  obtain ⟨hWhole, hLevel⟩ := CodeTree.wellFormed_behind hTree tree' hTree' hLevel'
  refine ⟨tree.behind tree', ⟨hWhole, hLevel.ge⟩, ?_, ?_⟩
  · rw [CodeTree.text_behind, hText, hText']
    simp [String.toList_append]
  · exact CodeTree.value?_behind hValue tree' hTree' hLevel' other hValue'

theorem denotesTerm_product {tokens : List Token} {values : List V} (hNonempty : tokens ≠ [])
    (hTokens : List.Forall₂ (Language.cpp.DenotesTerm I) tokens values) :
    Language.cpp.DenotesTerm I ("*".intercalate tokens) values.prod := by
  induction hTokens with
  | nil => exact absurd rfl hNonempty
  | cons hFirst hRest ih =>
      cases hRest with
      | nil => simpa using hFirst
      | cons hSecond hRest =>
          rw [String.intercalate_cons_cons, List.prod_cons]
          exact denotesTerm_times hFirst (ih (List.cons_ne_nil _ _))

theorem denotes_plus {left right : Token} {value other : V}
    (hLeft : Language.cpp.Denotes I left value) (hRight : Language.cpp.DenotesTerm I right other) :
    Language.cpp.Denotes I (left ++ " + " ++ right) (value + other) := by
  obtain ⟨tree, hTree, hText, hValue⟩ := hLeft
  obtain ⟨tree', ⟨hTree', hLevel'⟩, hText', hValue'⟩ := hRight
  refine ⟨.binary .plus tree tree', ⟨⟨hTree, ?_⟩, hTree', hLevel'⟩, ?_, ?_⟩
  · exact Nat.zero_le _
  · rw [CodeTree.text, hText, hText']
    simp [Operator.text, String.toList_append]
  · exact CodeTree.value?_binary hValue hValue'

/-- A row of terms is read from the left, so what stands in front may be a sum. -/
theorem denotes_sum {front : Token} {value : V} (hFront : Language.cpp.Denotes I front value)
    {tokens : List Token} {values : List V}
    (hTokens : List.Forall₂ (Language.cpp.DenotesTerm I) tokens values) :
    Language.cpp.Denotes I (" + ".intercalate (front :: tokens)) (value + values.sum) := by
  induction hTokens generalizing front value with
  | nil => simpa using hFront
  | cons hFirst _ ih =>
      have hNext := ih (denotes_plus hFront hFirst)
      rw [String.intercalate_cons_append, add_assoc, ← List.sum_cons] at hNext
      rwa [String.intercalate_cons_cons]

theorem denotesTerm_group {token : Token} {value : V} (hToken : Language.cpp.Denotes I token value) :
    Language.cpp.DenotesTerm I ("(" ++ token ++ ")") value := by
  obtain ⟨tree, hTree, hText, hValue⟩ := hToken
  refine ⟨.group tree, ⟨hTree, by simp [CodeTree.level]⟩, ?_, hValue⟩
  rw [CodeTree.text, hText]
  simp [String.toList_append]

/-- A quotient by an expression that binds tighter than `/`. -/
theorem denotesTerm_quotient {numerator : Token} {value divisor : V} (denominator : CodeTree)
    (hNumerator : Language.cpp.DenotesTerm I numerator value)
    (hDenominator : denominator.WellFormed ∧ 1 < denominator.level)
    (hDivisor : denominator.value? .cpp I = some divisor) :
    Language.cpp.DenotesTerm I (numerator ++ "/" ++ String.ofList denominator.text)
      (value / divisor) := by
  obtain ⟨tree, hTree, hText, hValue⟩ := hNumerator
  refine ⟨.binary .divided tree denominator, ⟨⟨hTree, hDenominator⟩, ?_⟩, ?_, ?_⟩
  · simp [CodeTree.level, Operator.level]
  · rw [CodeTree.text, hText]
    simp [Operator.text, String.toList_append]
  · exact CodeTree.value?_binary hValue hDivisor

end Language

namespace Dialect

open FormLowering.Language

variable {I : Interpretation V}

theorem cppPower_eq_call (base exponent : Token) :
    cppPower base exponent = call "std::pow" [base, exponent] := by
  rw [← String.toList_inj]
  simp [cppPower, call, String.toList_append, String.intercalate_cons_cons]

/-- A function of the standard library is called by its name. -/
theorem denotesTerm_libraryCall {name opening token : Token} {value result : V}
    (hName : IsWord name) (hOpening : opening = name ++ "(")
    (hToken : Language.cpp.DenotesTerm I token value)
    (hResult : I.libraryCall? name [value] = some result) :
    Language.cpp.DenotesTerm I (opening ++ token ++ ")") result := by
  have hCall : opening ++ token ++ ")" = call name [token] := by
    rw [hOpening, call, String.intercalate_singleton]
  rw [hCall]
  exact denotesTerm_call hName (by simp) (.cons hToken .nil) hResult

/-- C++ expressions denote what the standard library computes, which has one
power for all exponents. -/
def cppReading (hNatural : I.NaturalLiterals) (hPower : I.generalPower = I.power) :
    (cpp none).Reading I where
  Denotes := Language.cpp.DenotesTerm I
  Exact number := number < 2 ^ 53
  exact_one := by norm_num
  exact_of_le := lt_of_le_of_lt
  div_one := div_one
  unique := DenotesTerm.unique
  ne_empty := DenotesTerm.ne_empty
  word := denotesTerm_word
  literal := denotesTerm_literal
  natural := denotesTerm_natural hNatural
  multiply := by
    intro tokens values hNonempty hTokens
    have hMultiply : (cpp none).multiply tokens = "*".intercalate tokens := by
      simp [cpp, hNonempty]
    rw [hMultiply]
    exact denotesTerm_product hNonempty hTokens
  sum := by
    intro tokens values hNonempty hTokens
    cases hTokens with
    | nil => exact absurd rfl hNonempty
    | cons hFirst hRest => exact denotesTerm_group (denotes_sum hFirst.denotes hRest)
  divide := by
    intro numerator denominator value divisor hNumerator hDenominator
    -- The denominator is grouped, so it may be anything.
    obtain ⟨tree, ⟨hTree, -⟩, hText, hValue⟩ := hDenominator
    have hQuotient := denotesTerm_quotient (.group tree) hNumerator
      ⟨hTree, by simp [CodeTree.level]⟩ hValue
    have hGroup : String.ofList (CodeTree.group tree).text = "(" ++ denominator ++ ")" := by
      rw [CodeTree.text, hText, ← String.toList_inj]
      simp [String.toList_append]
    rw [hGroup] at hQuotient
    exact hQuotient
  power := by
    intro token value exponent hToken
    have hExponent : Language.cpp.DenotesTerm I (toString exponent) (I.word (toString exponent)) :=
      denotesTerm_word (isWord_intText exponent)
    show Language.cpp.DenotesTerm I (cppPower token (toString exponent)) _
    rw [cppPower_eq_call]
    exact denotesTerm_call (by decide) (by simp) (.cons hToken (.cons hExponent .nil)) rfl
  generalPower := by
    intro token exponent value power hToken hExponent
    show Language.cpp.DenotesTerm I (cppPower token exponent) _
    rw [cppPower_eq_call, hPower]
    exact denotesTerm_call (by decide) (by simp) (.cons hToken (.cons hExponent .nil)) rfl
  absolute := by
    intro token value hToken
    have hName : IsWord "std::abs" := by decide
    exact denotesTerm_libraryCall hName rfl hToken rfl
  elementary := by
    intro function token value hToken
    cases function with
    | sqrt => exact denotesTerm_libraryCall (by decide) rfl hToken rfl
    | exp => exact denotesTerm_libraryCall (by decide) rfl hToken rfl
    | ln => exact denotesTerm_libraryCall (by decide) rfl hToken rfl
    | cos => exact denotesTerm_libraryCall (by decide) rfl hToken rfl
    | sin => exact denotesTerm_libraryCall (by decide) rfl hToken rfl
  jacobian kind row column side := denotesTerm_word (isWord_entryName kind row column side)
  reciprocal := by
    intro side
    have hOne : I.word "1.0" = 1 := by
      have hLiteral := hNatural 1 (by norm_num)
      rwa [Nat.cast_one] at hLiteral
    have hNumerator : Language.cpp.DenotesTerm I "1.0" (I.word "1.0") :=
      denotesTerm_word (by decide)
    have hQuotient := denotesTerm_quotient (.word (determinantName side)) hNumerator
      ⟨isWord_determinantName side, by simp [CodeTree.level]⟩ rfl
    -- The determinant is a word and needs no parentheses.
    have hText : (cpp none).reciprocal ((cpp none).determinant side) =
        "(" ++ ("1.0" ++ "/" ++ determinantName side) ++ ")" := by
      rw [← String.toList_inj]
      simp [cpp, String.toList_append]
    rw [CodeTree.text, String.ofList_toList, hOne] at hQuotient
    rw [hText]
    exact denotesTerm_group hQuotient.denotes
  normal side component := denotesTerm_word (isWord_normalName side component)

end Dialect

end FormLowering
