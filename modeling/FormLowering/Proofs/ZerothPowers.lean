import FormLowering.Proofs.Progress

/-!
# Zeroth powers

An exponent can be zero in two ways: as a literal, and as a function whose code is symbolic
zero.  Either makes a token of a base that is a token, and a literal makes a one of symbolic
zero as well.  But for a base that is symbolic zero a function is not lowered, and the power
is symbolic zero although its exponent is.
-/

namespace FormLowering

open LowerM

/-- A power of symbolic zero with an exponent that is a function is symbolic zero. -/
theorem Expr.powerOfZero_of_isField {exponent : Expr} (hField : exponent.isField)
    (one : Token) : exponent.exponentForm.powerOfZero one = .ok none := by
  rw [exponentForm_of_isField hField]
  rfl

/-- A literal zero, of either kind, makes a one of symbolic zero. -/
theorem Expr.powerOfZero_of_isZeroLiteral {exponent : Expr} (hZero : exponent.isZeroLiteral)
    (one : Token) : exponent.exponentForm.powerOfZero one = .ok (some one) := by
  cases exponent with
  | integer value =>
      obtain rfl : value = 0 := eq_of_beq hZero
      rfl
  | real value =>
      have hPositive : value.isPositive = false := by
        by_contra hPositive
        rw [Bool.not_eq_false] at hPositive
        exact absurd hZero (by simp [isZeroLiteral, Binary64.isZero_of_isPositive hPositive])
      have hValue : value.isZero = true := hZero
      simp [exponentForm, ExponentForm.powerOfZero, ExponentForm.sign?, hPositive, hValue]
      rfl
  | _ => cases hZero

theorem Expr.not_isField_of_isZeroLiteral {exponent : Expr} (hZero : exponent.isZeroLiteral) :
    ¬exponent.isField := by
  cases exponent with
  | integer value => exact Bool.false_ne_true
  | real value => exact Bool.false_ne_true
  | _ => cases hZero

namespace Backend

/-- Whether an exponent is zero: a literal zero, or a function whose code is symbolic zero. -/
def IsZeroExponent (backend : Backend) (exponent : Expr) (context : LoweringContext) : Prop :=
  exponent.isZeroLiteral ∨
    exponent.isField ∧ (backend.lower exponent context).Returns (.scalar none)

variable {backend : Backend} {context : LoweringContext} {base exponent : Expr}

/-- A power of symbolic zero does not depend on the code of the exponent. -/
theorem returns_lowerPower_of_zero (hBase : (backend.lower base context).Returns (.scalar none))
    {power : Entry} (hPower : exponent.exponentForm.powerOfZero backend.dialect.identity = .ok power) :
    (backend.lowerPower base exponent context).Returns (.scalar power) := by
  refine hBase.bind ?_ (backend.lower_writeOnly base context) ?_
  · show Returns (LowerM.ofExcept _ >>= _) _
    rw [hPower]
    exact returns_pure.mpr rfl
  · exact (WriteOnly.ofExcept _).bind fun _ => .pure _

theorem returns_lowerPower_of_token {token result : Token}
    (hBase : (backend.lower base context).Returns (.scalar (some token)))
    (hPower : (backend.powerOf token exponent.exponentForm (backend.lower exponent context)).Returns
      result) : (backend.lowerPower base exponent context).Returns (.scalar (some result)) := by
  have hToken : WriteOnly
      (backend.powerOf token exponent.exponentForm (backend.lower exponent context)) :=
    powerOf_writeOnly token exponent.exponentForm (backend.lower_writeOnly exponent context)
  refine hBase.bind ?_ (backend.lower_writeOnly base context) ?_
  · exact hPower.bind (returns_pure.mpr rfl) hToken (.pure _)
  · exact hToken.bind fun _ => .pure _

/-- A literal zero as an exponent is written out. -/
theorem exists_returns_powerOf_of_isZeroLiteral (token : Token) (hZero : exponent.isZeroLiteral) :
    ∃ result, (backend.powerOf token exponent.exponentForm (backend.lower exponent context)).Returns
      result := by
  cases exponent with
  | integer value => exact ⟨_, returns_pure.mpr rfl⟩
  | real value => exact ⟨_, returns_pure.mpr rfl⟩
  | _ => cases hZero

/-- A function that is symbolic zero as an exponent makes a one. -/
theorem returns_powerOf_of_isField (token : Token) (hField : exponent.isField)
    (hExponent : (backend.lower exponent context).Returns (.scalar none)) :
    (backend.powerOf token exponent.exponentForm (backend.lower exponent context)).Returns
      backend.dialect.identity := by
  rw [Expr.exponentForm_of_isField hField]
  exact hExponent.bind (returns_pure.mpr rfl) (backend.lower_writeOnly exponent context) (.pure _)

/-- What a zeroth power is: symbolic zero, where the base is and the exponent is a function, and
else a token, which is a one unless a base that is a token has a literal as its exponent. -/
theorem exists_returns_zeroth_power {entry : Entry}
    (hBase : (backend.lower base context).Returns (.scalar entry))
    (hZero : backend.IsZeroExponent exponent context) :
    ∃ power : Entry, (backend.lowerPower base exponent context).Returns (.scalar power) ∧
      (power = none ↔ entry = none ∧ exponent.isField) ∧
        (entry = none ∨ exponent.isField → power ≠ none →
          power = some backend.dialect.identity) := by
  rcases hZero with hLiteral | ⟨hField, hExponent⟩
  · have hField : ¬exponent.isField := Expr.not_isField_of_isZeroLiteral hLiteral
    cases entry with
    | none =>
        have hOne := Expr.powerOfZero_of_isZeroLiteral hLiteral backend.dialect.identity
        exact ⟨_, returns_lowerPower_of_zero hBase hOne, by simp [hField], fun _ _ => rfl⟩
    | some token =>
        obtain ⟨result, hResult⟩ : ∃ result,
            (backend.powerOf token exponent.exponentForm (backend.lower exponent context)).Returns
              result := exists_returns_powerOf_of_isZeroLiteral token hLiteral
        exact ⟨_, returns_lowerPower_of_token hBase hResult, by simp, by simp [hField]⟩
  · cases entry with
    | none =>
        have hNone := Expr.powerOfZero_of_isField hField backend.dialect.identity
        exact ⟨_, returns_lowerPower_of_zero hBase hNone, by simp [hField], by simp⟩
    | some token =>
        have hOne := returns_powerOf_of_isField token hField hExponent
        exact ⟨_, returns_lowerPower_of_token hBase hOne, by simp, fun _ _ => rfl⟩

/-- A power whose exponent is zero has code, by itself and as an expression, whatever names
have been recorded.  It is symbolic zero exactly if the base is and the exponent is a function,
and otherwise, where the base is symbolic zero or the exponent is a function, it is a one. -/
theorem zeroth_power_vanishes_iff (backend : Backend) {base exponent : Expr}
    {context : LoweringContext} {entry : Entry}
    (hBase : (backend.lower base context).Returns (.scalar entry))
    (hZero : backend.IsZeroExponent exponent context) :
    ∃ power : Entry,
      (∀ names, ((backend.lowerPower base exponent context).runWith names).1 =
        .ok (.scalar power)) ∧
      (∀ names, ((backend.lower (.power base exponent) context).runWith names).1 =
        .ok (.scalar power)) ∧
      (power = none ↔ entry = none ∧ exponent.isField) ∧
        (entry = none ∨ exponent.isField → power ≠ none →
          power = some backend.dialect.identity) := by
  obtain ⟨power, hReturns, hPower⟩ := exists_returns_zeroth_power hBase hZero
  have hWriteOnly : WriteOnly (backend.lowerPower base exponent context) :=
    backend.powerCode_writeOnly _ (backend.lower_writeOnly base context)
      (backend.lower_writeOnly exponent context)
  have hNode : (backend.lower (.power base exponent) context).Returns (.scalar power) := by
    rw [lower, returns_within]
    exact hReturns
  exact ⟨power, hWriteOnly.runWith_of_returns hReturns,
    (backend.lower_writeOnly _ context).runWith_of_returns hNode, hPower⟩

/-- A symbol to the power of a coefficient whose table is structurally zero is one, and so is a
derivative of the symbol to the power of the literal minus zero. -/
theorem zeroth_power_vanishes_iff_symbol :
    let catalog : ElementCatalog := .declareZero ⟨#[.lagrange 1], []⟩ 0 0 []
    let backend : Backend := ⟨.calls, catalog.tables, {}⟩
    let side : LoweringContext := { restriction := .positive }
    let literal : Expr := .real (.finite true ⟨0, by decide⟩)
    ((backend.lowerPower (.symbol "x") (.indexed (.coefficient ⟨0, 0⟩) [0]) side).runWith ∅).1 =
        .ok (.scalar (some "1.0")) ∧
      ((backend.lowerPower (.derivative (.symbol "x") 0) literal side).runWith ∅).1 =
        .ok (.scalar (some "1.0")) := by
  intro catalog backend side literal
  have hIdentity : backend.dialect.identity = "1.0" := by decide +kernel
  have hSymbol : (backend.lower (.symbol "x") side).Returns (.scalar (some "x")) :=
    returns_iff.mpr ⟨∅, rfl⟩
  have hDerivative : (backend.lower (.derivative (.symbol "x") 0) side).Returns (.scalar none) :=
    returns_iff.mpr ⟨∅, rfl⟩
  have hField : backend.IsZeroExponent (.indexed (.coefficient ⟨0, 0⟩) [0]) side :=
    .inr ⟨rfl, returns_iff.mpr ⟨∅, by decide +kernel⟩⟩
  have hLiteral : backend.IsZeroExponent literal side := .inl rfl
  obtain ⟨power, hRun, -, hNone, hOne⟩ := zeroth_power_vanishes_iff backend hSymbol hField
  obtain ⟨power', hRun', -, hNone', hOne'⟩ := zeroth_power_vanishes_iff backend hDerivative hLiteral
  have hPower := hOne (.inr rfl) fun hZero => nomatch (hNone.mp hZero).1
  have hPower' := hOne' (.inl rfl) fun hZero => nomatch (hNone'.mp hZero).2
  rw [hIdentity] at hPower hPower'
  exact ⟨hPower ▸ hRun ∅, hPower' ▸ hRun' ∅⟩

/-- Zero to the power of a coefficient whose table is structurally zero is symbolic zero, while
it is one to the power of a literal zero. -/
theorem zeroth_power_of_zero_vanishes :
    let catalog : ElementCatalog := .declareZero ⟨#[.lagrange 1], []⟩ 0 0 []
    let backend : Backend := ⟨.cpp none, catalog.tables, {}⟩
    (backend.lower .zero {}).Returns (.scalar none) ∧
      backend.IsZeroExponent (.coefficient ⟨0, 0⟩) {} ∧
        ((backend.lowerPower .zero (.coefficient ⟨0, 0⟩) {}).runWith ∅).1 = .ok (.scalar none) ∧
          ((backend.lowerPower .zero (.integer 0) {}).runWith ∅).1 =
            .ok (.scalar (some backend.dialect.identity)) :=
  ⟨returns_iff.mpr ⟨∅, rfl⟩, .inr ⟨rfl, returns_iff.mpr ⟨∅, by decide +kernel⟩⟩, rfl, rfl⟩

end Backend

end FormLowering
