import FormLowering.Proofs.Semantics.BasisCode

/-!
# Lowering writes what evaluation computes

The code of an expression has the keys of its value, and every entry denotes
the value under its key.  Lowering fails exactly where evaluation does, with the
same fault.  The proof goes through the syntax of expressions once, for every
dialect that can be read.
-/

namespace FormLowering

open LowerM

variable {V : Type} [CommSemiring V] [Div V] {backend : Backend} {I : Interpretation V}
  {reading : backend.dialect.Reading I}

namespace Backend

theorem literalCode_denotes (value : Binary64) :
    reading.CodeDenotes (backend.literalCode value) (.scalar (I.literal value)) := by
  apply SortedMap.Related.singleton
  unfold Interpretation.literal
  split
  · exact .none
  · exact .some (reading.literal value)

theorem normalCode_yields (context : LoweringContext) :
    Yields reading.CodeDenotes (backend.normalCode context) (I.normalValue context) := by
  unfold normalCode Interpretation.normalValue
  match context.component with
  | [] => exact Yields.fault _
  | [component] =>
    refine Yields.bind_ok (Yields.record (reading.normal context.restriction component))
      fun name hName => Yields.pure ?_
    exact SortedMap.Related.singleton [] (.some hName)
  | _ :: _ :: _ => exact Yields.fault _

theorem constantLeaf_yields (context : LoweringContext) {code : LowerM TensorCode}
    {value : Except Fault (TensorValue V)} (hCode : Yields reading.CodeDenotes code value) :
    Yields reading.CodeDenotes (constantLeaf context code)
      (Interpretation.constantLeaf context value) := by
  unfold constantLeaf Interpretation.constantLeaf
  split
  · exact hCode
  · exact Yields.pure (SortedMap.Related.singleton [] .none)

/-! ### Powers -/

theorem powerOfZero_agrees {α β : Type} {R : α → β → Prop} (exponent : ExponentForm) {one : α}
    {one' : β} (hOne : R one one') :
    Agree (Option.Rel R) (exponent.powerOfZero one) (exponent.powerOfZero one') := by
  unfold ExponentForm.powerOfZero
  split
  · exact .ok .none
  · exact .ok (.some hOne)
  · exact .error
  · exact .ok .none
  · exact .error

theorem powerOf_yields (exponent : ExponentForm) {base : Token} {value : V}
    {exponentCode : LowerM TensorCode} {exponentValue : Except Fault (TensorValue V)}
    (hBase : reading.Denotes base value)
    (hExponent : Yields reading.CodeDenotes exponentCode exponentValue) :
    Yields reading.Denotes (backend.powerOf base exponent exponentCode)
      (I.powerOf value exponent exponentValue) := by
  cases exponent with
  | integer number => exact Yields.pure (reading.power number hBase)
  | real number => exact Yields.pure (reading.generalPower hBase (reading.literal number))
  | function =>
      refine Yields.bind hExponent fun code codeValue hCode => ?_
      have hScalar := hCode.asScalar?
      generalize code.asScalar? = entry at hScalar ⊢
      generalize codeValue.asScalar? = entryValue at hScalar ⊢
      cases hScalar with
      | none => exact Yields.fault _
      | some hEntry =>
          -- An exponent that is symbolic zero makes the power one.
          cases hEntry with
          | none => exact Yields.pure Dialect.Reading.identity
          | some hToken => exact Yields.pure (reading.generalPower hBase hToken)
  | unsupported => exact Yields.fault _

theorem powerCode_yields (exponent : ExponentForm) {baseCode exponentCode : LowerM TensorCode}
    {baseValue exponentValue : Except Fault (TensorValue V)}
    (hBase : Yields reading.CodeDenotes baseCode baseValue)
    (hExponent : Yields reading.CodeDenotes exponentCode exponentValue) :
    Yields reading.CodeDenotes (backend.powerCode baseCode exponent exponentCode)
      (I.powerValue baseValue exponent exponentValue) := by
  refine Yields.bind hBase fun code codeValue hCode => ?_
  have hScalar := hCode.asScalar?
  generalize code.asScalar? = entry at hScalar ⊢
  generalize codeValue.asScalar? = entryValue at hScalar ⊢
  cases hScalar with
  | none => exact Yields.fault _
  | some hEntry =>
      cases hEntry with
      | none =>
          -- The exponent of a vanishing base is not lowered.
          have hOne : reading.Denotes backend.dialect.identity 1 := Dialect.Reading.identity
          refine Yields.bind (Yields.ofExcept (powerOfZero_agrees exponent hOne)) fun _ _ hZero => ?_
          exact Yields.pure (SortedMap.Related.singleton [] hZero)
      | some hToken =>
          refine Yields.bind (powerOf_yields exponent hToken hExponent) fun _ _ hPower => ?_
          exact Yields.pure (SortedMap.Related.singleton [] (.some hPower))

/-! ### Expressions -/

mutual

/-- Lowering an expression yields code that denotes its value. -/
theorem lower_yields (hTables : backend.elements.NamedByWords) :
    (expr : Expr) → (context : LoweringContext) →
    expr.Every Expr.NamedByWord → backend.TermCounts reading.Exact expr context →
      Yields reading.CodeDenotes (backend.lower expr context)
        (I.evaluate backend.elements backend.dimensions expr context)
  | .sum operands, context, hWords, hCounts => by
    unfold lower Interpretation.evaluate
    refine Yields.within ?_ _
    refine (lowerAll_yields hTables operands context hWords.2 hCounts.1).bind_returns
      fun codes values hCodes hOperands => ?_
    -- The bound on the number of terms is for the codes that the operands return.
    exact Yields.ofExcept (Dialect.Reading.sumCode hOperands (hCounts.2 codes hCodes))
  | .product operands, context, hWords, hCounts => by
    unfold lower Interpretation.evaluate
    refine Yields.within ?_ _
    refine (lowerAll_yields hTables operands context hWords.2 hCounts.1).bind_returns
      fun codes values hCodes hOperands => ?_
    exact Yields.ofExcept (Dialect.Reading.productCode hOperands fun contributions =>
      hCounts.2 codes contributions hCodes)
  | .division operands, context, hWords, hCounts => by
    unfold lower Interpretation.evaluate
    refine Yields.within ?_ _
    refine (lowerAll_yields hTables operands context hWords.2 hCounts).bind
      fun codes values hOperands => ?_
    exact Yields.ofExcept (Dialect.Reading.divisionCode hOperands)
  | .power base exponent, context, hWords, hCounts => by
    unfold lower Interpretation.evaluate
    refine Yields.within ?_ _
    exact powerCode_yields exponent.exponentForm
      (lower_yields hTables base context hWords.2.1 hCounts.1)
      (lower_yields hTables exponent context hWords.2.2 hCounts.2)
  | .abs operands, context, hWords, hCounts => by
    unfold lower Interpretation.evaluate
    refine Yields.within ?_ _
    refine (lowerAll_yields hTables operands context hWords.2 hCounts).bind
      fun codes values hOperands => ?_
    exact Yields.ofExcept (Dialect.Reading.absCode hOperands)
  | .elementary function operands, context, hWords, hCounts => by
    unfold lower Interpretation.evaluate
    refine Yields.within ?_ _
    refine (lowerAll_yields hTables operands context hWords.2 hCounts).bind
      fun codes values hOperands => ?_
    exact Yields.ofExcept (Dialect.Reading.functionCode function hOperands)
  | .indexed operand component, context, hWords, hCounts => by
    unfold lower Interpretation.evaluate
    exact (lower_yields hTables operand (context.select component) hWords.2 hCounts).within _
  | .restricted operand restriction, context, hWords, hCounts => by
    unfold lower Interpretation.evaluate
    exact (lower_yields hTables operand (context.restrict restriction) hWords.2 hCounts).within _
  | .derivative operand direction, context, hWords, hCounts => by
    unfold lower Interpretation.evaluate
    exact (lower_yields hTables operand (context.differentiate direction) hWords.2 hCounts).within _
  | .argument argument, context, _, _ => by
    unfold lower Interpretation.evaluate
    exact (lowerArgument_yields hTables argument context).within _
  | .coefficient coefficient, context, _, _ => by
    unfold lower Interpretation.evaluate
    exact (lowerCoefficient_yields hTables coefficient context).within _
  | .facetNormal, context, _, _ => by
    unfold lower Interpretation.evaluate
    exact (constantLeaf_yields context (normalCode_yields context)).within _
  | .integer value, context, _, _ => by
    unfold lower Interpretation.evaluate
    exact (constantLeaf_yields context (Yields.pure (literalCode_denotes (.ofInt value)))).within _
  | .real value, context, _, _ => by
    unfold lower Interpretation.evaluate
    exact (constantLeaf_yields context (Yields.pure (literalCode_denotes value))).within _
  | .zero, context, _, _ => by
    unfold lower Interpretation.evaluate
    refine (constantLeaf_yields context (Yields.pure ?_)).within _
    exact SortedMap.Related.singleton [] .none
  | .symbol name, context, hWord, _ => by
    unfold lower Interpretation.evaluate
    refine (constantLeaf_yields context (Yields.pure ?_)).within _
    exact SortedMap.Related.singleton [] (.some (reading.word hWord))

/-- Lowering operands yields codes that denote their values. -/
theorem lowerAll_yields (hTables : backend.elements.NamedByWords) :
    (operands : List Expr) → (context : LoweringContext) →
    Expr.AllEvery Expr.NamedByWord operands →
      backend.AllTermCounts reading.Exact operands context →
        Yields (List.Forall₂ reading.CodeDenotes) (backend.lowerAll operands context)
          (I.evaluateAll backend.elements backend.dimensions operands context)
  | [], _, _, _ => Yields.pure .nil
  | operand :: rest, context, hWords, hCounts => by
    unfold lowerAll Interpretation.evaluateAll
    refine (lower_yields hTables operand context hWords.1 hCounts.1).bind fun code value hFirst => ?_
    refine (lowerAll_yields hTables rest context hWords.2 hCounts.2).bind fun codes values hRest => ?_
    exact Yields.pure (.cons hFirst hRest)

end

end Backend

end FormLowering
