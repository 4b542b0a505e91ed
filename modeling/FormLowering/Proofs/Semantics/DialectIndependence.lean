import FormLowering.Integrand
import FormLowering.Proofs.Semantics.Lowering

/-!
# What does not depend on the dialect

Dialects that are read over the same values bring together the same numbers of
terms, fail on the same expressions with the same faults, and emit code that
denotes the same values under the same keys.
-/

namespace FormLowering

open LowerM

variable {V : Type} [CommSemiring V] [Div V] {I : Interpretation V} {left right : Dialect}
  {tables : BasisTables} {dimensions : CellDimensions}

namespace Backend

/-- Operands return together in both dialects, with codes that denote the same values. -/
theorem lowerAll_common (reading : left.Reading I) (reading' : right.Reading I)
    (hTables : tables.NamedByWords) {operands : List Expr} {context : LoweringContext}
    (hWords : Expr.AllEvery Expr.NamedByWord operands)
    (hCounts : AllTermCounts ⟨left, tables, dimensions⟩ reading.Exact operands context)
    (hCounts' : AllTermCounts ⟨right, tables, dimensions⟩ reading'.Exact operands context)
    {codes' : List TensorCode}
    (hReturns' : (lowerAll ⟨right, tables, dimensions⟩ operands context).Returns codes') :
    ∃ codes values, (lowerAll ⟨left, tables, dimensions⟩ operands context).Returns codes ∧
      List.Forall₂ reading.CodeDenotes codes values ∧
        List.Forall₂ reading'.CodeDenotes codes' values := by
  have hYields : Yields (List.Forall₂ reading.CodeDenotes)
      (lowerAll ⟨left, tables, dimensions⟩ operands context)
      (I.evaluateAll tables dimensions operands context) :=
    lowerAll_yields hTables operands context hWords hCounts
  have hYields' : Yields (List.Forall₂ reading'.CodeDenotes)
      (lowerAll ⟨right, tables, dimensions⟩ operands context)
      (I.evaluateAll tables dimensions operands context) :=
    lowerAll_yields hTables operands context hWords hCounts'
  exact hYields.exists_common hYields' hReturns'

mutual

/-- The numbers of terms that meet are the same in every dialect. -/
theorem termCounts_of_reading (reading : left.Reading I) (reading' : right.Reading I)
    (hExact : reading.Exact = reading'.Exact) (hTables : tables.NamedByWords) :
    (expr : Expr) → (context : LoweringContext) → expr.Every Expr.NamedByWord →
      TermCounts ⟨left, tables, dimensions⟩ reading.Exact expr context →
        TermCounts ⟨right, tables, dimensions⟩ reading'.Exact expr context
  | .sum operands, context, hWords, hCounts => by
    have hAll := allTermCounts_of_reading reading reading' hExact hTables operands context hWords.2
      hCounts.1
    refine ⟨hAll, fun codes' hReturns' => ?_⟩
    obtain ⟨codes, values, hReturns, hCodes, hCodes'⟩ :=
      lowerAll_common reading reading' hTables hWords.2 hCounts.1 hAll hReturns'
    -- Codes of the same value have the same keys with as many terms.
    have hMeet := hCounts.2 codes hReturns
    rw [hExact, TermsMeet.of_related (forall₂_sumContributions hCodes)] at hMeet
    rwa [TermsMeet.of_related (forall₂_sumContributions hCodes')]
  | .product operands, context, hWords, hCounts => by
    have hAll := allTermCounts_of_reading reading reading' hExact hTables operands context hWords.2
      hCounts.1
    refine ⟨hAll, fun codes' contributions' hReturns' hContributions' => ?_⟩
    obtain ⟨codes, values, hReturns, hCodes, hCodes'⟩ :=
      lowerAll_common reading reading' hTables hWords.2 hCounts.1 hAll hReturns'
    have hTerms := Dialect.Reading.productContributions (forall₂_filter_isTensor hCodes)
      (forall₂_filterMap_asScalar? hCodes)
    have hTerms' := Dialect.Reading.productContributions (forall₂_filter_isTensor hCodes')
      (forall₂_filterMap_asScalar? hCodes')
    obtain ⟨contributions, hContributions, hTerms⟩ := hTerms.ok_of_ok
    rw [hContributions'] at hTerms'
    obtain ⟨_, hSame, hTerms'⟩ := hTerms'.of_ok
    cases hSame
    have hMeet := hCounts.2 codes contributions hReturns hContributions
    rw [hExact, TermsMeet.of_related hTerms] at hMeet
    rwa [TermsMeet.of_related hTerms']
  | .division operands, context, hWords, hCounts =>
    allTermCounts_of_reading reading reading' hExact hTables operands context hWords.2 hCounts
  | .power base exponent, context, hWords, hCounts =>
    ⟨termCounts_of_reading reading reading' hExact hTables base context hWords.2.1 hCounts.1,
      termCounts_of_reading reading reading' hExact hTables exponent context hWords.2.2 hCounts.2⟩
  | .abs operands, context, hWords, hCounts =>
    allTermCounts_of_reading reading reading' hExact hTables operands context hWords.2 hCounts
  | .elementary _ operands, context, hWords, hCounts =>
    allTermCounts_of_reading reading reading' hExact hTables operands context hWords.2 hCounts
  | .indexed operand component, context, hWords, hCounts =>
    termCounts_of_reading reading reading' hExact hTables operand (context.select component)
      hWords.2 hCounts
  | .restricted operand restriction, context, hWords, hCounts =>
    termCounts_of_reading reading reading' hExact hTables operand (context.restrict restriction)
      hWords.2 hCounts
  | .derivative operand direction, context, hWords, hCounts =>
    termCounts_of_reading reading reading' hExact hTables operand
      (context.differentiate direction) hWords.2 hCounts
  | .facetNormal, _, _, _ => trivial
  | .argument _, _, _, _ => trivial
  | .coefficient _, _, _, _ => trivial
  | .integer _, _, _, _ => trivial
  | .real _, _, _, _ => trivial
  | .zero, _, _, _ => trivial
  | .symbol _, _, _, _ => trivial

theorem allTermCounts_of_reading (reading : left.Reading I) (reading' : right.Reading I)
    (hExact : reading.Exact = reading'.Exact) (hTables : tables.NamedByWords) :
    (operands : List Expr) → (context : LoweringContext) →
      Expr.AllEvery Expr.NamedByWord operands →
        AllTermCounts ⟨left, tables, dimensions⟩ reading.Exact operands context →
          AllTermCounts ⟨right, tables, dimensions⟩ reading'.Exact operands context
  | [], _, _, _ => trivial
  | operand :: rest, context, hWords, hCounts =>
    ⟨termCounts_of_reading reading reading' hExact hTables operand context hWords.1 hCounts.1,
      allTermCounts_of_reading reading reading' hExact hTables rest context hWords.2 hCounts.2⟩

end

/-- Whether two tokens of two dialects denote the same value. -/
def SameValue (reading : left.Reading I) (reading' : right.Reading I) (token token' : Token) :
    Prop :=
  ∃ value, reading.Denotes token value ∧ reading'.Denotes token' value

/-- Codes that denote the same tensor value have entries of the same values under the
same keys. -/
theorem related_sameValue {reading : left.Reading I} {reading' : right.Reading I}
    {code code' : TensorCode} {value : TensorValue V} (hCode : reading.CodeDenotes code value)
    (hCode' : reading'.CodeDenotes code' value) :
    SortedMap.Related (Option.Rel (SameValue reading reading')) code code' := by
  refine (hCode.trans_symm hCode').mono fun entry entry' hEntries => ?_
  obtain ⟨entryValue, hEntry, hEntry'⟩ := hEntries
  -- Entries that denote the same are both tokens or both symbolic zero.
  cases hEntry with
  | none =>
      cases hEntry'
      exact .none
  | some hToken =>
      cases hEntry' with
      | some hToken' => exact .some ⟨_, hToken, hToken'⟩

/-- Lowering an expression in two dialects ends alike, with entries of the same
values under the same keys. -/
theorem lower_sameValue (reading : left.Reading I) (reading' : right.Reading I)
    (hExact : reading.Exact = reading'.Exact) (hTables : tables.NamedByWords) {expr : Expr}
    {context : LoweringContext} (hWords : expr.Every Expr.NamedByWord)
    (hCounts : TermCounts ⟨left, tables, dimensions⟩ reading.Exact expr context)
    (names names' : GeometryNames) :
    Agree (SortedMap.Related (Option.Rel (SameValue reading reading')))
      ((lower ⟨left, tables, dimensions⟩ expr context).outcome names)
      ((lower ⟨right, tables, dimensions⟩ expr context).outcome names') := by
  have hCounts' := termCounts_of_reading reading reading' hExact hTables expr context hWords hCounts
  refine ((lower_yields hTables expr context hWords hCounts names).trans_symm
    (lower_yields hTables expr context hWords hCounts' names')).mono fun code code' hCodes => ?_
  obtain ⟨value, hCode, hCode'⟩ := hCodes
  exact related_sameValue hCode hCode'

/-- The code of an integrand, as far as it depends on the dialect. -/
theorem integrand_eq (backend : Backend) (scaling : QuadratureScaling) (expr : Expr) :
    ((backend.integrand scaling expr).mapError (·.cause.fault)).map (·.entries) =
      ((backend.lower expr {}).outcome ∅).map fun code =>
        code.nonzero.mapValues (backend.dialect.weighted scaling) := by
  unfold integrand run outcome
  match (backend.lower expr {}).runWith ∅ with
  | (.ok code, _) => rfl
  | (.error error, _) => rfl

theorem weighted_sameValue (reading : left.Reading I) (reading' : right.Reading I)
    {scaling : QuadratureScaling} (hWeight : IsWord scaling.weight)
    (hScale : IsWord scaling.scaleFactor) {token token' : Token}
    (hTokens : SameValue reading reading' token token') :
    SameValue reading reading' (left.weighted scaling token) (right.weighted scaling token') := by
  obtain ⟨value, hToken, hToken'⟩ := hTokens
  refine ⟨[value, I.word scaling.weight, I.word scaling.scaleFactor].prod, ?_, ?_⟩
  · exact reading.multiply (by simp)
      (.cons hToken (.cons (reading.word hWeight) (.cons (reading.word hScale) .nil)))
  · exact reading'.multiply (by simp)
      (.cons hToken' (.cons (reading'.word hWeight) (.cons (reading'.word hScale) .nil)))

/-- Integrands in two dialects have entries of the same values under the same keys. -/
theorem integrand_sameValue (reading : left.Reading I) (reading' : right.Reading I)
    (hExact : reading.Exact = reading'.Exact) (hTables : tables.NamedByWords) {expr : Expr}
    (hWords : expr.Every Expr.NamedByWord)
    (hCounts : TermCounts ⟨left, tables, dimensions⟩ reading.Exact expr {})
    {scaling : QuadratureScaling} (hWeight : IsWord scaling.weight)
    (hScale : IsWord scaling.scaleFactor) :
    Agree (fun integrand integrand' =>
        SortedMap.Related (SameValue reading reading') integrand.entries integrand'.entries)
      ((integrand ⟨left, tables, dimensions⟩ scaling expr).mapError (·.cause.fault))
      ((integrand ⟨right, tables, dimensions⟩ scaling expr).mapError (·.cause.fault)) := by
  have hEntries : Agree (SortedMap.Related (SameValue reading reading'))
      (((integrand ⟨left, tables, dimensions⟩ scaling expr).mapError (·.cause.fault)).map (·.entries))
      (((integrand ⟨right, tables, dimensions⟩ scaling expr).mapError (·.cause.fault)).map
        (·.entries)) := by
    rw [integrand_eq, integrand_eq]
    refine (lower_sameValue reading reading' hExact hTables hWords hCounts ∅ ∅).map
      fun code code' hCodes => ?_
    exact hCodes.filterMapValues_id.mapValues fun _ _ hTokens =>
      weighted_sameValue reading reading' hWeight hScale hTokens
  exact hEntries.of_map

end Backend

end FormLowering
