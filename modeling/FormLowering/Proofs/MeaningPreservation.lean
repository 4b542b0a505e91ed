import FormLowering.Proofs.Reading.DecimalInterpretation
import FormLowering.Proofs.Semantics.CodeMeaning
import FormLowering.Proofs.Semantics.DialectIndependence

/-!
# Lowering preserves meaning

Read as nested calls, the code of an expression is a function from keys to
values, with the value zero under absent keys and symbolic zeros.  This function
is the meaning of the expression.  Leaving out zeros and ones, counting equal
terms, setting scalar factors aside and merging keys change nothing about it.

Three things are asked of the interpretation.  Natural numbers denote
themselves, the absolute value of zero is zero, and literal powers of zero are
zero or one.

Nested calls spell out how operations are nested, while C++ expressions leave
out the parentheses around factors and numerators.  Nothing is lost: under every
key the C++ expression, read with the precedences of C++, has the value of the
nested calls, in every field and for every value of names and functions.  The
two dialects need not collapse the same terms, since products that are written
alike in C++ may be nested differently.  That changes the text, but not the
value.
-/

namespace FormLowering

/-! ### Nested calls -/

/-- Under every key, the code of an expression has the value that the expression
means. -/
theorem calls_preserve_meaning {F : Type} [Field F] (I : Interpretation F)
    (hNatural : I.NaturalLiterals) (hAbsolute : I.absolute 0 = 0) (catalog : ElementCatalog)
    (dimensions : CellDimensions) (hDimensions : dimensions.Positive) (expr : Expr)
    (hExpr : expr.Every I.Admits) (context : LoweringContext)
    (hCounts : (callsBackend catalog dimensions).TermCounts (· < 2 ^ 53) expr context)
    (names recorded : GeometryNames) (code : TensorCode)
    (hRun : ((callsBackend catalog dimensions).lower expr context).runWith names =
      (.ok code, recorded)) (key : Key) :
    Entry.Denotes .calls I ((code.get? key).getD none)
      (I.meaning catalog.tables dimensions expr context key) := by
  unfold callsBackend at hCounts hRun
  have hEntry : (Language.calls.reading hNatural).HasValue ((code.get? key).getD none)
      (I.meaning catalog.tables dimensions expr context key) :=
    Backend.lower_means (Dialect.callsReading hNatural) hAbsolute hDimensions hExpr hCounts hRun key
  exact Language.entry_denotes hEntry

/-- A sum with a power in it. -/
theorem calls_preserve_meaning_power :
    ∃ code, ((callsBackend {} {}).lower
        (.sum [.symbol "a", .power (.symbol "b") (.integer 2)]) {}).runWith ∅ = (.ok code, ∅) ∧
      ∀ key, Entry.Denotes .calls Interpretation.decimal ((code.get? key).getD none)
        (Interpretation.decimal.meaning (ElementCatalog.tables {}) {}
          (.sum [.symbol "a", .power (.symbol "b") (.integer 2)]) {} key) := by
  have hExpr : Expr.Every Interpretation.decimal.Admits
      (.sum [.symbol "a", .power (.symbol "b") (.integer 2)]) := by
    have hA : IsWord "a" := by decide
    have hB : IsWord "b" := by decide
    have hPowers : Interpretation.decimal.PowersOfZero (.integer 2) :=
      ⟨fun _ => rfl, fun hZero => absurd hZero (by decide)⟩
    exact ⟨List.cons_ne_nil _ _, hA, ⟨hPowers, hB, trivial⟩, trivial⟩
  have hCounts : (callsBackend {} {}).TermCounts (· < 2 ^ 53)
      (.sum [.symbol "a", .power (.symbol "b") (.integer 2)]) {} := by
    refine ⟨⟨trivial, ⟨trivial, trivial⟩, trivial⟩, ?_⟩
    rintro codes ⟨names, recorded, hRun⟩
    cases hRun
    unfold TermsMeet
    decide
  refine ⟨.scalar (some "group(add(a, power(b, 2)))"), rfl, fun key => ?_⟩
  exact calls_preserve_meaning .decimal Interpretation.decimal_naturalLiterals rfl {} {}
    ⟨by decide, by decide⟩ _ hExpr {} hCounts ∅ ∅ _ rfl key

/-! ### C++ expressions -/

/-- Whether a C++ expression and a nested call have the same value. -/
def SameMeaning {F : Type} [Field F] (I : Interpretation F) (expression call : Token) : Prop :=
  ∃ value : F, Language.cpp.Denotes I expression value ∧ Language.calls.Denotes I call value

/-- Lowering to C++ succeeds where lowering to nested calls does, and every token
means what the nested call under its key means.  Integrands do as well. -/
theorem cpp_means_calls {F : Type} [Field F] (I : Interpretation F)
    (hNatural : I.NaturalLiterals) (hPower : I.generalPower = I.power) (catalog : ElementCatalog)
    (dimensions : CellDimensions) (expr : Expr) (hWords : expr.Every Expr.NamedByWord) :
    (∀ (context : LoweringContext) (names names' : GeometryNames),
      (cppBackend catalog dimensions).TermCounts (· < 2 ^ 53) expr context →
        Agree (SortedMap.Related (Option.Rel (SameMeaning I)))
          (((cppBackend catalog dimensions).lower expr context).outcome names)
          (((callsBackend catalog dimensions).lower expr context).outcome names')) ∧
    (∀ scaling : QuadratureScaling,
      (cppBackend catalog dimensions).TermCounts (· < 2 ^ 53) expr {} →
        IsWord scaling.weight → IsWord scaling.scaleFactor →
          Agree (fun integrand integrand' =>
              SortedMap.Related (SameMeaning I) integrand.entries integrand'.entries)
            (((cppBackend catalog dimensions).integrand scaling expr).mapError (·.cause.fault))
            (((callsBackend catalog dimensions).integrand scaling expr).mapError
              (·.cause.fault))) := by
  have hTables := catalog.namedByWords
  have hSame : ∀ expression call,
      Backend.SameValue (Dialect.cppReading hNatural hPower) (Dialect.callsReading hNatural)
        expression call → SameMeaning I expression call := by
    rintro expression call ⟨value, hExpression, hCall⟩
    exact ⟨value, hExpression.denotes, hCall.denotes⟩
  constructor
  · intro context names names' hCounts
    have hLower := Backend.lower_sameValue (Dialect.cppReading hNatural hPower)
      (Dialect.callsReading hNatural) rfl hTables hWords hCounts names names'
    refine hLower.mono fun code code' hCodes => hCodes.mono fun entry entry' hEntries => ?_
    -- Terms are expressions, which is all that is claimed of them.
    cases hEntries with
    | none => exact .none
    | some hTokens => exact .some (hSame _ _ hTokens)
  · intro scaling hCounts hWeight hScale
    have hIntegrand := Backend.integrand_sameValue (Dialect.cppReading hNatural hPower)
      (Dialect.callsReading hNatural) rfl hTables hWords hCounts hWeight hScale
    exact hIntegrand.mono fun _ _ hEntries => hEntries.mono hSame

/-- A sum as a factor of a product, where C++ needs the parentheses. -/
theorem cpp_means_calls_grouped_sum :
    Agree (SortedMap.Related (Option.Rel (SameMeaning Interpretation.decimal)))
      (((cppBackend {} {}).lower (.product [.sum [.symbol "a", .symbol "b"], .symbol "c"]) {}).outcome
        ∅)
      (((callsBackend {} {}).lower
        (.product [.sum [.symbol "a", .symbol "b"], .symbol "c"]) {}).outcome ∅) := by
  have hWords : Expr.Every Expr.NamedByWord
      (.product [.sum [.symbol "a", .symbol "b"], .symbol "c"]) := by
    have hA : IsWord "a" := by decide
    have hB : IsWord "b" := by decide
    have hC : IsWord "c" := by decide
    exact ⟨trivial, ⟨trivial, hA, hB, trivial⟩, hC, trivial⟩
  have hCounts : (cppBackend {} {}).TermCounts (· < 2 ^ 53)
      (.product [.sum [.symbol "a", .symbol "b"], .symbol "c"]) {} := by
    refine ⟨⟨⟨⟨trivial, trivial, trivial⟩, ?_⟩, trivial, trivial⟩, ?_⟩
    · rintro codes ⟨names, recorded, hRun⟩
      cases hRun
      unfold TermsMeet
      decide
    · rintro codes contributions ⟨names, recorded, hRun⟩ hContributions
      cases hRun
      cases hContributions
      unfold TermsMeet
      decide
  exact (cpp_means_calls .decimal Interpretation.decimal_naturalLiterals rfl {} {} _ hWords).1 {} ∅ ∅
    hCounts

end FormLowering
