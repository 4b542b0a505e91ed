import FormLowering.Proofs.Semantics.CodeMeaning

/-!
# The code of a basis function

Arguments and coefficients are lowered alike.  The code has a single key, the
number of the argument or nothing for a coefficient, and its entry has the value
of the physical component, whatever has been recorded before.  Lowering fails
only if the component cannot be located or its mapping has no code.
-/

namespace FormLowering

open LowerM

/-- An argument or a coefficient. -/
inductive BasisFunction where
  | argument (basis : Argument)
  | coefficient (field : Coefficient)
deriving DecidableEq

namespace BasisFunction

/-- The basis function as an expression. -/
def expr : BasisFunction → Expr
  | .argument basis => .argument basis
  | .coefficient field => .coefficient field

/-- The number of its element. -/
def element : BasisFunction → Nat
  | .argument basis => basis.element
  | .coefficient field => field.element

/-- The only key of its code. -/
def key : BasisFunction → Key
  | .argument basis => [basis.number]
  | .coefficient _ => []

/-- Its table of reference values, or symbolic zero. -/
def table (catalog : ElementCatalog) : BasisFunction → TableRequest → Entry
  | .argument basis, request => (catalog.tables.argument basis request).code
  | .coefficient field, request => catalog.tables.coefficient field request

/-- The word that names a table, if the table is not structurally zero. -/
def token : BasisFunction → TableRequest → Token
  | .argument basis, request => ElementCatalog.argumentToken basis request
  | .coefficient field, request => ElementCatalog.coefficientToken field request

theorem table_eq (catalog : ElementCatalog) (function : BasisFunction) (request : TableRequest) :
    function.table catalog request =
      if catalog.isZero function.element request.component request.derivatives then none
      else some (function.token request) := by
  cases function <;> rfl

/-- Names of tables begin alike, and unlike names of geometric quantities and literals. -/
theorem head?_token (function : BasisFunction) (request : TableRequest) :
    (function.token request).toList.head? = some 'F' := by
  cases function <;>
    simp [token, ElementCatalog.argumentToken, ElementCatalog.coefficientToken, tableLabel,
      String.toList_append]

end BasisFunction

namespace Interpretation

/-- The values of the entries of the Jacobian or its inverse. -/
def jacobianEntry {V : Type} (I : Interpretation V) (kind : JacobianKind) (side : Restriction)
    (row column : Nat) : V :=
  I.word (kind.entryName row column side)

variable {V : Type} [CommSemiring V] [Div V] (I : Interpretation V) {catalog : ElementCatalog}
  {dimensions : CellDimensions} {context : LoweringContext} {component : Nat}
  {place : ComponentPlace} {contributors : List Contributor}

/-- All terms of a basis function, one table after the other. -/
def basisFunctionTerms (catalog : ElementCatalog) (dimensions : CellDimensions)
    (function : BasisFunction) (context : LoweringContext) (place : ComponentPlace)
    (contributors : List Contributor) : List V :=
  (Backend.tableOrder (directionTuples dimensions.topological context.derivatives.length)
    contributors).flatMap fun pair =>
      I.basisTerms place context pair.1 pair.2
        (function.table catalog (dimensions.tableRequest context pair.1 pair.2))

/-- The value of a basis function is a single sum of terms. -/
theorem evaluate_basisFunction (hDimensions : dimensions.Positive) (function : BasisFunction)
    (hSelected : catalog.tables.selected function.element context = .ok (component, place))
    (hContributors : dimensions.contributors component place = .ok contributors) :
    I.evaluate catalog.tables dimensions function.expr context =
      .ok (.singleton function.key
        (TensorValue.total
          (I.basisFunctionTerms catalog dimensions function context place contributors))) := by
  have hOrder := tableOrder_ne_nil hDimensions hContributors context.derivatives.length
  unfold basisFunctionTerms
  rw [List.flatMap_def]
  cases function with
  | argument basis =>
      -- All tables contribute to one key, so gathering makes one entry.
      have hKeys : ∀ entry ∈ (Backend.tableOrder
          (directionTuples dimensions.topological context.derivatives.length) contributors).map
            (I.argumentContribution catalog.tables dimensions basis place context),
          entry.1 = [basis.number] := by
        intro entry hMem
        obtain ⟨pair, -, rfl⟩ := List.mem_map.mp hMem
        rfl
      have hGather := SortedMap.gather_of_key (by simpa using hOrder) hKeys
      unfold BasisFunction.element at hSelected
      simp only [BasisFunction.expr, evaluate, argumentValue, hSelected, hContributors, bind,
        Except.bind]
      rw [hGather, List.map_map]
      rfl
  | coefficient field =>
      unfold BasisFunction.element at hSelected
      simp only [BasisFunction.expr, evaluate, coefficientValue, hSelected, hContributors, bind,
        Except.bind]
      rfl

theorem sum_basisFunctionTerms {F : Type} [Field F] (I : Interpretation F)
    (function : BasisFunction)
    (hSelected : catalog.tables.selected function.element context = .ok (component, place))
    (hContributors : dimensions.contributors component place = .ok contributors) :
    (I.basisFunctionTerms catalog dimensions function context place contributors).sum =
      I.basisMeaning catalog.tables dimensions function.element
        (fun request => I.tableMeaning (function.table catalog request)) context := by
  simp only [basisMeaning, hSelected, hContributors]
  rw [basisFunctionTerms, List.flatMap_def, List.sum_flatten, List.map_map, sum_tableOrder]
  simp only [Function.comp_apply, sum_basisTerms]

end Interpretation

/-- A map with the keys of a map with one key. -/
theorem SortedMap.Related.of_singleton {α β : Type} {R : α → β → Prop} {map : SortedMap Key α}
    {key : Key} {b : β} (hMap : Related R map (.singleton key b)) :
    ∃ a, map = .singleton key a ∧ R a b := by
  obtain ⟨entries, hIncreasing⟩ := map
  cases hMap with
  | cons hEntry hRest =>
      cases hRest
      obtain ⟨hKey, hValue⟩ := hEntry
      exact ⟨_, SortedMap.ext (congrArg (fun key => [(key, _)]) hKey), hValue⟩

/-- The code of a basis function has its value under its key. -/
theorem Backend.lower_basisFunction {F : Type} [Field F] {I : Interpretation F} {dialect : Dialect}
    (reading : dialect.Reading I) {catalog : ElementCatalog} {dimensions : CellDimensions}
    (hDimensions : dimensions.Positive) (function : BasisFunction) {context : LoweringContext}
    {component : Nat} {place : ComponentPlace} {contributors : List Contributor}
    (hSelected : catalog.tables.selected function.element context = .ok (component, place))
    (hContributors : dimensions.contributors component place = .ok contributors)
    (names : GeometryNames) :
    ∃ entry, (lower ⟨dialect, catalog.tables, dimensions⟩ function.expr context).outcome names =
        .ok (.singleton function.key entry) ∧
      reading.HasValue entry
        (I.basisMeaning catalog.tables dimensions function.element
          (fun request => I.tableMeaning (function.table catalog request)) context) := by
  have hWords : function.expr.Every Expr.NamedByWord := by cases function <;> trivial
  have hCounts : TermCounts ⟨dialect, catalog.tables, dimensions⟩ reading.Exact function.expr
      context := by cases function <;> trivial
  have hYields : Yields reading.CodeDenotes
      (lower ⟨dialect, catalog.tables, dimensions⟩ function.expr context)
      (I.evaluate catalog.tables dimensions function.expr context) :=
    lower_yields catalog.namedByWords function.expr context hWords hCounts
  rw [I.evaluate_basisFunction hDimensions function hSelected hContributors] at hYields
  obtain ⟨code, hOutcome, hCode⟩ := (hYields names).ok_of_ok
  obtain ⟨entry, rfl, hEntry⟩ := hCode.of_singleton
  refine ⟨entry, hOutcome, ?_⟩
  have hValue := Dialect.Reading.hasValue_of_rel hEntry
  rwa [TensorValue.getD_total, I.sum_basisFunctionTerms function hSelected hContributors] at hValue

/-- In every language the code of a basis function denotes its value. -/
theorem Language.lower_basisFunction {F : Type} [Field F] (language : Language)
    {I : Interpretation F} (hNatural : I.NaturalLiterals) {catalog : ElementCatalog}
    {dimensions : CellDimensions} (hDimensions : dimensions.Positive) (function : BasisFunction)
    {context : LoweringContext} {component : Nat} {place : ComponentPlace}
    {contributors : List Contributor}
    (hSelected : catalog.tables.selected function.element context = .ok (component, place))
    (hContributors : dimensions.contributors component place = .ok contributors)
    (names : GeometryNames) :
    ∃ entry, ((language.backend catalog dimensions).lower function.expr context).outcome names =
        .ok (.singleton function.key entry) ∧
      entry.Denotes language I
        (I.basisMeaning catalog.tables dimensions function.element
          (fun request => I.tableMeaning (function.table catalog request)) context) := by
  obtain ⟨entry, hOutcome, hEntry⟩ := Backend.lower_basisFunction (language.reading hNatural)
    hDimensions function hSelected hContributors names
  -- No power is used, so the interpretation may be the one that the language reads by.
  have hUniform : (language.uniform I).basisMeaning catalog.tables dimensions function.element
      (fun request => (language.uniform I).tableMeaning (function.table catalog request)) context =
        I.basisMeaning catalog.tables dimensions function.element
          (fun request => I.tableMeaning (function.table catalog request)) context := by
    cases language <;> rfl
  rw [hUniform] at hEntry
  exact ⟨entry, hOutcome, entry_denotes hEntry⟩

end FormLowering
