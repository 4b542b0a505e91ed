import FormLowering.Proofs.Calculus.DirectionTuples
import FormLowering.Proofs.Reading.DecimalInterpretation
import FormLowering.Proofs.Semantics.BasisFunctions

/-!
# Basis functions and their physical derivatives

Let the reference basis be polynomials, the cell map be affine with `X = K x + b`,
and `K` be what the entries of the inverse Jacobian denote.  If the tables hold
the reference derivatives at the image of a point, the code of an argument or a
coefficient under spatial derivatives has the value of the physical derivative at
that point, for derivatives of every order.

This is so for affine mappings and for the covariant Piola mapping.  Tables that
are structurally zero have to hold zero, and nothing else is asked of them.
-/

namespace FormLowering

open MvPolynomial

variable {F : Type} [Field F] {m n : Nat}

/-- Whether the tables of some components hold the derivatives of an order of
polynomials at a point. -/
def Interpretation.Tabulates (I : Interpretation F) (table : TableRequest → Entry)
    (side : Restriction) (components : List Nat) (order : Nat)
    (Φ : Nat → MvPolynomial (Fin n) F) (point : Fin n → F) : Prop :=
  ∀ component ∈ components, ∀ counts : List Nat, counts.length = n → counts.sum = order →
    I.tableMeaning (table ⟨component, counts, side⟩) =
      eval point (partialDerivative counts (Φ component))

/-- The reference components that a physical component is made of. -/
def ComponentPlace.referenceComponents (place : ComponentPlace) (component dimension : Nat) :
    List Nat :=
  match place.mapping with
  | .affine => [component]
  | .covariantPiola => (List.range dimension).map (· + place.offset)
  | _ => []

/-- A physical component of a basis function as a polynomial in physical coordinates. -/
noncomputable def physicalBasis (K : Nat → Nat → F) (b : Fin n → F)
    (Φ : Nat → MvPolynomial (Fin n) F) (component : Nat) (place : ComponentPlace) :
    MvPolynomial (Fin m) F :=
  match place.mapping with
  | .affine => pulledBack K b (Φ component)
  | .covariantPiola =>
    ∑ r : Fin m, C (K r place.component) * pulledBack K b (Φ (r + place.offset))
  | _ => 0

/-- The expression under spatial derivatives, the first direction outermost. -/
def Expr.underDerivatives (expr : Expr) (directions : List Nat) : Expr :=
  directions.foldr (fun direction operand => .derivative operand direction) expr

/-- Derivative nodes only change the context. -/
theorem Backend.outcome_underDerivatives (backend : Backend) (expr : Expr) (directions : List Nat)
    (context : LoweringContext) (names : GeometryNames) :
    (backend.lower (expr.underDerivatives directions) context).outcome names =
      (backend.lower expr
        { context with derivatives := context.derivatives ++ directions }).outcome names := by
  induction directions generalizing context with
  | nil => simp [Expr.underDerivatives]
  | cons direction rest ih =>
      have hNode : expr.underDerivatives (direction :: rest) =
          .derivative (expr.underDerivatives rest) direction := rfl
      rw [hNode, lower, LowerM.outcome_within, ih]
      simp [LoweringContext.differentiate]

/-! ### Requests for tables -/

theorem canonicalCounts_idem (counts : List Nat) :
    canonicalCounts (canonicalCounts counts) = canonicalCounts counts := by
  unfold canonicalCounts
  by_cases hZero : counts.all (· = 0) = true <;> simp [hZero]

theorem derivativeSuffix_canonicalCounts (counts : List Nat) :
    derivativeSuffix (canonicalCounts counts) = derivativeSuffix counts := by
  unfold derivativeSuffix canonicalCounts
  by_cases hZero : counts.all (· = 0) = true <;> simp [hZero]

/-- Counts that are all zero ask for the same table as no counts. -/
theorem BasisFunction.table_canonicalCounts (catalog : ElementCatalog) (function : BasisFunction)
    (component : Nat) (counts : List Nat) (side : Restriction) :
    function.table catalog ⟨component, canonicalCounts counts, side⟩ =
      function.table catalog ⟨component, counts, side⟩ := by
  have hToken : function.token ⟨component, canonicalCounts counts, side⟩ =
      function.token ⟨component, counts, side⟩ := by
    cases function <;>
      simp only [token, ElementCatalog.argumentToken, ElementCatalog.coefficientToken, tableLabel,
        derivativeSuffix_canonicalCounts]
  have hZero : catalog.isZero function.element component (canonicalCounts counts) =
      catalog.isZero function.element component counts := by
    rw [ElementCatalog.isZero, canonicalCounts_idem, ElementCatalog.isZero]
  rw [table_eq, table_eq, hToken]
  simp only [hZero]

/-- The value of a table that the chain rule asks for. -/
theorem tableMeaning_of_tabulates {I : Interpretation F} {catalog : ElementCatalog}
    {function : BasisFunction} {dimensions : CellDimensions} {context : LoweringContext}
    {Φ : Nat → MvPolynomial (Fin dimensions.topological) F} {point : Fin dimensions.topological → F}
    {components : List Nat}
    (hTables : I.Tabulates (function.table catalog) context.restriction components
      context.derivatives.length Φ point)
    {tuple : List Nat}
    (hTuple : tuple ∈ directionTuples dimensions.topological context.derivatives.length)
    {contributor : Contributor} (hContributor : contributor.component ∈ components) :
    I.tableMeaning (function.table catalog (dimensions.tableRequest context tuple contributor)) =
      eval point (partialDerivative (tupleCounts dimensions.topological tuple)
        (Φ contributor.component)) := by
  unfold CellDimensions.tableRequest
  rw [directionCounts_eq, BasisFunction.table_canonicalCounts]
  exact hTables _ hContributor _ (tupleCounts_length _ _) (sum_tupleCounts hTuple)

/-! ### Physical derivatives -/

/-- A contributor adds its factor times a physical derivative. -/
theorem sum_basisTerm {I : Interpretation F} {catalog : ElementCatalog} {function : BasisFunction}
    {dimensions : CellDimensions} {context : LoweringContext} (place : ComponentPlace)
    (directions : List (Fin dimensions.geometric))
    (hDirections : context.derivatives = directions.map Fin.val)
    {Φ : Nat → MvPolynomial (Fin dimensions.topological) F} (b : Fin dimensions.topological → F)
    (x : Fin dimensions.geometric → F) {components : List Nat}
    (hTables : I.Tabulates (function.table catalog) context.restriction components
      directions.length Φ (referencePoint (I.jacobianEntry .inverse context.restriction) b x))
    {contributor : Contributor} (hContributor : contributor.component ∈ components) :
    ((directionTuples dimensions.topological context.derivatives.length).map fun tuple =>
        I.basisTerm place context tuple contributor
          (I.tableMeaning
            (function.table catalog (dimensions.tableRequest context tuple contributor)))).sum =
      I.pullbackFactor contributor.pullback place.component context.restriction *
        eval x (iteratedDerivative directions
          (pulledBack (I.jacobianEntry .inverse context.restriction) b (Φ contributor.component))) := by
  have hLength : context.derivatives.length = directions.length := by
    rw [hDirections, List.length_map]
  rw [← hLength] at hTables
  rw [eval_iteratedDerivative, ← List.sum_map_mul_left, ← hLength]
  refine congrArg List.sum (List.map_congr_left fun tuple hTuple => ?_)
  rw [tableMeaning_of_tabulates hTables hTuple hContributor]
  rw [← hDirections]
  exact mul_left_comm _ _ _

/-- The sums of the chain rule and the pullback are a physical derivative. -/
theorem basisMeaning_eq_derivative {I : Interpretation F} {catalog : ElementCatalog}
    {function : BasisFunction} {dimensions : CellDimensions} {context : LoweringContext}
    {component : Nat} {place : ComponentPlace}
    (hSelected : catalog.tables.selected function.element context = .ok (component, place))
    {contributors : List Contributor}
    (hContributors : dimensions.contributors component place = .ok contributors)
    (directions : List (Fin dimensions.geometric))
    (hDirections : context.derivatives = directions.map Fin.val)
    {Φ : Nat → MvPolynomial (Fin dimensions.topological) F} (b : Fin dimensions.topological → F)
    (x : Fin dimensions.geometric → F)
    (hTables : I.Tabulates (function.table catalog) context.restriction
      (place.referenceComponents component dimensions.geometric) directions.length Φ
      (referencePoint (I.jacobianEntry .inverse context.restriction) b x))
    (hMapping : place.mapping = .affine ∨ place.mapping = .covariantPiola) :
    I.basisMeaning catalog.tables dimensions function.element
        (fun request => I.tableMeaning (function.table catalog request)) context =
      eval x (iteratedDerivative directions
        (physicalBasis (I.jacobianEntry .inverse context.restriction) b Φ component place)) := by
  have hComponents : contributors.map (·.component) =
      place.referenceComponents component dimensions.geometric := by
    unfold CellDimensions.contributors at hContributors
    unfold ComponentPlace.referenceComponents
    rcases hMapping with hAffine | hCovariant
    · rw [hAffine] at hContributors ⊢
      cases hContributors
      rfl
    · rw [hCovariant] at hContributors ⊢
      cases hContributors
      exact List.map_map
  simp only [Interpretation.basisMeaning, hSelected, hContributors]
  -- The code sums tuples outside and contributors inside, the derivative the other way.
  rw [sum_map_comm]
  have hTerms := List.map_congr_left fun contributor hMem =>
    sum_basisTerm place directions hDirections b x hTables
      (hComponents ▸ List.mem_map_of_mem (f := Contributor.component) hMem)
  rw [hTerms]
  unfold CellDimensions.contributors at hContributors
  unfold physicalBasis
  rcases hMapping with hAffine | hCovariant
  · rw [hAffine] at hContributors ⊢
    cases hContributors
    simp [Interpretation.pullbackFactor]
  · rw [hCovariant] at hContributors ⊢
    cases hContributors
    rw [← List.map_coe_finRange_eq_range, List.map_map, List.map_map, ← Fin.sum_univ_def]
    simp only [iteratedDerivative_sum, iteratedDerivative_C_mul, map_sum, map_mul, eval_C]
    rfl

/-- In every language the code of a basis function under spatial derivatives, those
of the context and those of the nodes above it, denotes the physical derivative. -/
theorem basis_code_is_physical_derivative (language : Language) (I : Interpretation F)
    (hNatural : I.NaturalLiterals) (catalog : ElementCatalog) (dimensions : CellDimensions)
    (hDimensions : dimensions.Positive) (function : BasisFunction) (context : LoweringContext)
    (component : Nat) (place : ComponentPlace)
    (hSelected : catalog.tables.selected function.element context = .ok (component, place))
    (hMapping : place.mapping = .affine ∨ place.mapping = .covariantPiola)
    (nodes : List Nat) (directions : List (Fin dimensions.geometric))
    (hDirections : context.derivatives ++ nodes = directions.map Fin.val)
    (Φ : Nat → MvPolynomial (Fin dimensions.topological) F) (b : Fin dimensions.topological → F)
    (x : Fin dimensions.geometric → F)
    (hTables : I.Tabulates (function.table catalog) context.restriction
      (place.referenceComponents component dimensions.geometric) directions.length Φ
      (referencePoint (I.jacobianEntry .inverse context.restriction) b x))
    (names : GeometryNames) :
    ∃ entry, ((language.backend catalog dimensions).lower (function.expr.underDerivatives nodes)
        context).outcome names = .ok (.singleton function.key entry) ∧
      entry.Denotes language I (eval x (iteratedDerivative directions
        (physicalBasis (I.jacobianEntry .inverse context.restriction) b Φ component place))) := by
  have hSome : ∃ contributors, dimensions.contributors component place = .ok contributors := by
    rcases hMapping with hAffine | hCovariant
    · exact ⟨_, by rw [CellDimensions.contributors, hAffine]; rfl⟩
    · exact ⟨_, by rw [CellDimensions.contributors, hCovariant]; rfl⟩
  obtain ⟨contributors, hContributors⟩ := hSome
  -- The context in which the basis function itself is lowered.
  obtain ⟨inner, hInner⟩ : ∃ inner : LoweringContext,
      inner = { context with derivatives := context.derivatives ++ nodes } := ⟨_, rfl⟩
  have hSelectedInner : catalog.tables.selected function.element inner = .ok (component, place) := by
    rw [hInner]
    exact hSelected
  have hSide : inner.restriction = context.restriction := by rw [hInner]
  rw [Backend.outcome_underDerivatives, ← hInner, ← hSide]
  rw [← hSide] at hTables
  rw [← basisMeaning_eq_derivative hSelectedInner hContributors directions (by rw [hInner, hDirections])
    b x hTables hMapping]
  exact language.lower_basisFunction hNatural hDimensions function hSelectedInner hContributors names

/-- An interpretation in which all tables and entries of inverse Jacobians are one. -/
def Interpretation.unitNames : Interpretation ℚ :=
  (decimal.withLetter 'F' fun _ => 1).withLetter 'K' fun _ => 1

/-- The first derivative of a component of a Nédélec function whose reference
components are all `X₀ + X₁`. -/
theorem basis_code_is_physical_derivative_nedelec :
    ∃ entry, ((Language.cpp.backend ⟨#[.nedelec 1 2], []⟩ {}).lower
        ((Expr.coefficient ⟨0, 0⟩).underDerivatives [0]) { component := [1] }).outcome ∅ =
          .ok (.singleton [] entry) ∧
      entry.Denotes .cpp .unitNames (eval (0 : Fin 2 → ℚ) (iteratedDerivative [0]
        (physicalBasis (Interpretation.unitNames.jacobianEntry .inverse .none) 0
          (fun _ => (X 0 + X 1 : MvPolynomial (Fin 2) ℚ)) 1 ⟨.covariantPiola, 0, 1⟩))) := by
  have hNatural : Interpretation.unitNames.NaturalLiterals :=
    Interpretation.withLetter_naturalLiterals
      (Interpretation.withLetter_naturalLiterals Interpretation.decimal_naturalLiterals
        (by decide) _) (by decide) _
  have hTables : Interpretation.unitNames.Tabulates
      ((BasisFunction.coefficient ⟨0, 0⟩).table ⟨#[.nedelec 1 2], []⟩) .none [0, 1] 1
      (fun _ => (X 0 + X 1 : MvPolynomial (Fin 2) ℚ))
      (referencePoint (Interpretation.unitNames.jacobianEntry .inverse .none) 0 (0 : Fin 2 → ℚ)) := by
    intro component _ counts hLength hSum
    have hTable : Interpretation.unitNames.tableMeaning
        ((BasisFunction.coefficient ⟨0, 0⟩).table ⟨#[.nedelec 1 2], []⟩
          ⟨component, counts, .none⟩) = 1 := by
      have hHead := (BasisFunction.coefficient ⟨0, 0⟩).head?_token ⟨component, counts, .none⟩
      show Interpretation.unitNames.word
        ((BasisFunction.coefficient ⟨0, 0⟩).token ⟨component, counts, .none⟩) = 1
      unfold Interpretation.unitNames
      rw [Interpretation.withLetter_word_of_ne _ _ (by rw [hHead]; decide),
        Interpretation.withLetter_word _ _ hHead]
    rw [hTable]
    obtain ⟨first, second, rfl⟩ := List.length_eq_two.mp hLength
    -- Either of the two first derivatives is one.
    obtain ⟨rfl, rfl⟩ | ⟨rfl, rfl⟩ : (first = 0 ∧ second = 1) ∨ (first = 1 ∧ second = 0) := by
      simp at hSum
      omega
    · simp [partialDerivative, List.finRange_succ]
    · simp [partialDerivative, List.finRange_succ]
  exact basis_code_is_physical_derivative .cpp .unitNames hNatural ⟨#[.nedelec 1 2], []⟩ {}
    ⟨by decide, by decide⟩ (.coefficient ⟨0, 0⟩) { component := [1] } 1 ⟨.covariantPiola, 0, 1⟩ rfl
    (.inr rfl) [0] [0] rfl _ 0 0 hTables ∅

end FormLowering
