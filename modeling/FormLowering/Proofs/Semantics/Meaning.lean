import FormLowering.Proofs.Semantics.Conditions
import FormLowering.Proofs.Semantics.ProductValue

/-!
# The meaning of expressions

An expression means a function from keys to values, defined by recursion without
any of the case distinctions that lowering makes: sums are pointwise, products
run over all choices of keys, quotients and functions act on scalars, and basis
functions are the sums of the chain rule and the pullback.  Symbolic zeros play no
part in it.

Evaluation keeps symbolic zeros apart, but what it computes is the meaning
(`evaluate_meaning`).
-/

namespace FormLowering

variable {F : Type} [Field F]

/-- The function of the key that is a scalar. -/
def scalarAt (value : F) (key : Key) : F :=
  if key = [] then value else 0

/-- Whether a cell has at least one dimension of either kind. -/
def CellDimensions.Positive (dimensions : CellDimensions) : Prop :=
  1 ≤ dimensions.geometric ∧ 1 ≤ dimensions.topological

namespace Interpretation

variable (I : Interpretation F)

/-- The value of a literal.  Zero of either sign is zero. -/
def literalMeaning (value : Binary64) : F :=
  if value.isZero then 0 else I.word value.shortestText

/-- The value of a table, which is zero if the table is structurally zero. -/
def tableMeaning (table : Entry) : F :=
  (table.map I.word).getD 0

/-- A power with the given form of exponent. -/
def powerMeaning (base : F) (exponent : ExponentForm) (exponentValue : F) : F :=
  match exponent with
  | .integer value => I.power base (I.word (toString value))
  | .real value => I.generalPower base (I.word value.shortestText)
  | _ => I.generalPower base exponentValue

/-- What the value of one reference table contributes to a physical component. -/
def basisTerm (place : ComponentPlace) (context : LoweringContext) (tuple : List Nat)
    (contributor : Contributor) (table : F) : F :=
  I.chainFactor context.derivatives tuple context.restriction
    * (I.pullbackFactor contributor.pullback place.component context.restriction * table)

variable (tables : BasisTables) (dimensions : CellDimensions)

/-- A physical component of a basis function under derivatives: the sum over the
tuples of reference directions and over the reference components that contribute,
given the values of the reference tables. -/
def basisMeaning (element : Nat) (table : TableRequest → F) (context : LoweringContext) : F :=
  match tables.selected element context with
  | .error _ => 0
  | .ok (component, place) =>
    match dimensions.contributors component place with
    | .error _ => 0
    | .ok contributors =>
      ((directionTuples dimensions.topological context.derivatives.length).map fun tuple =>
        (contributors.map fun contributor =>
          I.basisTerm place context tuple contributor
            (table (dimensions.tableRequest context tuple contributor))).sum).sum

/-- The meaning of a leaf that is constant over the cell. -/
def constantMeaning (context : LoweringContext) (value : F) : Key → F :=
  if context.derivatives.isEmpty then scalarAt value else fun _ => 0

/-- The meaning of a component of the facet normal. -/
def normalMeaning (context : LoweringContext) : F :=
  match context.component with
  | [component] => I.word (normalName context.restriction component)
  | _ => 0

/-- The meaning of a quotient. -/
def divisionMeaning : List (Key → F) → Key → F
  | [numerator, denominator], key => numerator key / denominator []
  | _, _ => 0

/-- The meaning of a function of a scalar. -/
def functionMeaning (function : F → F) : List (Key → F) → Key → F
  | [operand], key => scalarAt (function (operand [])) key
  | _, _ => 0

mutual

/-- The meaning of an expression in a context. -/
noncomputable def meaning : Expr → LoweringContext → Key → F
  | .sum operands, context => fun key =>
    ((meaningAll operands context).map fun operand => operand key).sum
  | .product operands, context => TensorValue.productAt (meaningAll operands context)
  | .division operands, context => divisionMeaning (meaningAll operands context)
  | .power base exponent, context =>
    scalarAt (I.powerMeaning (meaning base context []) exponent.exponentForm
      (meaning exponent context []))
  | .abs operands, context => functionMeaning I.absolute (meaningAll operands context)
  | .elementary function operands, context =>
    functionMeaning (I.elementary function) (meaningAll operands context)
  | .indexed operand component, context => meaning operand (context.select component)
  | .restricted operand restriction, context => meaning operand (context.restrict restriction)
  | .derivative operand direction, context => meaning operand (context.differentiate direction)
  | .argument basis, context => fun key =>
    if key = [basis.number] then
      I.basisMeaning tables dimensions basis.element
        (fun request => I.tableMeaning (tables.argument basis request).code) context
    else 0
  | .coefficient field, context =>
    scalarAt (I.basisMeaning tables dimensions field.element
      (fun request => I.tableMeaning (tables.coefficient field request)) context)
  | .facetNormal, context => constantMeaning context (I.normalMeaning context)
  | .integer value, context => constantMeaning context (I.literalMeaning (.ofInt value))
  | .real value, context => constantMeaning context (I.literalMeaning value)
  | .zero, context => constantMeaning context 0
  | .symbol name, context => constantMeaning context (I.word name)

/-- The meanings of a list of operands. -/
noncomputable def meaningAll : List Expr → LoweringContext → List (Key → F)
  | [], _ => []
  | operand :: rest, context => meaning operand context :: meaningAll rest context

end

/-! ### Evaluation computes the meaning -/

/-- Whether a power with the given form of exponent sends zero to zero if the
exponent is positive, and to one if it is zero.  The exponent has to be a
literal. -/
def PowersOfZero : ExponentForm → Prop
  | .integer value =>
    (0 < value → I.power 0 (I.word (toString value)) = 0) ∧
      (value = 0 → I.power 0 (I.word (toString value)) = 1)
  | .real value =>
    (value.isPositive = true → I.generalPower 0 (I.word value.shortestText) = 0) ∧
      (value.isZero = true → I.generalPower 0 (I.word value.shortestText) = 1)
  | _ => False

/-- What is asked of each subexpression: sums have operands, exponents are
literals by which zero has the powers it should have, and symbols are words. -/
def Admits : Expr → Prop
  | .sum operands => operands ≠ []
  | .power _ exponent => I.PowersOfZero exponent.exponentForm
  | .symbol name => IsWord name
  | _ => True

theorem namedByWord_of_admits {expr : Expr} (hExpr : I.Admits expr) : expr.NamedByWord := by
  cases expr with
  | symbol name => exact hExpr
  | _ => trivial

variable {I}

theorem getD_literal (value : Binary64) : (I.literal value).getD 0 = I.literalMeaning value := by
  unfold literal literalMeaning
  split <;> rfl

theorem valueAt_scalar_eq (entry : Option F) :
    (TensorValue.scalar entry).valueAt = scalarAt (entry.getD 0) := by
  funext key
  exact TensorValue.valueAt_scalar entry key

theorem valueAt_nil_of_asScalar? {value : TensorValue F} {entry : Option F}
    (hScalar : value.asScalar? = some entry) : value.valueAt [] = entry.getD 0 := by
  unfold SortedMap.asScalar? at hScalar
  split at hScalar
  · rename_i other hEntries
    cases hScalar
    exact TensorValue.valueAt_of_mem (by rw [hEntries]; exact List.mem_singleton_self _)
  · contradiction

/-- A value has the given meaning and at least one key. -/
def Computes (value : TensorValue F) (function : Key → F) : Prop :=
  function = value.valueAt ∧ value.entries ≠ []

theorem computes_scalar {entry : Option F} {value : F} (hValue : entry.getD 0 = value) :
    Computes (.scalar entry) (scalarAt value) := by
  subst hValue
  exact ⟨(valueAt_scalar_eq entry).symm, List.cons_ne_nil _ _⟩

theorem computes_pure_scalar {entry : Option F} {value : F} (hValue : entry.getD 0 = value)
    {result : TensorValue F} (hResult : (pure (.scalar entry) : Except Fault _) = .ok result) :
    Computes result (scalarAt value) := by
  cases hResult
  exact computes_scalar hValue

theorem constantLeaf_computes (context : LoweringContext) {code : Except Fault (TensorValue F)}
    {value : F} (hCode : ∀ {result}, code = .ok result → Computes result (scalarAt value))
    {result : TensorValue F} (hResult : constantLeaf context code = .ok result) :
    Computes result (constantMeaning context value) := by
  unfold constantLeaf at hResult
  unfold constantMeaning
  split at hResult
  · rename_i hEmpty
    rw [if_pos hEmpty]
    exact hCode hResult
  · rename_i hEmpty
    cases hResult
    have hZero : (fun _ => 0 : Key → F) = scalarAt 0 := by
      funext key
      simp [scalarAt]
    rw [if_neg hEmpty, hZero]
    exact computes_scalar rfl

theorem normalValue_computes (context : LoweringContext) {result : TensorValue F}
    (hResult : I.normalValue context = .ok result) :
    Computes result (scalarAt (I.normalMeaning context)) := by
  unfold normalValue at hResult
  unfold normalMeaning
  generalize context.component = indices at hResult ⊢
  match indices, hResult with
  | [component], hResult => exact computes_pure_scalar rfl hResult
  | [], hResult => contradiction
  | _ :: _ :: _, hResult => contradiction

/-- Gathered terms have the sums of what contributes under each key. -/
theorem computes_gather {contributions : List (Key × List F)} (hSome : contributions ≠ []) :
    Computes ((SortedMap.gather contributions).mapValues TensorValue.total) fun key =>
      (contributions.map fun entry => if entry.1 = key then entry.2.sum else 0).sum := by
  constructor
  · funext key
    exact (TensorValue.valueAt_gather contributions key).symm
  · have hGathered := SortedMap.gather_ne_nil hSome
    simpa [SortedMap.mapValues] using hGathered

theorem sum_computes {values : List (TensorValue F)} (hSome : values ≠ [])
    (hValues : ∀ value ∈ values, value.entries ≠ []) :
    Computes (TensorValue.sum values) fun key =>
      ((values.map TensorValue.valueAt).map fun operand => operand key).sum := by
  constructor
  · funext key
    rw [TensorValue.valueAt_sum, List.map_map]
    rfl
  · obtain ⟨first, rest, rfl⟩ := List.exists_cons_of_ne_nil hSome
    have hFirst := hValues first List.mem_cons_self
    refine (computes_gather ?_).2
    unfold TensorCode.sumContributions
    rw [List.flatMap_cons]
    exact List.append_ne_nil_of_left_ne_nil (by simpa using hFirst) _

theorem product_computes {values : List (TensorValue F)}
    (hValues : ∀ value ∈ values, value.entries ≠ []) :
    Computes (TensorValue.product values)
      (TensorValue.productAt (values.map TensorValue.valueAt)) := by
  constructor
  · funext key
    rw [TensorValue.valueAt_product hValues, TensorValue.choiceSum_eq_productAt]
  · simp only [TensorValue.product]
    split
    · exact List.cons_ne_nil _ _
    · rename_i hTensors
      refine (computes_gather ?_).2
      unfold TensorValue.productContributions entryChoices
      rw [if_neg hTensors]
      have hChoices : choices ((values.filter SortedMap.isTensor).map (·.entries)) ≠ [] := by
        refine choices_ne_nil fun entries hMem => ?_
        obtain ⟨value, hValue, rfl⟩ := List.mem_map.mp hMem
        exact hValues value (List.mem_of_mem_filter hValue)
      simpa using hChoices

theorem division_computes {values : List (TensorValue F)} {result : TensorValue F}
    (hValues : ∀ value ∈ values, value.entries ≠ [])
    (hResult : TensorValue.division values = .ok result) :
    Computes result (divisionMeaning (values.map TensorValue.valueAt)) := by
  unfold TensorValue.division at hResult
  split at hResult
  · rename_i numerator denominator
    split at hResult
    · contradiction
    · contradiction
    · rename_i divisor hDivisor
      cases hResult
      have hNil : denominator.valueAt [] = divisor := valueAt_nil_of_asScalar? hDivisor
      constructor
      · funext key
        simp only [List.map_cons, List.map_nil, divisionMeaning, hNil]
        unfold TensorValue.valueAt
        rw [SortedMap.get?_mapValues]
        cases numerator.get? key with
        | none => exact zero_div _
        | some entry => cases entry with
          | none => exact zero_div _
          | some value => rfl
      · have hNumerator := hValues numerator List.mem_cons_self
        simpa [SortedMap.mapValues] using hNumerator
  · contradiction

theorem onlyScalar_eq_ok {node : String} {values : List (TensorValue F)} {entry : Option F}
    (hEntry : TensorCode.onlyScalar node values = .ok entry) :
    ∃ value, values = [value] ∧ value.valueAt [] = entry.getD 0 := by
  unfold TensorCode.onlyScalar at hEntry
  split at hEntry
  · rename_i value
    split at hEntry
    · rename_i other hScalar
      cases hEntry
      exact ⟨value, rfl, valueAt_nil_of_asScalar? hScalar⟩
    · contradiction
  · contradiction

theorem abs_computes (hAbsolute : I.absolute 0 = 0) {values : List (TensorValue F)}
    {result : TensorValue F} (hResult : I.abs values = .ok result) :
    Computes result (functionMeaning I.absolute (values.map TensorValue.valueAt)) := by
  obtain ⟨entry, hEntry, hScalar⟩ := exists_of_bind_ok hResult
  obtain ⟨value, rfl, hValue⟩ := onlyScalar_eq_ok hEntry
  cases hScalar
  refine computes_scalar ?_
  rw [hValue]
  cases entry with
  | none => exact hAbsolute.symm
  | some entry => rfl

theorem applyFunction_computes (function : ElementaryFunction) {values : List (TensorValue F)}
    {result : TensorValue F} (hResult : I.applyFunction function values = .ok result) :
    Computes result
      (functionMeaning (I.elementary function) (values.map TensorValue.valueAt)) := by
  obtain ⟨entry, hEntry, hScalar⟩ := exists_of_bind_ok hResult
  obtain ⟨value, rfl, hValue⟩ := onlyScalar_eq_ok hEntry
  cases hScalar
  refine computes_scalar ?_
  rw [hValue]
  rfl

/-! ### Powers -/

section Signs

open ExponentForm

variable {positive zero : Prop} [Decidable positive] [Decidable zero]

theorem of_sign_positive
    (hSign : (if positive then LiteralSign.positive else if zero then .zero else .other) =
      .positive) : positive := by
  by_contra hNot
  rw [if_neg hNot] at hSign
  split at hSign <;> contradiction

theorem of_sign_zero
    (hSign : (if positive then LiteralSign.positive else if zero then .zero else .other) =
      .zero) : zero := by
  by_contra hNot
  rw [if_neg hNot] at hSign
  split at hSign <;> contradiction

/-- Zero has a power if the literal exponent is positive or zero. -/
theorem powerOfZero_eq_ok {β : Type} {one : β} {exponent : ExponentForm} {sign : LiteralSign}
    (hSign : exponent.sign? = some sign) {entry : Option β}
    (hEntry : exponent.powerOfZero one = .ok entry) :
    (sign = .positive ∧ entry = none) ∨ (sign = .zero ∧ entry = some one) := by
  unfold powerOfZero at hEntry
  rw [hSign] at hEntry
  cases sign with
  | positive =>
      cases hEntry
      exact .inl ⟨rfl, rfl⟩
  | zero =>
      cases hEntry
      exact .inr ⟨rfl, rfl⟩
  | other => contradiction

end Signs

/-- A literal power of zero is what the interpretation says it is. -/
theorem powerOfZero_computes {exponent : ExponentForm} (hPowers : I.PowersOfZero exponent)
    (exponentValue : F) {entry : Option F} (hEntry : exponent.powerOfZero (1 : F) = .ok entry) :
    entry.getD 0 = I.powerMeaning 0 exponent exponentValue := by
  cases exponent with
  | integer value =>
      rcases powerOfZero_eq_ok rfl hEntry with ⟨hSign, rfl⟩ | ⟨hSign, rfl⟩
      · exact (hPowers.1 (of_sign_positive hSign)).symm
      · exact (hPowers.2 (of_sign_zero hSign)).symm
  | real value =>
      rcases powerOfZero_eq_ok rfl hEntry with ⟨hSign, rfl⟩ | ⟨hSign, rfl⟩
      · exact (hPowers.1 (of_sign_positive hSign)).symm
      · exact (hPowers.2 (of_sign_zero hSign)).symm
  | function => exact hPowers.elim
  | unsupported => exact hPowers.elim

theorem powerOf_computes {exponent : ExponentForm} (hPowers : I.PowersOfZero exponent)
    (base exponentValue : F) {code : Except Fault (TensorValue F)} {value : F}
    (hValue : I.powerOf base exponent code = .ok value) :
    value = I.powerMeaning base exponent exponentValue := by
  cases exponent with
  | integer number =>
      cases hValue
      rfl
  | real number =>
      cases hValue
      rfl
  | function => exact hPowers.elim
  | unsupported => exact hPowers.elim

theorem power_computes {exponent : ExponentForm} (hPowers : I.PowersOfZero exponent)
    {base result : TensorValue F} (exponentValue : F) {code : Except Fault (TensorValue F)}
    (hResult : I.powerValue (.ok base) exponent code = .ok result) :
    Computes result (scalarAt (I.powerMeaning (base.valueAt []) exponent exponentValue)) := by
  obtain ⟨_, hBase, hPower⟩ := exists_of_bind_ok hResult
  cases hBase
  split at hPower
  · contradiction
  · rename_i hScalar
    obtain ⟨entry, hEntry, hPower⟩ := exists_of_bind_ok hPower
    cases hPower
    rw [valueAt_nil_of_asScalar? hScalar]
    exact computes_scalar (powerOfZero_computes hPowers exponentValue hEntry)
  · rename_i value hScalar
    obtain ⟨power, hValue, hPower⟩ := exists_of_bind_ok hPower
    cases hPower
    rw [valueAt_nil_of_asScalar? hScalar]
    exact computes_scalar (powerOf_computes hPowers value exponentValue hValue)

/-! ### Basis functions -/

theorem sum_basisTerms (place : ComponentPlace) (context : LoweringContext) (tuple : List Nat)
    (contributor : Contributor) (table : Entry) :
    (I.basisTerms place context tuple contributor table).sum =
      I.basisTerm place context tuple contributor (I.tableMeaning table) := by
  unfold basisTerms basisTerm tableMeaning
  cases table <;> simp

/-- Every cell of dimension at least one has tables to ask for. -/
theorem tableOrder_ne_nil {dimensions : CellDimensions} (hDimensions : dimensions.Positive)
    {component : Nat} {place : ComponentPlace} {contributors : List Contributor}
    (hContributors : dimensions.contributors component place = .ok contributors) (order : Nat) :
    Backend.tableOrder (directionTuples dimensions.topological order) contributors ≠ [] := by
  obtain ⟨hGeometric, hTopological⟩ := hDimensions
  have hTuples : directionTuples dimensions.topological order ≠ [] := by
    refine choices_ne_nil fun directions hMem => ?_
    rw [List.eq_of_mem_replicate hMem]
    simp
    omega
  have hSome : contributors ≠ [] := by
    have hDirections : List.range dimensions.geometric ≠ [] := by
      simp
      omega
    unfold CellDimensions.contributors at hContributors
    cases hMapping : place.mapping <;> rw [hMapping] at hContributors <;> cases hContributors
    · exact List.cons_ne_nil _ _
    · simpa using hDirections
    · simpa using hDirections
  obtain ⟨tuple, tuples, hTuples⟩ := List.exists_cons_of_ne_nil hTuples
  unfold Backend.tableOrder
  rw [hTuples, List.flatMap_cons]
  exact List.append_ne_nil_of_left_ne_nil (by simpa using hSome) _

/-- The sum over all tables that are asked for, one tuple of directions after the other. -/
theorem sum_tableOrder (tuples : List (List Nat)) (contributors : List Contributor)
    (term : List Nat × Contributor → F) :
    ((Backend.tableOrder tuples contributors).map term).sum =
      (tuples.map fun tuple =>
        (contributors.map fun contributor => term (tuple, contributor)).sum).sum := by
  unfold Backend.tableOrder
  induction tuples with
  | nil => rfl
  | cons tuple rest ih =>
      rw [List.flatMap_cons, List.map_append, List.sum_append, ih, List.map_cons, List.sum_cons,
        List.map_map]
      rfl

variable {catalog : ElementCatalog} {dimensions : CellDimensions}

theorem argument_computes (hDimensions : dimensions.Positive) (basis : Argument)
    (context : LoweringContext) {result : TensorValue F}
    (hResult : I.argumentValue catalog.tables dimensions basis context = .ok result) :
    Computes result (I.meaning catalog.tables dimensions (.argument basis) context) := by
  obtain ⟨⟨component, place⟩, hSelected, hRest⟩ := exists_of_bind_ok hResult
  obtain ⟨contributors, hContributors, hRest⟩ := exists_of_bind_ok hRest
  cases hRest
  have hOrder := tableOrder_ne_nil hDimensions hContributors context.derivatives.length
  have hSome : (Backend.tableOrder
      (directionTuples dimensions.topological context.derivatives.length) contributors).map
        (I.argumentContribution catalog.tables dimensions basis place context) ≠ [] := by
    simpa using hOrder
  obtain ⟨hFunction, hEntries⟩ := computes_gather hSome
  refine ⟨?_, hEntries⟩
  rw [← hFunction]
  funext key
  -- The sum over the order of the tables is the double sum of the meaning.
  rw [List.map_map, sum_tableOrder, meaning]
  simp only [basisMeaning, hSelected, hContributors, Function.comp_apply, argumentContribution,
    sum_basisTerms]
  -- Every table of the argument contributes to the component with its number.
  have hKey : ∀ request, (catalog.tables.argument basis request).key = [basis.number] :=
    fun request => rfl
  simp only [hKey, eq_comm]
  split <;> simp

theorem coefficient_computes (field : Coefficient) (context : LoweringContext)
    {result : TensorValue F}
    (hResult : I.coefficientValue catalog.tables dimensions field context = .ok result) :
    Computes result (I.meaning catalog.tables dimensions (.coefficient field) context) := by
  obtain ⟨⟨component, place⟩, hSelected, hRest⟩ := exists_of_bind_ok hResult
  obtain ⟨contributors, hContributors, hRest⟩ := exists_of_bind_ok hRest
  cases hRest
  rw [meaning]
  refine computes_scalar ?_
  simp only [basisMeaning, hSelected, hContributors]
  rw [TensorValue.getD_total, List.sum_flatten, List.map_map, sum_tableOrder]
  simp only [Function.comp_apply, coefficientContribution, sum_basisTerms]

/-! ### Expressions -/

mutual

/-- Evaluation computes the meaning of an expression. -/
theorem evaluate_meaning (hAbsolute : I.absolute 0 = 0) (hDimensions : dimensions.Positive) :
    (expr : Expr) → (context : LoweringContext) → expr.Every I.Admits → (value : TensorValue F) →
      I.evaluate catalog.tables dimensions expr context = .ok value →
        Computes value (I.meaning catalog.tables dimensions expr context)
  | .sum operands, context, hExpr, value, hValue => by
    rw [evaluate] at hValue
    obtain ⟨values, hValues, hResult⟩ := exists_of_bind_ok hValue
    cases hResult
    obtain ⟨hMeanings, hEntries⟩ :=
      evaluateAll_meaning hAbsolute hDimensions operands context hExpr.2 values hValues
    have hSome : values ≠ [] := by
      rintro rfl
      obtain ⟨operand, rest, rfl⟩ := List.exists_cons_of_ne_nil hExpr.1
      rw [meaningAll] at hMeanings
      exact absurd hMeanings (List.cons_ne_nil _ _)
    rw [meaning, hMeanings]
    exact sum_computes hSome hEntries
  | .product operands, context, hExpr, value, hValue => by
    rw [evaluate] at hValue
    obtain ⟨values, hValues, hResult⟩ := exists_of_bind_ok hValue
    cases hResult
    obtain ⟨hMeanings, hEntries⟩ :=
      evaluateAll_meaning hAbsolute hDimensions operands context hExpr.2 values hValues
    rw [meaning, hMeanings]
    exact product_computes hEntries
  | .division operands, context, hExpr, value, hValue => by
    rw [evaluate] at hValue
    obtain ⟨values, hValues, hResult⟩ := exists_of_bind_ok hValue
    obtain ⟨hMeanings, hEntries⟩ :=
      evaluateAll_meaning hAbsolute hDimensions operands context hExpr.2 values hValues
    rw [meaning, hMeanings]
    exact division_computes hEntries hResult
  | .power base exponent, context, hExpr, value, hValue => by
    rw [evaluate] at hValue
    obtain ⟨baseValue, hBase, -⟩ := exists_of_bind_ok hValue
    rw [hBase] at hValue
    obtain ⟨hMeaning, -⟩ :=
      evaluate_meaning hAbsolute hDimensions base context hExpr.2.1 baseValue hBase
    rw [meaning, hMeaning]
    exact power_computes hExpr.1 _ hValue
  | .abs operands, context, hExpr, value, hValue => by
    rw [evaluate] at hValue
    obtain ⟨values, hValues, hResult⟩ := exists_of_bind_ok hValue
    obtain ⟨hMeanings, -⟩ :=
      evaluateAll_meaning hAbsolute hDimensions operands context hExpr.2 values hValues
    rw [meaning, hMeanings]
    exact abs_computes hAbsolute hResult
  | .elementary function operands, context, hExpr, value, hValue => by
    rw [evaluate] at hValue
    obtain ⟨values, hValues, hResult⟩ := exists_of_bind_ok hValue
    obtain ⟨hMeanings, -⟩ :=
      evaluateAll_meaning hAbsolute hDimensions operands context hExpr.2 values hValues
    rw [meaning, hMeanings]
    exact applyFunction_computes function hResult
  | .indexed operand component, context, hExpr, value, hValue => by
    rw [evaluate] at hValue
    rw [meaning]
    exact evaluate_meaning hAbsolute hDimensions operand (context.select component) hExpr.2 value
      hValue
  | .restricted operand restriction, context, hExpr, value, hValue => by
    rw [evaluate] at hValue
    rw [meaning]
    exact evaluate_meaning hAbsolute hDimensions operand (context.restrict restriction) hExpr.2
      value hValue
  | .derivative operand direction, context, hExpr, value, hValue => by
    rw [evaluate] at hValue
    rw [meaning]
    exact evaluate_meaning hAbsolute hDimensions operand (context.differentiate direction)
      hExpr.2 value hValue
  | .argument basis, context, _, value, hValue => by
    rw [evaluate] at hValue
    exact argument_computes hDimensions basis context hValue
  | .coefficient field, context, _, value, hValue => by
    rw [evaluate] at hValue
    exact coefficient_computes field context hValue
  | .facetNormal, context, _, value, hValue => by
    rw [evaluate] at hValue
    rw [meaning]
    exact constantLeaf_computes context (normalValue_computes context) hValue
  | .integer number, context, _, value, hValue => by
    rw [evaluate] at hValue
    rw [meaning]
    exact constantLeaf_computes context (computes_pure_scalar (getD_literal _)) hValue
  | .real number, context, _, value, hValue => by
    rw [evaluate] at hValue
    rw [meaning]
    exact constantLeaf_computes context (computes_pure_scalar (getD_literal number)) hValue
  | .zero, context, _, value, hValue => by
    rw [evaluate] at hValue
    rw [meaning]
    exact constantLeaf_computes context (computes_pure_scalar rfl) hValue
  | .symbol name, context, _, value, hValue => by
    rw [evaluate] at hValue
    rw [meaning]
    exact constantLeaf_computes context (computes_pure_scalar rfl) hValue

/-- Evaluation computes the meanings of operands. -/
theorem evaluateAll_meaning (hAbsolute : I.absolute 0 = 0) (hDimensions : dimensions.Positive) :
    (operands : List Expr) → (context : LoweringContext) → Expr.AllEvery I.Admits operands →
      (values : List (TensorValue F)) →
        I.evaluateAll catalog.tables dimensions operands context = .ok values →
          I.meaningAll catalog.tables dimensions operands context =
            values.map TensorValue.valueAt ∧ ∀ value ∈ values, value.entries ≠ []
  | [], context, _, values, hValues => by
    rw [evaluateAll] at hValues
    cases hValues
    exact ⟨rfl, fun _ hMem => nomatch hMem⟩
  | operand :: rest, context, hExpr, values, hValues => by
    rw [evaluateAll] at hValues
    obtain ⟨value, hValue, hRest⟩ := exists_of_bind_ok hValues
    obtain ⟨others, hOthers, hResult⟩ := exists_of_bind_ok hRest
    cases hResult
    obtain ⟨hMeaning, hEntries⟩ :=
      evaluate_meaning hAbsolute hDimensions operand context hExpr.1 value hValue
    obtain ⟨hMeanings, hNonempty⟩ :=
      evaluateAll_meaning hAbsolute hDimensions rest context hExpr.2 others hOthers
    constructor
    · rw [meaningAll, hMeaning, hMeanings, List.map_cons]
    · rintro other (_ | ⟨_, hOther⟩)
      · exact hEntries
      · exact hNonempty other hOther

end

end Interpretation

end FormLowering
