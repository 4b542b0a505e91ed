import FormLowering.Proofs.FirstFailure
import FormLowering.Proofs.SupportOfCode
import FormLowering.Proofs.VanishingTables
import FormLowering.Proofs.ZeroFactors

/-!
# Progress

A well-posed expression has the operands, exponents and names that lowering asks for, and
its coefficients and normals make sense where they stand.  It has no arguments, so the code
of every part is a scalar.  Then there is one way to fail: a denominator is evaluated and
turns out to be symbolic zero, or a base does whose exponent is a number that is not at
least zero.
-/

namespace FormLowering

open LowerM

/-! ### Well-posed expressions -/

/-- Whether there is code for elements with the mapping. -/
def Mapping.HasPullback : Mapping → Prop
  | .affine | .covariantPiola | .contravariantPiola => True
  | .doubleCovariantPiola | .doubleContravariantPiola => False

namespace Expr

/-- Whether the expression is a literal number. -/
def IsLiteral : Expr → Prop
  | .integer _ | .real _ => True
  | _ => False

/-- Whether the expression is a literal that is not at least zero.  What is not a number is
not at least zero. -/
def IsLiteralBelowZero : Expr → Prop
  | .integer value => ¬0 ≤ value
  | .real value => ¬(value.isPositive ∨ value.isZero)
  | _ => False

/-- Whether a node is as lowering asks for in a context, apart from its operands.  A
component is in range if its element finds a place for it.  An argument never is as asked
for. -/
def Posed (catalog : ElementCatalog) (context : LoweringContext) : Expr → Prop
  | .sum operands => operands ≠ []
  | .division operands => operands.length = 2
  | .power _ exponent => exponent.IsLiteral ∨ exponent.isField
  | .abs operands => operands.length = 1
  | .elementary _ operands => operands.length = 1
  | .facetNormal => context.component.length = 1
  | .argument _ => False
  | .coefficient field =>
    context.component.length ≤ 1 ∧ ∃ element place,
      catalog.element? field.element = some element ∧
        element.locate (context.component.headD 0) = some place ∧ place.mapping.HasPullback
  | .symbol name => name ≠ ""
  | _ => True

/-- Whether every node of an expression is as lowering asks for, in the context in which it
stands. -/
inductive WellPosed (catalog : ElementCatalog) : Expr → LoweringContext → Prop
  | operation {operation : Operation} {operands : List Expr} {context : LoweringContext}
    (hNode : Posed catalog context (operation.node operands))
    (hOperands : ∀ operand ∈ operands, WellPosed catalog operand context) :
    WellPosed catalog (operation.node operands) context
  | power {base exponent : Expr} {context : LoweringContext}
    (hNode : Posed catalog context (.power base exponent)) (hBase : WellPosed catalog base context)
    (hExponent : WellPosed catalog exponent context) :
    WellPosed catalog (.power base exponent) context
  | modifier {modifier : Modifier} {operand : Expr} {context : LoweringContext}
    (hOperand : WellPosed catalog operand (modifier.apply context)) :
    WellPosed catalog (modifier.node operand) context
  | coefficient {field : Coefficient} {context : LoweringContext}
    (hNode : Posed catalog context (.coefficient field)) :
    WellPosed catalog (.coefficient field) context
  | constant {leaf : Constant} {context : LoweringContext}
    (hNode : Posed catalog context leaf.expr) : WellPosed catalog leaf.expr context

variable {catalog : ElementCatalog} {context : LoweringContext}

theorem WellPosed.every {property : Expr → Prop}
    (hPosed : ∀ {expr context}, Posed catalog context expr → property expr) {expr : Expr}
    (hExpr : expr.WellPosed catalog context) : expr.Every property := by
  induction hExpr with
  | operation hNode _ ih => exact every_operation.mpr ⟨hPosed hNode, ih⟩
  | power hNode _ _ ihBase ihExponent => exact ⟨hPosed hNode, ihBase, ihExponent⟩
  | @modifier modifier operand context _ ih =>
      have hNode : Posed catalog context (modifier.node operand) := by cases modifier <;> trivial
      exact every_modifier.mpr ⟨hPosed hNode, ih⟩
  | coefficient hNode => exact hPosed hNode
  | constant hNode => exact every_constant.mpr (hPosed hNode)

/-! ### Exponents -/

theorem exponentForm_of_isField {exponent : Expr} (hField : exponent.isField) :
    exponent.exponentForm = .function := by
  cases exponent with
  | integer value => contradiction
  | real value => contradiction
  | _ => simp only [exponentForm, hField, if_true]

theorem exists_sign_of_isLiteral {exponent : Expr} (hLiteral : exponent.IsLiteral) :
    ∃ sign, exponent.exponentForm.sign? = some sign := by
  cases exponent with
  | integer value => exact ⟨_, rfl⟩
  | real value => exact ⟨_, rfl⟩
  | _ => exact hLiteral.elim

theorem exponentForm_ne_unsupported {exponent : Expr}
    (hExponent : exponent.IsLiteral ∨ exponent.isField) : exponent.exponentForm ≠ .unsupported := by
  intro hForm
  rcases hExponent with hLiteral | hField
  · obtain ⟨sign, hSign⟩ := exists_sign_of_isLiteral hLiteral
    rw [hForm] at hSign
    contradiction
  · cases hForm.symm.trans (exponentForm_of_isField hField)

theorem IsLiteralBelowZero.isLiteral {exponent : Expr} (hBelow : exponent.IsLiteralBelowZero) :
    exponent.IsLiteral := by
  cases exponent <;> trivial

theorem isLiteralBelowZero_iff {exponent : Expr} :
    exponent.IsLiteralBelowZero ↔ exponent.exponentForm.sign? = some .other := by
  cases exponent with
  | integer value =>
      simp only [IsLiteralBelowZero, exponentForm, ExponentForm.sign?]
      split_ifs <;> simp <;> omega
  | real value =>
      simp only [IsLiteralBelowZero, exponentForm, ExponentForm.sign?]
      split_ifs <;> simp [*]
  | _ =>
      simp only [IsLiteralBelowZero, exponentForm, false_iff]
      split_ifs <;> simp [ExponentForm.sign?]

/-- Symbolic zero has all powers but those whose exponent is not at least zero. -/
theorem powerOfZero_eq_error_iff {one : Token} {exponent : Expr} {fault : Fault}
    (hExponent : exponent.IsLiteral ∨ exponent.isField) :
    exponent.exponentForm.powerOfZero one = .error fault ↔
      fault = .divisionByZero ∧ exponent.IsLiteralBelowZero := by
  rw [isLiteralBelowZero_iff]
  unfold ExponentForm.powerOfZero
  rcases hExponent with hLiteral | hField
  · obtain ⟨sign, hSign⟩ := exists_sign_of_isLiteral hLiteral
    rw [hSign]
    cases sign with
    | positive => exact iff_of_false nofun nofun
    | zero => exact iff_of_false nofun nofun
    | other =>
        constructor
        · intro hFault
          exact ⟨(Except.error.inj hFault).symm, rfl⟩
        · rintro ⟨rfl, -⟩
          rfl
  · rw [exponentForm_of_isField hField]
    exact iff_of_false nofun nofun

end Expr

namespace Backend

/-! ### Divisions by zero -/

/-- Whether a node divides by symbolic zero. -/
inductive DividesByZero (backend : Backend) : Expr → LoweringContext → Prop
  | division {numerator denominator : Expr} {context : LoweringContext}
    (hZero : (backend.lower denominator context).Returns (.scalar none)) :
    DividesByZero backend (.division [numerator, denominator]) context
  | power {base exponent : Expr} {context : LoweringContext}
    (hZero : (backend.lower base context).Returns (.scalar none))
    (hExponent : exponent.IsLiteralBelowZero) :
    DividesByZero backend (.power base exponent) context

/-- A node that divides by symbolic zero has no code. -/
theorem DividesByZero.not_returns {backend : Backend} {context : LoweringContext} {expr : Expr}
    (hExpr : backend.DividesByZero expr context) (code : TensorCode) :
    ¬(backend.lower expr context).Returns code := by
  intro hReturns
  cases hExpr with
  | @division numerator denominator _ hZero =>
      have hDivision : (backend.lower (Operation.division.node [numerator, denominator])
          context).Returns code := hReturns
      obtain ⟨codes, hCodes, hCode⟩ := returns_operation.mp hDivision
      obtain ⟨first, _, -, hRest, rfl⟩ := List.forall₂_cons_left_iff.mp hCodes
      obtain ⟨second, _, hSecond, hNone, rfl⟩ := List.forall₂_cons_left_iff.mp hRest
      cases hNone
      obtain rfl := (backend.lower_writeOnly denominator context).returns_unique hSecond hZero
      cases hCode
  | @power base exponent _ hZero hExponent =>
      obtain ⟨baseCode, entry, power, hBase, hEntry, -, hPower⟩ := returns_power hReturns
      obtain rfl := (backend.lower_writeOnly base context).returns_unique hBase hZero
      cases hEntry
      have hError : exponent.exponentForm.powerOfZero backend.dialect.identity =
          .error .divisionByZero :=
        (Expr.powerOfZero_eq_error_iff (.inl hExponent.isLiteral)).mpr ⟨rfl, hExponent⟩
      cases hError.symm.trans hPower

/-! ### Results -/

variable {dialect : Dialect} {catalog : ElementCatalog} {dimensions : CellDimensions}
  {context : LoweringContext} {code : TensorCode} {error : LoweringError}

/-- The code of a well-posed expression is a scalar without an empty token. -/
theorem scalar_of_returns (hAvailable : dialect.Available) {expr : Expr}
    (hExpr : expr.WellPosed catalog context)
    (hReturns : (lower ⟨dialect, catalog.tables, dimensions⟩ expr context).Returns code) :
    ∃ entry, code = .scalar entry ∧ entry ≠ some "" := by
  have hArguments : expr.Every Expr.NoArgument := hExpr.every fun {expr _} hPosed => by
    cases expr <;> trivial
  have hSums : expr.Every Expr.SumHasOperands := hExpr.every fun {expr _} hPosed => by
    cases expr <;> trivial
  have hSymbols : expr.Every Expr.NamedSymbol := hExpr.every fun {expr _} hPosed => by
    cases expr <;> trivial
  obtain ⟨entry, rfl⟩ := (supportedBy_of_returns (.inr hArguments) hSums hReturns).exists_eq_scalar
    fun key hKey => Expr.eq_nil_of_mem_keys hArguments hKey
  refine ⟨entry, rfl, ?_⟩
  rintro rfl
  exact allTokens_written hAvailable hSymbols hReturns [] "" List.mem_cons_self rfl

theorem exists_contributors (dimensions : CellDimensions) (component : Nat)
    {place : ComponentPlace} (hMapping : place.mapping.HasPullback) :
    ∃ contributors, dimensions.contributors component place = .ok contributors := by
  unfold CellDimensions.contributors
  cases hPlace : place.mapping with
  | affine => exact ⟨_, rfl⟩
  | covariantPiola => exact ⟨_, rfl⟩
  | contravariantPiola => exact ⟨_, rfl⟩
  | _ =>
      rw [hPlace] at hMapping
      exact hMapping.elim

/-- The component of a coefficient is found where its index is in range. -/
theorem exists_selected {field : Coefficient}
    (hPosed : Expr.Posed catalog context (.coefficient field)) :
    ∃ component place, catalog.tables.selected field.element context = .ok (component, place) ∧
      place.mapping.HasPullback := by
  obtain ⟨hIndices, element, place, hElement, hPlace, hMapping⟩ := hPosed
  refine ⟨context.component.headD 0, place, ?_, hMapping⟩
  have hLocate : catalog.tables.locate field.element (context.component.headD 0) = some place := by
    show (catalog.element? field.element).bind _ = _
    rw [hElement]
    exact hPlace
  have hComponent : context.selectedComponent = pure (context.component.headD 0) := by
    unfold LoweringContext.selectedComponent
    match context.component, hIndices with
    | [], _ => rfl
    | [component], _ => rfl
  unfold BasisTables.selected
  rw [hComponent, pure_bind, hLocate]
  rfl

/-- A coefficient in range, with a mapping for which there is code, has code. -/
theorem exists_returns_coefficient (hAvailable : dialect.Available) {field : Coefficient}
    (hPosed : Expr.Posed catalog context (.coefficient field)) :
    ∃ code, (lower ⟨dialect, catalog.tables, dimensions⟩ (.coefficient field) context).Returns
      code := by
  let backend : Backend := ⟨dialect, catalog.tables, dimensions⟩
  obtain ⟨component, place, hSelected, hMapping⟩ := exists_selected hPosed
  obtain ⟨contributors, hContributors⟩ := exists_contributors dimensions component hMapping
  have hTables : ∀ request basis, catalog.tables.coefficient field request = some basis →
      ∀ name, ¬Mentions basis name := fun _ _ hCode _ => catalog.not_mentions_coefficient hCode
  have hLower : lower backend (.coefficient field) context = within (.coefficient field) (do
      return .scalar (← backend.coefficientCode field component place
        (directionTuples dimensions.topological context.derivatives.length) context)) := by
    rw [lower]
    unfold lowerCoefficient
    dsimp only [backend]
    rw [hSelected]
    rfl
  obtain ⟨entry, hEntry⟩ := (@coefficientCode_completes backend hAvailable place context
    contributors field component hTables hContributors).exists_returns
  have hWriteOnly := backend.coefficientCode_writeOnly field component place
    (directionTuples dimensions.topological context.derivatives.length) context
  refine ⟨.scalar entry, ?_⟩
  rw [hLower, returns_within, hWriteOnly.returns_bind fun _ => .pure _]
  exact ⟨entry, hEntry, returns_pure.mpr rfl⟩

/-- A constant has code, a normal with its index. -/
theorem exists_returns_constant {backend : Backend} {leaf : Constant}
    (hPosed : Expr.Posed catalog context leaf.expr) :
    ∃ code, (backend.lower leaf.expr context).Returns code := by
  simp only [returns_constant]
  split
  · cases leaf with
    | normal =>
        obtain ⟨component, hComponent⟩ := List.length_eq_one_iff.mp hPosed
        obtain ⟨side, indices, derivatives⟩ := context
        obtain rfl : indices = [component] := hComponent
        exact ⟨_, returns_iff.mpr ⟨∅, rfl⟩⟩
    | integer value => exact ⟨_, returns_pure.mpr rfl⟩
    | real value => exact ⟨_, returns_pure.mpr rfl⟩
    | zero => exact ⟨_, returns_pure.mpr rfl⟩
    | symbol name => exact ⟨_, returns_pure.mpr rfl⟩
  · exact ⟨_, rfl⟩

/-! ### Failures -/

theorem not_raises_of_exists_returns {backend : Backend} {expr : Expr}
    (hExpr : ∃ code, (backend.lower expr context).Returns code) :
    ¬(backend.lower expr context).Raises error :=
  fun hRaises => (failsWith_iff.mpr hRaises).not_succeeds (succeeds_iff.mpr hExpr)

/-- An operation of well-posed operands can be combined, unless it divides by symbolic
zero. -/
theorem dividesByZero_of_combine {operation : Operation} {operands : List Expr}
    {codes : List TensorCode} {fault : Fault}
    (hPosed : Expr.Posed catalog context (operation.node operands))
    (hCodes : List.Forall₂ (fun operand code =>
      (lower ⟨dialect, catalog.tables, dimensions⟩ operand context).Returns code) operands codes)
    (hScalars : ∀ code ∈ codes, ∃ entry, code = .scalar entry ∧ entry ≠ some "")
    (hFault : operation.combine dialect codes = .error fault) :
    fault = .divisionByZero ∧
      DividesByZero ⟨dialect, catalog.tables, dimensions⟩ (operation.node operands) context := by
  have hSingle : operands.length = 1 → ∃ entry, codes = [.scalar entry] := by
    intro hLength
    obtain ⟨code, rfl⟩ := List.length_eq_one_iff.mp (hCodes.length_eq.symm.trans hLength)
    obtain ⟨entry, rfl, -⟩ := hScalars code (List.mem_singleton_self _)
    exact ⟨entry, rfl⟩
  cases operation with
  | sum =>
      obtain ⟨code, hCode⟩ := TensorCode.exists_sum dialect codes
      cases hCode.symm.trans hFault
  | product =>
      have hTokens : ∀ code ∈ codes, code.AllTokens (· ≠ "") := by
        intro code hMem
        obtain ⟨entry, rfl, hEntry⟩ := hScalars code hMem
        exact .scalar fun token hToken hEmpty => hEntry (hEmpty ▸ hToken)
      obtain ⟨code, hCode⟩ := TensorCode.exists_product dialect hTokens
      cases hCode.symm.trans hFault
  | division =>
      obtain ⟨numerator, denominator, rfl⟩ := List.length_eq_two.mp hPosed
      obtain ⟨first, _, -, hRest, rfl⟩ := List.forall₂_cons_left_iff.mp hCodes
      obtain ⟨second, _, hSecond, hNone, rfl⟩ := List.forall₂_cons_left_iff.mp hRest
      cases hNone
      obtain ⟨entry, rfl, -⟩ := hScalars second (by simp)
      cases entry with
      | none =>
          cases hFault
          exact ⟨rfl, .division hSecond⟩
      | some token => cases hFault
  | abs =>
      obtain ⟨entry, rfl⟩ := hSingle hPosed
      cases hFault
  | elementary function =>
      obtain ⟨entry, rfl⟩ := hSingle hPosed
      cases hFault

/-- Whether an error is a division by zero, and there is a node to blame for it. -/
structure ZeroDivision (backend : Backend) (expr : Expr) (context : LoweringContext)
    (error : LoweringError) : Prop where
  fault : error.fault = .divisionByZero
  divides : ∃ part inner, backend.Evaluates expr context part inner ∧
    backend.DividesByZero part inner

/-- A node that is to blame for an operand is to blame for the expression. -/
theorem ZeroDivision.of_operand {backend : Backend} {expr operand : Expr}
    {context middle : LoweringContext} {error : LoweringError}
    (hOperand : backend.ZeroDivision operand middle error)
    (hEvaluates : ∀ {part inner}, backend.Evaluates operand middle part inner →
      backend.Evaluates expr context part inner) : backend.ZeroDivision expr context error := by
  obtain ⟨hFault, part, inner, hPart, hZero⟩ := hOperand
  exact ⟨hFault, part, inner, hEvaluates hPart, hZero⟩

/-- A power fails because of its operands, or divides by symbolic zero. -/
theorem zeroDivision_of_power (hAvailable : dialect.Available) {base exponent : Expr}
    (hPosed : exponent.IsLiteral ∨ exponent.isField) (hBase : base.WellPosed catalog context)
    (hExponent : exponent.WellPosed catalog context)
    (ihBase : ∀ {error}, (lower ⟨dialect, catalog.tables, dimensions⟩ base context).Raises error →
      ZeroDivision ⟨dialect, catalog.tables, dimensions⟩ base context error)
    (ihExponent : ∀ {error},
      (lower ⟨dialect, catalog.tables, dimensions⟩ exponent context).Raises error →
        ZeroDivision ⟨dialect, catalog.tables, dimensions⟩ exponent context error)
    (hRaises : (lower ⟨dialect, catalog.tables, dimensions⟩ (.power base exponent) context).Raises
      error) :
    ZeroDivision ⟨dialect, catalog.tables, dimensions⟩ (.power base exponent) context error := by
  rcases raises_power hRaises with hBaseRaises | ⟨baseCode, inner, hReturns, rfl, hCause⟩
  · exact (ihBase hBaseRaises).of_operand .base
  obtain ⟨entry, rfl, -⟩ := scalar_of_returns hAvailable hBase hReturns
  rcases hCause with ⟨hEntry, -⟩ | ⟨fault, hEntry, rfl, hFault⟩ | ⟨token, hEntry, hInner⟩
  · cases hEntry
  · cases hEntry
    obtain ⟨rfl, hBelow⟩ := (Expr.powerOfZero_eq_error_iff hPosed).mp hFault
    exact ⟨rfl, _, _, .self _ _, .power hReturns hBelow⟩
  · rcases raises_powerOf hInner with ⟨hForm, -⟩ | ⟨hForm, hRaises | ⟨code, hCode, hNone, -⟩⟩
    · exact absurd hForm (Expr.exponentForm_ne_unsupported hPosed)
    · rw [within_of_raises hRaises]
      exact (ihExponent hRaises).of_operand (.exponent hReturns hEntry hForm)
    · obtain ⟨_, rfl, -⟩ := scalar_of_returns hAvailable hExponent hCode
      cases hNone

/-- A well-posed expression that fails has come to a node that divides by symbolic zero. -/
theorem zeroDivision_of_raises (hAvailable : dialect.Available) {expr : Expr}
    (hExpr : expr.WellPosed catalog context)
    (hRaises : (lower ⟨dialect, catalog.tables, dimensions⟩ expr context).Raises error) :
    ZeroDivision ⟨dialect, catalog.tables, dimensions⟩ expr context error := by
  induction hExpr generalizing error with
  | operation hNode hOperands ih =>
      rcases raises_operation hRaises with
        ⟨before, operand, after, rfl, hBefore, hOperand⟩ | ⟨codes, fault, hCodes, hFault, rfl⟩
      · exact (ih operand (by simp) hOperand).of_operand (.operand hBefore)
      · have hScalars : ∀ code ∈ codes, ∃ entry, code = .scalar entry ∧ entry ≠ some "" := by
          intro code hMem
          obtain ⟨operand, hOperand, hReturns⟩ := exists_of_mem_right hCodes hMem
          exact scalar_of_returns hAvailable (hOperands operand hOperand) hReturns
        obtain ⟨hKind, hZero⟩ := dividesByZero_of_combine hNode hCodes hScalars hFault
        exact ⟨hKind, _, _, .self _ _, hZero⟩
  | power hNode hBase hExponent ihBase ihExponent =>
      exact zeroDivision_of_power hAvailable hNode hBase hExponent ihBase ihExponent hRaises
  | modifier _ ih =>
      rw [lower_modified] at hRaises
      exact (ih hRaises).of_operand .modified
  | coefficient hNode =>
      refine absurd hRaises (not_raises_of_exists_returns ?_)
      exact exists_returns_coefficient hAvailable hNode
  | constant hNode =>
      exact absurd hRaises (not_raises_of_exists_returns (exists_returns_constant hNode))

theorem raises_of_run {backend : Backend} {expr : Expr} (hRun : backend.run expr = .error error) :
    (backend.lower expr {}).Raises error := by
  unfold run at hRun
  split at hRun
  · cases hRun
  · rename_i hRun'
    cases hRun
    exact ⟨∅, by rw [hRun']⟩

/-- A well-posed expression without arguments fails if and only if a node that is evaluated
divides by symbolic zero, and with no other fault.  Otherwise its code is a scalar, symbolic
zero or a token that is not empty. -/
theorem run_progresses (hAvailable : dialect.Available) (catalog : ElementCatalog)
    (dimensions : CellDimensions) (expr : Expr) (hExpr : expr.WellPosed catalog {}) :
    let backend : Backend := ⟨dialect, catalog.tables, dimensions⟩
    ((∃ error, backend.run expr = .error error) ↔
        ∃ part inner, backend.Evaluates expr {} part inner ∧ backend.DividesByZero part inner) ∧
      (∀ error, backend.run expr = .error error → error.fault = .divisionByZero) ∧
        ∀ lowered, backend.run expr = .ok lowered →
          ∃ entry, lowered.code = .scalar entry ∧ entry ≠ some "" := by
  intro backend
  have hFailure {error : LoweringError} (hRun : backend.run expr = .error error) :
      backend.ZeroDivision expr {} error :=
    zeroDivision_of_raises hAvailable hExpr (raises_of_run hRun)
  refine ⟨⟨?_, ?_⟩, fun error hRun => (hFailure hRun).fault, fun lowered hRun => ?_⟩
  · rintro ⟨error, hRun⟩
    exact (hFailure hRun).divides
  · rintro ⟨part, inner, hPart, hZero⟩
    cases hRun : backend.run expr with
    | error error => exact ⟨error, rfl⟩
    | ok lowered =>
        -- Everything that is evaluated would have code.
        obtain ⟨position, hPart⟩ := evaluates_iff.mp hPart
        obtain ⟨code, hCode⟩ := succeeds_iff.mp
          (hPart.succeeds (succeeds_iff.mpr ⟨_, returns_of_run hRun⟩))
        exact absurd hCode (hZero.not_returns code)
  · exact scalar_of_returns hAvailable hExpr (returns_of_run hRun)

/-- A component of a covariant coefficient and a normal have code, but the derivative of a
constant is no denominator. -/
theorem run_progresses_vanishing_denominator :
    let catalog : ElementCatalog := ⟨#[.nedelec 1 2], []⟩
    let backend : Backend := ⟨.cpp none, catalog.tables, {}⟩
    let quotient : Expr := .division [.indexed .facetNormal [0], .derivative (.symbol "a") 0]
    let expr : Expr := .sum [.indexed (.coefficient ⟨0, 0⟩) [1], quotient]
    expr.WellPosed catalog {} ∧ backend.Evaluates expr {} quotient {} ∧
      ∃ error, backend.run expr = .error error ∧ error.fault = .divisionByZero := by
  intro catalog backend quotient expr
  have hField : Expr.WellPosed catalog (.indexed (.coefficient ⟨0, 0⟩) [1]) {} :=
    @Expr.WellPosed.modifier catalog (.index [1]) (.coefficient ⟨0, 0⟩) {}
      (.coefficient ⟨by decide, _, _, rfl, rfl, trivial⟩)
  have hNormal : Expr.WellPosed catalog (.indexed .facetNormal [0]) {} :=
    @Expr.WellPosed.modifier catalog (.index [0]) .facetNormal {}
      (@Expr.WellPosed.constant _ .normal _ rfl)
  have hName : "a" ≠ "" := by decide
  have hConstant : Expr.WellPosed catalog (.derivative (.symbol "a") 0) {} :=
    @Expr.WellPosed.modifier catalog (.differentiate 0) (.symbol "a") {}
      (@Expr.WellPosed.constant _ (.symbol "a") _ hName)
  have hQuotient : Expr.WellPosed catalog quotient {} :=
    @Expr.WellPosed.operation catalog .division _ {} rfl (by simp [hNormal, hConstant])
  have hExpr : Expr.WellPosed catalog expr {} :=
    @Expr.WellPosed.operation catalog .sum _ {} (List.cons_ne_nil _ _) (by simp [hField, hQuotient])
  have hBefore : (backend.lower (.indexed (.coefficient ⟨0, 0⟩) [1]) {}).Returns
      (.scalar (some "(K_01*F0_C0 + K_11*F0_C1)")) := returns_iff.mpr ⟨∅, by decide +kernel⟩
  have hEvaluates : backend.Evaluates expr {} quotient {} :=
    @Evaluates.operand backend .sum [.indexed (.coefficient ⟨0, 0⟩) [1]] [] quotient quotient {} {}
      (by simpa using ⟨_, hBefore⟩) (.self _ _)
  obtain ⟨hFails, hKind, -⟩ := run_progresses (.cpp none) catalog {} expr hExpr
  have hZero : (backend.lower (.derivative (.symbol "a") 0) {}).Returns (.scalar none) :=
    returns_iff.mpr ⟨∅, rfl⟩
  obtain ⟨error, hRun⟩ := hFails.mpr ⟨quotient, {}, hEvaluates, .division hZero⟩
  exact ⟨hExpr, hEvaluates, error, hRun, hKind error hRun⟩

end Backend

end FormLowering
