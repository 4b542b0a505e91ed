import FormLowering.Proofs.Support.Faults
import FormLowering.Proofs.Traversal.Failures

/-!
# Faults that actions raise

An action raises only certain faults if its steps do, where a step need only be looked at for
what the steps before it return.  Leaves fail because of components and mappings, powers
because of what their operands are, and operations because of what they are given.  So
whether lowering can raise a fault that is none of these is decided where codes are
multiplied.
-/

namespace FormLowering

/-! ### Kinds of faults -/

namespace Fault

/-- Whether a leaf can fail with the fault. -/
def IsOfLeaf : Fault → Prop
  | .componentMismatch _ _ | .invalidComponent _ _ | .unsupportedMapping _ => True
  | _ => False

/-- Whether an expression can be blamed for the fault: all but empty tokens and properties
that do not hold. -/
def IsOrdinary : Fault → Prop
  | .malformedOperand | .invariantViolation _ => False
  | _ => True

theorem IsOfLeaf.isOrdinary {fault : Fault} (hLeaf : fault.IsOfLeaf) : fault.IsOrdinary := by
  cases fault <;> trivial

end Fault

/-! ### Operations on codes -/

theorem cases_of_bind_error {α β ε : Type} {action : Except ε α} {next : α → Except ε β} {error : ε}
    (hError : action >>= next = .error error) :
    action = .error error ∨ ∃ value, action = .ok value ∧ next value = .error error := by
  cases action with
  | ok value => exact .inr ⟨value, rfl, hError⟩
  | error raised =>
      cases hError
      exact .inl rfl

theorem exists_of_mapM_error {α β ε : Type} {change : α → Except ε β} {values : List α} {error : ε}
    (hError : values.mapM change = .error error) :
    ∃ value ∈ values, change value = .error error := by
  induction values with
  | nil => cases hError
  | cons value rest ih =>
      rw [List.mapM_cons] at hError
      rcases cases_of_bind_error hError with hFirst | ⟨first, -, hError⟩
      · exact ⟨value, List.mem_cons_self, hFirst⟩
      · rcases cases_of_bind_error hError with hRest | ⟨others, -, hPure⟩
        · obtain ⟨other, hMem, hOther⟩ := ih hRest
          exact ⟨other, List.mem_cons_of_mem _ hMem, hOther⟩
        · cases hPure

theorem Dialect.properFactors_eq_error {dialect : Dialect} {factors : List Entry} {fault : Fault}
    (hFault : dialect.properFactors factors = .error fault) : fault = .malformedOperand := by
  induction factors with
  | nil => cases hFault
  | cons factor rest ih =>
      cases factor with
      | none => cases hFault
      | some token =>
          rw [properFactors] at hFault
          split at hFault
          · cases hFault
            rfl
          · rcases cases_of_bind_error hFault with hRest | ⟨_, -, hPure⟩
            · exact ih hRest
            · cases hPure

theorem Dialect.productEntry_eq_error {dialect : Dialect} {factors : List Entry} {fault : Fault}
    (hFault : dialect.productEntry factors = .error fault) : fault = .malformedOperand := by
  rcases cases_of_bind_error hFault with hFactors | ⟨proper, -, hResult⟩
  · exact properFactors_eq_error hFactors
  · split at hResult <;> cases hResult

namespace TensorCode

variable {dialect : Dialect} {operands : List TensorCode} {fault : Fault}

/-- A product can only fail because of an empty token. -/
theorem product_eq_error (hFault : product dialect operands = .error fault) :
    fault = .malformedOperand := by
  simp only [product] at hFault
  split at hFault
  · rcases cases_of_bind_error hFault with hEntry | ⟨_, -, hPure⟩
    · exact Dialect.productEntry_eq_error hEntry
    · cases hPure
  · rcases cases_of_bind_error hFault with hContributions | ⟨contributions, -, hSum⟩
    · obtain ⟨chosen, -, hChosen⟩ := exists_of_mapM_error hContributions
      rcases cases_of_bind_error hChosen with hEntry | ⟨_, -, hPure⟩
      · exact Dialect.productEntry_eq_error hEntry
      · cases hPure
    · obtain ⟨code, hCode⟩ := SortedMap.exists_traverse dialect.exists_addTerms
        (SortedMap.gather contributions)
      cases hCode.symm.trans hSum

theorem isOrdinary_of_onlyScalar {node : String}
    (hFault : onlyScalar node operands = .error fault) :
    fault.IsOrdinary := by
  unfold onlyScalar at hFault
  split at hFault
  · split at hFault
    · cases hFault
    · cases hFault
      trivial
  · cases hFault
    trivial

end TensorCode

/-- Operations fail because of their operands, or are products. -/
theorem Operation.fault_of_combine {operation : Operation} {dialect : Dialect}
    {codes : List TensorCode} {fault : Fault}
    (hFault : operation.combine dialect codes = .error fault) :
    fault.IsOrdinary ∨ operation = .product := by
  cases operation with
  | sum =>
      obtain ⟨code, hCode⟩ := TensorCode.exists_sum dialect codes
      cases hCode.symm.trans hFault
  | product => exact .inr rfl
  | division =>
      have hDivision : TensorCode.division dialect codes = .error fault := hFault
      unfold TensorCode.division at hDivision
      split at hDivision
      · split at hDivision <;> cases hDivision <;> exact .inl trivial
      · cases hDivision
        exact .inl trivial
  | abs =>
      rcases cases_of_bind_error hFault with hScalar | ⟨_, -, hPure⟩
      · exact .inl (TensorCode.isOrdinary_of_onlyScalar hScalar)
      · cases hPure
  | elementary function =>
      rcases cases_of_bind_error hFault with hScalar | ⟨_, -, hPure⟩
      · exact .inl (TensorCode.isOrdinary_of_onlyScalar hScalar)
      · cases hPure

/-! ### Actions -/

namespace LowerM

variable {α β : Type}

/-- Whether the errors of an action have no other faults than some. -/
def RaisesOnly (Allowed : Fault → Prop) (action : LowerM α) : Prop :=
  ∀ error, action.Raises error → Allowed error.fault

namespace RaisesOnly

variable {Allowed : Fault → Prop}

theorem pure (value : α) : RaisesOnly Allowed (Pure.pure value : LowerM α) :=
  fun _ hRaises => absurd hRaises not_raises_pure

theorem record (name : Token) : RaisesOnly Allowed (LowerM.record name) :=
  fun _ hRaises => absurd hRaises not_raises_record

theorem throw {fault : Fault} (hFault : Allowed fault) :
    RaisesOnly Allowed (MonadExcept.throw { fault } : LowerM α) :=
  fun _ hRaises => raises_throw.mp hRaises ▸ hFault

theorem ofExcept {result : Except Fault α}
    (hResult : ∀ fault, result = .error fault → Allowed fault) :
    RaisesOnly Allowed (LowerM.ofExcept result) := by
  intro error hRaises
  obtain ⟨fault, hFault, rfl⟩ := raises_ofExcept.mp hRaises
  exact hResult fault hFault

theorem bind {action : LowerM α} {next : α → LowerM β} (hAction : RaisesOnly Allowed action)
    (hNext : ∀ value, action.Returns value → RaisesOnly Allowed (next value)) :
    RaisesOnly Allowed (action >>= next) := by
  intro error hRaises
  rcases hRaises.cases_of_bind with hFirst | ⟨value, hReturns, hSecond⟩
  · exact hAction error hFirst
  · exact hNext value hReturns error hSecond

theorem mapM {values : List α} {change : α → LowerM β}
    (hChange : ∀ value, RaisesOnly Allowed (change value)) :
    RaisesOnly Allowed (values.mapM change) := by
  induction values with
  | nil => exact pure []
  | cons value rest ih =>
      rw [List.mapM_cons]
      exact (hChange value).bind fun first _ => ih.bind fun others _ => pure _

theorem within {action : LowerM α} (hAction : RaisesOnly Allowed action) (expr : Expr) :
    RaisesOnly Allowed (LowerM.within expr action) := by
  intro error hRaises
  obtain ⟨inner, hInner, rfl⟩ := raises_within.mp hRaises
  rw [LoweringError.fault_within]
  exact hAction inner hInner

theorem mono {Weaker : Fault → Prop} {action : LowerM α} (hAction : RaisesOnly Allowed action)
    (hAllowed : ∀ fault, Allowed fault → Weaker fault) : RaisesOnly Weaker action :=
  fun error hRaises => hAllowed _ (hAction error hRaises)

end RaisesOnly

end LowerM

open LowerM

namespace Backend

variable {Allowed : Fault → Prop}

/-! ### Leaves -/

section Leaves

variable (backend : Backend) (context : LoweringContext)

theorem isOfLeaf_of_selected {element : Nat} {fault : Fault}
    (hFault : backend.elements.selected element context = .error fault) : fault.IsOfLeaf := by
  unfold BasisTables.selected LoweringContext.selectedComponent at hFault
  rcases cases_of_bind_error hFault with hComponent | ⟨component, -, hPlace⟩
  · split at hComponent <;> cases hComponent
    trivial
  · split at hPlace <;> cases hPlace
    trivial

theorem isOfLeaf_of_contributors {component : Nat} {place : ComponentPlace} {fault : Fault}
    (hFault : backend.dimensions.contributors component place = .error fault) : fault.IsOfLeaf := by
  unfold CellDimensions.contributors at hFault
  split at hFault <;> cases hFault
  trivial

theorem basisTerms_raisesOnly (place : ComponentPlace) (tuple : List Nat)
    (contributor : Contributor) (table : Entry) :
    RaisesOnly Allowed (backend.basisTerms place context tuple contributor table) := by
  refine RaisesOnly.mapM fun basis => RaisesOnly.bind ?_ fun pulled _ => ?_
  · unfold applyPullback
    split
    · exact .pure _
    · exact (RaisesOnly.record _).bind fun inverse _ => .pure _
    · exact (RaisesOnly.record _).bind fun determinant _ =>
        (RaisesOnly.record _).bind fun jacobian _ => .pure _
  · exact (RaisesOnly.mapM fun pair => .record _).bind fun factors _ => .pure _

theorem lowerArgument_raisesOnly (basis : Argument) :
    RaisesOnly Fault.IsOfLeaf (backend.lowerArgument basis context) := by
  refine (RaisesOnly.ofExcept fun fault => isOfLeaf_of_selected backend context).bind
    fun selected _ => ?_
  refine (RaisesOnly.ofExcept fun fault => isOfLeaf_of_contributors backend).bind
    fun contributors _ => ?_
  refine (RaisesOnly.mapM fun pair => ?_).bind fun contributions _ => .pure _
  exact (backend.basisTerms_raisesOnly context _ _ _ _).bind fun terms _ => .pure _

theorem lowerCoefficient_raisesOnly (field : Coefficient) :
    RaisesOnly Fault.IsOfLeaf (backend.lowerCoefficient field context) := by
  refine (RaisesOnly.ofExcept fun fault => isOfLeaf_of_selected backend context).bind
    fun selected _ => RaisesOnly.bind ?_ fun entry _ => .pure _
  refine (RaisesOnly.ofExcept fun fault => isOfLeaf_of_contributors backend).bind
    fun contributors _ => ?_
  exact (RaisesOnly.mapM fun pair => backend.basisTerms_raisesOnly context _ _ _ _).bind
    fun terms _ => .pure _

theorem normalCode_raisesOnly : RaisesOnly Fault.IsOfLeaf (backend.normalCode context) := by
  unfold normalCode
  split
  · exact (RaisesOnly.record _).bind fun name _ => .pure _
  · exact .throw trivial

theorem constantLeaf_raisesOnly (leaf : Constant) :
    RaisesOnly Fault.IsOfLeaf (constantLeaf context (leaf.code backend context)) := by
  unfold constantLeaf
  split
  · cases leaf with
    | normal => exact normalCode_raisesOnly backend context
    | integer value => exact .pure _
    | real value => exact .pure _
    | zero => exact .pure _
    | symbol name => exact .pure _
  · exact .pure _

end Leaves

/-! ### Powers -/

variable {backend : Backend} {context : LoweringContext} {error : LoweringError}

theorem powerOf_raisesOnly {base : Token} {exponent : ExponentForm}
    {exponentCode : LowerM TensorCode} (hUnsupported : Allowed .unsupportedExponent)
    (hExponent : RaisesOnly Allowed exponentCode) :
    RaisesOnly Allowed (backend.powerOf base exponent exponentCode) := by
  intro error hRaises
  rcases raises_powerOf hRaises with ⟨-, rfl⟩ | ⟨-, hCode | ⟨_, -, -, rfl⟩⟩
  · exact hUnsupported
  · exact hExponent error hCode
  · exact hUnsupported

/-- A function that is a scalar is supported as an exponent. -/
theorem powerOf_function_raisesOnly {base : Token} {exponentCode : LowerM TensorCode}
    (hScalar : ∀ code, exponentCode.Returns code → ∃ entry, code = .scalar entry)
    (hExponent : RaisesOnly Allowed exponentCode) :
    RaisesOnly Allowed (backend.powerOf base .function exponentCode) := by
  intro error hRaises
  rcases raises_powerOf hRaises with ⟨hForm, -⟩ | ⟨-, hCode | ⟨code, hReturns, hNone, -⟩⟩
  · cases hForm
  · exact hExponent error hCode
  · obtain ⟨entry, rfl⟩ := hScalar code hReturns
    cases hNone

/-- A power fails with its base, or for what the code of the base is. -/
theorem raises_powerCode (Allowed : Fault → Prop) {exponent : ExponentForm}
    {baseCode exponentCode : LowerM TensorCode} (hScalar : Allowed (.nonScalarOperand "Power"))
    (hZero : ∀ fault, exponent.powerOfZero backend.dialect.identity = .error fault → Allowed fault)
    (hToken : ∀ base, RaisesOnly Allowed (backend.powerOf base exponent exponentCode))
    (hRaises : (backend.powerCode baseCode exponent exponentCode).Raises error) :
    baseCode.Raises error ∨ Allowed error.fault := by
  refine hRaises.cases_of_bind.imp_right ?_
  rintro ⟨code, -, hAfter⟩
  revert hAfter
  split
  · exact RaisesOnly.throw hScalar error
  · exact ((RaisesOnly.ofExcept hZero).bind fun _ _ => .pure _) error
  · exact ((hToken _).bind fun _ _ => .pure _) error

theorem isOrdinary_of_powerOfZero {one : Token} {exponent : ExponentForm} {fault : Fault}
    (hFault : exponent.powerOfZero one = .error fault) : fault.IsOrdinary := by
  unfold ExponentForm.powerOfZero at hFault
  split at hFault <;> cases hFault <;> trivial

theorem powerCode_raisesOnly {exponent : ExponentForm} {baseCode exponentCode : LowerM TensorCode}
    (hOrdinary : ∀ fault : Fault, fault.IsOrdinary → Allowed fault)
    (hBase : RaisesOnly Allowed baseCode) (hExponent : RaisesOnly Allowed exponentCode) :
    RaisesOnly Allowed (backend.powerCode baseCode exponent exponentCode) := by
  intro error hRaises
  refine (raises_powerCode Allowed (hOrdinary _ trivial) (fun fault hFault => ?_) (fun base => ?_)
    hRaises).elim (hBase error) id
  · exact hOrdinary fault (isOrdinary_of_powerOfZero hFault)
  · exact powerOf_raisesOnly (hOrdinary _ trivial) hExponent

/-! ### Expressions -/

theorem lowerAll_raisesOnly {operands : List Expr}
    (hOperands : ∀ operand ∈ operands, RaisesOnly Allowed (backend.lower operand context)) :
    RaisesOnly Allowed (backend.lowerAll operands context) := by
  intro error hRaises
  obtain ⟨before, operand, after, rfl, -, hOperand⟩ := raises_lowerAll hRaises
  exact hOperands operand (by simp) error hOperand

/-- Lowering raises ordinary faults, and those of the products that it comes to. -/
theorem lower_raisesOnly {Admits : Expr → Prop}
    (hOrdinary : ∀ fault : Fault, fault.IsOrdinary → Allowed fault)
    (hProduct : ∀ {operands context codes fault}, (Expr.product operands).Every Admits →
      List.Forall₂ (fun operand code => (backend.lower operand context).Returns code) operands
        codes → TensorCode.product backend.dialect codes = .error fault → Allowed fault)
    {expr : Expr} (hExpr : expr.Every Admits) (context : LoweringContext) :
    RaisesOnly Allowed (backend.lower expr context) := by
  have hLeaf (fault : Fault) (hLeaf : fault.IsOfLeaf) : Allowed fault :=
    hOrdinary fault hLeaf.isOrdinary
  induction expr using Expr.node_induction generalizing context with
  | operation operation operands ih =>
      rw [lower_operation]
      have hOperands := (Expr.every_operation.mp hExpr).2
      refine ((lowerAll_raisesOnly fun operand hMem =>
        ih operand hMem (hOperands operand hMem) context).bind fun codes hCodes => ?_).within _
      refine .ofExcept fun fault hFault => ?_
      rcases Operation.fault_of_combine hFault with hFaultOrdinary | rfl
      · exact hOrdinary fault hFaultOrdinary
      · exact hProduct hExpr (returns_lowerAll.mp hCodes) hFault
  | power base exponent ihBase ihExponent =>
      rw [lower]
      exact (powerCode_raisesOnly hOrdinary (ihBase hExpr.2.1 context)
        (ihExponent hExpr.2.2 context)).within _
  | modifier modifier operand ih =>
      rw [lower_modifier]
      exact (ih (Expr.every_modifier.mp hExpr).2 _).within _
  | argument basis =>
      rw [lower]
      exact ((lowerArgument_raisesOnly backend context basis).mono hLeaf).within _
  | coefficient field =>
      rw [lower]
      exact ((lowerCoefficient_raisesOnly backend context field).mono hLeaf).within _
  | constant leaf =>
      rw [lower_constant]
      exact ((constantLeaf_raisesOnly backend context leaf).mono hLeaf).within _

end Backend

end FormLowering
