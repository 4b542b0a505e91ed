import FormLowering.Proofs.Traversal.Outcomes

/-!
# How actions fail

An action *raises* an error if it fails with it.  A write-only action either returns or
raises, whatever was recorded before, so what a node raises is decided by what its
operands return and raise: the error of the first operand that fails, or a fault of its
own with the text of the node attached to it.
-/

namespace FormLowering

namespace LoweringError

/-- An expression is attached only to an error that has none. -/
theorem within_of_context {error : LoweringError} {text : String}
    (hContext : error.context = some text) (expr : Expr) : error.within expr = error := by
  rw [within, hContext]

theorem within_of_no_context {error : LoweringError} (hContext : error.context = none)
    (expr : Expr) : error.within expr = ⟨error.fault, some expr.render⟩ := by
  rw [within, hContext]

theorem fault_within (error : LoweringError) (expr : Expr) :
    (error.within expr).fault = error.fault := by
  unfold within
  split <;> rfl

theorem exists_context_within (error : LoweringError) (expr : Expr) :
    ∃ text, (error.within expr).context = some text := by
  cases hContext : error.context with
  | none => exact ⟨expr.render, by rw [within_of_no_context hContext]⟩
  | some text => exact ⟨text, by rw [within_of_context hContext, hContext]⟩

end LoweringError

namespace LowerM

variable {α β : Type}

/-! ### Raising -/

/-- Whether an action fails with an error, from some names. -/
def Raises (action : LowerM α) (error : LoweringError) : Prop :=
  ∃ names, (action.runWith names).1 = .error error

namespace WriteOnly

variable {action : LowerM α} {error : LoweringError}

/-- A write-only action that raises an error does so on every set of names. -/
theorem runWith_of_raises (hAction : WriteOnly action) (hRaises : action.Raises error)
    (names : GeometryNames) : (action.runWith names).1 = .error error := by
  obtain ⟨other, hRun⟩ := hRaises
  rw [hAction.runWith_eq] at hRun ⊢
  exact hRun

theorem returns_unique {value other : α} (hAction : WriteOnly action)
    (hValue : action.Returns value) (hOther : action.Returns other) : value = other :=
  Except.ok.inj ((hAction.returns_iff.mp hValue).symm.trans (hAction.returns_iff.mp hOther))

end WriteOnly

@[simp]
theorem not_raises_pure {value : α} {error : LoweringError} :
    ¬(pure value : LowerM α).Raises error := by
  simp [Raises, runWith_pure]

@[simp]
theorem raises_throw {error raised : LoweringError} :
    (throw error : LowerM α).Raises raised ↔ error = raised := by
  simp [Raises, runWith_throw]

@[simp]
theorem not_raises_record {name : Token} {error : LoweringError} : ¬(record name).Raises error := by
  simp [Raises, runWith_record]

@[simp]
theorem raises_ofExcept {result : Except Fault α} {error : LoweringError} :
    (ofExcept result).Raises error ↔ ∃ fault, result = .error fault ∧ error = { fault } := by
  simp only [Raises, runWith_ofExcept, exists_const]
  cases result <;> simp [Except.mapError, eq_comm]

theorem raises_within {expr : Expr} {action : LowerM α} {error : LoweringError} :
    (within expr action).Raises error ↔ ∃ inner, action.Raises inner ∧ error = inner.within expr := by
  simp only [Raises, runWith_within]
  constructor
  · rintro ⟨names, hRun⟩
    cases hAction : (action.runWith names).1 with
    | ok value =>
        rw [hAction] at hRun
        contradiction
    | error inner =>
        rw [hAction] at hRun
        cases hRun
        exact ⟨inner, ⟨names, hAction⟩, rfl⟩
  · rintro ⟨inner, ⟨names, hAction⟩, rfl⟩
    exact ⟨names, by rw [hAction]; rfl⟩

/-- Actions with the same runs are the same. -/
theorem ext_runWith {left right : LowerM α}
    (hRuns : ∀ names, left.runWith names = right.runWith names) : left = right := by
  funext names
  have hRun := hRuns names
  unfold runWith EStateM.run at hRun
  cases hLeft : left names <;> cases hRight : right names <;> rw [hLeft, hRight] at hRun <;>
    cases hRun <;> rfl

/-- Attaching an expression does nothing if all errors have one. -/
theorem within_eq_self {action : LowerM α} {expr : Expr}
    (hErrors : ∀ error, action.Raises error → ∃ text, error.context = some text) :
    within expr action = action := by
  refine ext_runWith fun names => ?_
  rw [runWith_within]
  refine Prod.ext ?_ rfl
  cases hRun : (action.runWith names).1 with
  | ok value => rfl
  | error error =>
      obtain ⟨text, hContext⟩ := hErrors error ⟨names, hRun⟩
      exact congrArg Except.error (LoweringError.within_of_context hContext expr)

/-- If steps fail, one of them has, and those before it have returned. -/
theorem Raises.cases_of_bind {action : LowerM α} {next : α → LowerM β} {error : LoweringError}
    (hRaises : (action >>= next).Raises error) :
    action.Raises error ∨ ∃ value, action.Returns value ∧ (next value).Raises error := by
  obtain ⟨names, hRun⟩ := hRaises
  rw [runWith_bind] at hRun
  split at hRun
  · rename_i value recorded hFirst
    exact .inr ⟨value, returns_iff.mpr ⟨names, by rw [hFirst]⟩, recorded, hRun⟩
  · rename_i raised recorded hFirst
    cases hRun
    exact .inl ⟨names, by rw [hFirst]⟩

/-! ### Errors without an expression -/

/-- Whether no expression is attached to the errors of an action. -/
def Bare (action : LowerM α) : Prop :=
  ∀ error, action.Raises error → error.context = none

namespace Bare

theorem pure (value : α) : Bare (Pure.pure value : LowerM α) :=
  fun _ hRaises => absurd hRaises not_raises_pure

theorem throw (fault : Fault) : Bare (MonadExcept.throw { fault } : LowerM α) :=
  fun _ hRaises => raises_throw.mp hRaises ▸ rfl

theorem record (name : Token) : Bare (LowerM.record name) :=
  fun _ hRaises => absurd hRaises not_raises_record

theorem ofExcept (result : Except Fault α) : Bare (LowerM.ofExcept result) := by
  intro error hRaises
  obtain ⟨fault, -, rfl⟩ := raises_ofExcept.mp hRaises
  rfl

theorem bind {action : LowerM α} {next : α → LowerM β} (hAction : Bare action)
    (hNext : ∀ value, Bare (next value)) : Bare (action >>= next) := by
  intro error hRaises
  rcases hRaises.cases_of_bind with hFirst | ⟨value, -, hSecond⟩
  · exact hAction error hFirst
  · exact hNext value error hSecond

theorem mapM {values : List α} {change : α → LowerM β} (hChange : ∀ value, Bare (change value)) :
    Bare (values.mapM change) := by
  induction values with
  | nil => exact pure []
  | cons value rest ih =>
      rw [List.mapM_cons]
      exact (hChange value).bind fun first => ih.bind fun others => pure _

/-- The text of an expression is attached to the errors of its own action. -/
theorem raises_within {expr : Expr} {action : LowerM α} (hAction : Bare action)
    {error : LoweringError} (hRaises : (within expr action).Raises error) :
    error.context = some expr.render := by
  obtain ⟨inner, hInner, rfl⟩ := LowerM.raises_within.mp hRaises
  rw [LoweringError.within_of_no_context (hAction inner hInner)]

end Bare

end LowerM

open LowerM

/-! ### Nodes -/

namespace Backend

variable {backend : Backend} {context : LoweringContext} {error : LoweringError}

theorem exists_context_of_raises {expr : Expr} (hRaises : (backend.lower expr context).Raises error) :
    ∃ text, error.context = some text := by
  unfold lower at hRaises
  obtain ⟨inner, -, rfl⟩ := raises_within.mp hRaises
  exact inner.exists_context_within expr

/-- Nothing is attached to an error that comes from an operand. -/
theorem within_of_raises {expr : Expr} (hRaises : (backend.lower expr context).Raises error)
    (node : Expr) : error.within node = error := by
  obtain ⟨text, hContext⟩ := exists_context_of_raises hRaises
  exact LoweringError.within_of_context hContext node

/-- A modifier does nothing but change the context. -/
theorem lower_modified (backend : Backend) (context : LoweringContext) (modifier : Modifier)
    (operand : Expr) :
    backend.lower (modifier.node operand) context =
      backend.lower operand (modifier.apply context) := by
  rw [lower_modifier]
  exact within_eq_self fun _ => exists_context_of_raises

/-- Operands fail with the first that fails. -/
theorem raises_lowerAll {operands : List Expr}
    (hRaises : (backend.lowerAll operands context).Raises error) :
    ∃ before operand after, operands = before ++ operand :: after ∧
      (∀ earlier ∈ before, ∃ code, (backend.lower earlier context).Returns code) ∧
        (backend.lower operand context).Raises error := by
  induction operands with
  | nil =>
      rw [lowerAll] at hRaises
      exact absurd hRaises not_raises_pure
  | cons operand rest ih =>
      rw [lowerAll] at hRaises
      rcases hRaises.cases_of_bind with hFirst | ⟨code, hReturns, hRaises⟩
      · exact ⟨[], operand, rest, rfl, by simp, hFirst⟩
      · rcases hRaises.cases_of_bind with hRest | ⟨codes, -, hPure⟩
        · obtain ⟨before, other, after, rfl, hBefore, hOther⟩ := ih hRest
          exact ⟨operand :: before, other, after, rfl,
            List.forall_mem_cons.mpr ⟨⟨code, hReturns⟩, hBefore⟩, hOther⟩
        · exact absurd hPure not_raises_pure

/-- An operation fails with its first operand that fails, or if its operands cannot be
combined. -/
theorem raises_operation {operation : Operation} {operands : List Expr}
    (hRaises : (backend.lower (operation.node operands) context).Raises error) :
    (∃ before operand after, operands = before ++ operand :: after ∧
      (∀ earlier ∈ before, ∃ code, (backend.lower earlier context).Returns code) ∧
        (backend.lower operand context).Raises error) ∨
      ∃ codes fault, List.Forall₂ (fun operand code => (backend.lower operand context).Returns code)
          operands codes ∧ operation.combine backend.dialect codes = .error fault ∧
            error = ⟨fault, some (operation.node operands).render⟩ := by
  rw [lower_operation] at hRaises
  obtain ⟨inner, hInner, rfl⟩ := raises_within.mp hRaises
  rcases hInner.cases_of_bind with hOperands | ⟨codes, hCodes, hCombine⟩
  · obtain ⟨before, operand, after, hSplit, hBefore, hOperand⟩ := raises_lowerAll hOperands
    rw [within_of_raises hOperand]
    exact .inl ⟨before, operand, after, hSplit, hBefore, hOperand⟩
  · obtain ⟨fault, hFault, rfl⟩ := raises_ofExcept.mp hCombine
    exact .inr ⟨codes, fault, returns_lowerAll.mp hCodes, hFault, rfl⟩

/-! ### Powers -/

theorem raises_powerOf {base : Token} {exponent : ExponentForm} {exponentCode : LowerM TensorCode}
    (hRaises : (backend.powerOf base exponent exponentCode).Raises error) :
    exponent = .unsupported ∧ error = { fault := .unsupportedExponent } ∨
      exponent = .function ∧ (exponentCode.Raises error ∨ ∃ code, exponentCode.Returns code ∧
        code.asScalar? = none ∧ error = { fault := .unsupportedExponent }) := by
  cases exponent with
  | integer value => exact absurd hRaises not_raises_pure
  | real value => exact absurd hRaises not_raises_pure
  | function =>
      refine .inr ⟨rfl, ?_⟩
      rcases hRaises.cases_of_bind with hCode | ⟨code, hReturns, hAfter⟩
      · exact .inl hCode
      · split at hAfter
        · exact absurd hAfter not_raises_pure
        · exact absurd hAfter not_raises_pure
        · rename_i hScalar
          exact .inr ⟨code, hReturns, hScalar, (raises_throw.mp hAfter).symm⟩
  | unsupported => exact .inl ⟨rfl, (raises_throw.mp hRaises).symm⟩

/-- A power fails with its base, or else for what the code of the base is. -/
theorem raises_power {base exponent : Expr}
    (hRaises : (backend.lower (.power base exponent) context).Raises error) :
    (backend.lower base context).Raises error ∨
      ∃ baseCode inner, (backend.lower base context).Returns baseCode ∧
        error = inner.within (.power base exponent) ∧
          (baseCode.asScalar? = none ∧ inner = { fault := .nonScalarOperand "Power" } ∨
            (∃ fault, baseCode.asScalar? = some none ∧ inner = { fault } ∧
              exponent.exponentForm.powerOfZero backend.dialect.identity = .error fault) ∨
            ∃ token, baseCode.asScalar? = some (some token) ∧
              (backend.powerOf token exponent.exponentForm
                (backend.lower exponent context)).Raises inner) := by
  rw [lower] at hRaises
  obtain ⟨inner, hInner, rfl⟩ := raises_within.mp hRaises
  rcases hInner.cases_of_bind with hBase | ⟨baseCode, hBase, hAfter⟩
  · rw [within_of_raises hBase]
    exact .inl hBase
  · refine .inr ⟨baseCode, inner, hBase, rfl, ?_⟩
    rcases hEntry : baseCode.asScalar? with _ | _ | token <;> rw [hEntry] at hAfter
    · exact .inl ⟨rfl, (raises_throw.mp hAfter).symm⟩
    · rcases hAfter.cases_of_bind with hZero | ⟨_, -, hPure⟩
      · obtain ⟨fault, hFault, rfl⟩ := raises_ofExcept.mp hZero
        exact .inr (.inl ⟨fault, rfl, rfl, hFault⟩)
      · exact absurd hPure not_raises_pure
    · rcases hAfter.cases_of_bind with hPower | ⟨_, -, hPure⟩
      · exact .inr (.inr ⟨token, rfl, hPower⟩)
      · exact absurd hPure not_raises_pure

/-! ### Leaves -/

variable (backend context)

theorem normalCode_bare : Bare (backend.normalCode context) := by
  unfold normalCode
  split
  · exact (Bare.record _).bind fun name => .pure _
  · exact .throw _

theorem applyPullback_bare (pullback : Pullback) (component : Nat) (side : Restriction)
    (basis : Token) : Bare (backend.applyPullback pullback component side basis) := by
  cases pullback with
  | identity => exact .pure basis
  | covariant direction => exact (Bare.record _).bind fun inverse => .pure _
  | contravariant direction =>
      exact (Bare.record _).bind fun determinant => (Bare.record _).bind fun jacobian => .pure _

theorem basisTerms_bare (place : ComponentPlace) (tuple : List Nat) (contributor : Contributor)
    (table : Entry) : Bare (backend.basisTerms place context tuple contributor table) := by
  refine Bare.mapM fun basis => (backend.applyPullback_bare _ _ _ basis).bind fun pulled => ?_
  exact (Bare.mapM fun pair => .record _).bind fun factors => .pure _

theorem lowerArgument_bare (basis : Argument) : Bare (backend.lowerArgument basis context) := by
  refine (Bare.ofExcept _).bind fun selected => (Bare.ofExcept _).bind fun contributors => ?_
  refine (Bare.mapM fun pair => ?_).bind fun contributions => .pure _
  exact (backend.basisTerms_bare context _ _ _ _).bind fun terms => .pure _

theorem lowerCoefficient_bare (field : Coefficient) :
    Bare (backend.lowerCoefficient field context) := by
  refine (Bare.ofExcept _).bind fun selected => Bare.bind ?_ fun entry => .pure _
  refine (Bare.ofExcept _).bind fun contributors => ?_
  exact (Bare.mapM fun pair => backend.basisTerms_bare context _ _ _ _).bind fun terms => .pure _

theorem constantLeaf_bare (leaf : Constant) :
    Bare (constantLeaf context (leaf.code backend context)) := by
  unfold constantLeaf
  split
  · cases leaf with
    | normal => exact backend.normalCode_bare context
    | integer value => exact .pure _
    | real value => exact .pure _
    | zero => exact .pure _
    | symbol name => exact .pure _
  · exact .pure _

end Backend

end FormLowering
