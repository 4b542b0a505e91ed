import FormLowering.Proofs.Number.NaturalRanks
import FormLowering.Proofs.Support.Fading
import FormLowering.Proofs.Traversal.Failures

/-!
# Derivatives of sums and of multiples

The directions of derivatives are handed down to the leaves, past every operation.  This
is right for sums, whose derivative is the sum of the derivatives.  In a product it means
that all factors are differentiated at once.  A factor that is constant over the cell
becomes symbolic zero, and with it the product, whatever is multiplied by it.
-/

namespace FormLowering

open LowerM

/-! ### Codes without tokens -/

namespace TensorCode

variable {dialect : Dialect} {code : TensorCode}

/-- Whether all entries of a code are symbolic zero. -/
def Vanishes (code : TensorCode) : Prop :=
  ∀ key entry, (key, entry) ∈ code.entries → entry = none

theorem vanishes_iff : code.Vanishes ↔ ∀ key, ¬code.Holds False key := by
  simp [Vanishes, Holds, Entry.Counts]

theorem vanishes_scalar_none : Vanishes (scalar none) := by
  simp [vanishes_iff, holds_scalar, Entry.Counts]

/-- Codes without tokens are the same if they have the same keys. -/
theorem Vanishes.eq_of_keys {other : TensorCode} (hCode : code.Vanishes) (hOther : other.Vanishes)
    (hKeys : code.keys = other.keys) : code = other := by
  have hEntries {code : TensorCode} (hCode : code.Vanishes) :
      code.entries = code.keys.map fun key => (key, none) := by
    unfold SortedMap.keys
    rw [List.map_map]
    refine (List.map_id' code.entries).symm.trans (List.map_congr_left fun entry hMem => ?_)
    exact Prod.ext rfl (hCode entry.1 entry.2 hMem)
  refine SortedMap.ext ?_
  rw [hEntries hCode, hEntries hOther, hKeys]

/-- A live key of a product has a live key of every operand. -/
theorem exists_holds_of_product {operands : List TensorCode}
    (hCode : product dialect operands = .ok code) {zeros : Prop} {key : Key}
    (hKey : code.Holds zeros key) {operand : TensorCode} (hOperand : operand ∈ operands)
    (hEntries : operand.entries ≠ []) : ∃ own, operand.Holds zeros own := by
  rw [product_eq_product_nonempty] at hCode
  have hNonempty : ∀ operand ∈ operands.filter fun operand => !operand.entries.isEmpty,
      operand.entries ≠ [] := fun operand hMem => by simpa using (List.mem_filter.mp hMem).2
  obtain ⟨chosen, ⟨keys, hKeys, -⟩, -⟩ := (holds_product hNonempty hCode).mp hKey
  have hMem : operand ∈ operands.filter fun operand => !operand.entries.isEmpty :=
    List.mem_filter.mpr ⟨hOperand, by simpa using hEntries⟩
  obtain ⟨own, -, hOwn⟩ := exists_of_mem_left hKeys hMem
  exact ⟨own, hOwn⟩

/-- A product vanishes with any factor. -/
theorem vanishes_product {operands : List TensorCode} (hCode : product dialect operands = .ok code)
    {operand : TensorCode} (hOperand : operand ∈ operands) (hEntries : operand.entries ≠ [])
    (hVanishes : operand.Vanishes) : code.Vanishes := by
  refine vanishes_iff.mpr fun key hKey => ?_
  obtain ⟨own, hOwn⟩ := exists_holds_of_product hCode hKey hOperand hEntries
  exact vanishes_iff.mp hVanishes own hOwn

/-- A multiple by a token vanishes only if what is multiplied does.  A code without entries
does not count as a factor. -/
theorem vanishes_multiple_iff {token : Token} {operand : TensorCode}
    (hCode : product dialect [scalar (some token), operand] = .ok code) :
    code.Vanishes ↔ operand.entries ≠ [] ∧ operand.Vanishes := by
  constructor
  · intro hVanishes
    have hScalar : (scalar (some token)).Holds False [] := holds_scalar.mpr ⟨rfl, .inr rfl⟩
    by_cases hEntries : operand.entries = []
    · -- What is left of the product is the token.
      have hOnly : [scalar (some token), operand].filter (fun operand => !operand.entries.isEmpty) =
          [scalar (some token)] := by
        simp [hEntries, scalar, SortedMap.singleton]
      rw [product_eq_product_nonempty, hOnly] at hCode
      have hLive := (holds_product (List.forall_mem_singleton.mpr (List.cons_ne_nil _ _)) hCode).mpr
        ⟨[], ⟨[[]], .cons hScalar .nil, rfl⟩, rfl⟩
      exact absurd hLive (vanishes_iff.mp hVanishes _)
    · refine ⟨hEntries, vanishes_iff.mpr fun key hKey => ?_⟩
      have hNonempty : ∀ factor ∈ [scalar (some token), operand], factor.entries ≠ [] :=
        List.forall_mem_cons.mpr ⟨List.cons_ne_nil _ _, List.forall_mem_singleton.mpr hEntries⟩
      have hLive := (holds_product hNonempty hCode).mpr
        ⟨key, ⟨[[], key], .cons hScalar (.cons hKey .nil), by simp⟩, rfl⟩
      exact vanishes_iff.mp hVanishes _ hLive
  · rintro ⟨hEntries, hVanishes⟩
    exact vanishes_product hCode (by simp) hEntries hVanishes

end TensorCode

/-! ### Constants -/

/-- Whether an expression is a symbol or a literal that is not zero. -/
def Expr.IsCellConstant : Expr → Prop
  | .integer value => value ≠ 0
  | .real value => value.isZero = false
  | .symbol _ => True
  | _ => False

namespace Backend

variable {backend : Backend} {context : LoweringContext}

theorem literalCode_eq {value : Binary64} (hValue : value.isZero = false) :
    backend.literalCode value = .scalar (some (backend.dialect.literal value)) := by
  rw [literalCode, hValue]
  rfl

/-- A constant is a leaf, with a token where no derivatives are taken. -/
theorem exists_leaf_of_constant (backend : Backend) (context : LoweringContext) {constant : Expr}
    (hConstant : constant.IsCellConstant) :
    ∃ (leaf : Constant) (token : Token), constant = leaf.expr ∧
      leaf.code backend context = pure (.scalar (some token)) := by
  cases constant with
  | integer value =>
      have hZero : (Binary64.ofInt value).isZero = false := by
        rw [Binary64.isZero_ofInt]
        exact beq_false_of_ne hConstant
      exact ⟨.integer value, _, rfl, congrArg pure (literalCode_eq hZero)⟩
  | real value => exact ⟨.real value, _, rfl, congrArg pure (literalCode_eq hConstant)⟩
  | symbol name => exact ⟨.symbol name, name, rfl, rfl⟩
  | _ => exact hConstant.elim

/-- A constant is a token, or symbolic zero under derivatives. -/
theorem exists_entry_of_constant {constant : Expr} (hConstant : constant.IsCellConstant)
    {code : TensorCode} (hReturns : (backend.lower constant context).Returns code) :
    ∃ entry : Entry, code = .scalar entry ∧ (entry = none ↔ context.derivatives ≠ []) := by
  obtain ⟨leaf, token, rfl, hCode⟩ := exists_leaf_of_constant backend context hConstant
  rw [returns_constant, hCode, returns_pure] at hReturns
  split at hReturns
  · rename_i hEmpty
    exact ⟨some token, hReturns.symm, by simpa using hEmpty⟩
  · rename_i hDerivatives
    exact ⟨none, hReturns, by simpa using hDerivatives⟩

/-! ### Sums -/

theorem lower_derivative (operand : Expr) (direction : Nat) :
    backend.lower (.derivative operand direction) context =
      backend.lower operand (context.differentiate direction) :=
  backend.lower_modified context (.differentiate direction) operand

theorem lowerAll_derivatives (operands : List Expr) (direction : Nat) :
    backend.lowerAll (operands.map fun operand => .derivative operand direction) context =
      backend.lowerAll operands (context.differentiate direction) := by
  induction operands with
  | nil => rw [List.map_nil, lowerAll, lowerAll]
  | cons operand rest ih => rw [List.map_cons, lowerAll, lowerAll, ih, lower_derivative]

/-- A sum fails only if an operand does, so no error names it. -/
theorem lower_sum (operands : List Expr) :
    backend.lower (.sum operands) context = (do
      ofExcept (TensorCode.sum backend.dialect (← backend.lowerAll operands context))) := by
  refine (backend.lower_operation context .sum operands).trans (within_eq_self fun error hRaises => ?_)
  rcases hRaises.cases_of_bind with hOperands | ⟨codes, -, hSum⟩
  · obtain ⟨_, operand, _, _, _, hOperand⟩ := raises_lowerAll hOperands
    exact exists_context_of_raises hOperand
  · obtain ⟨fault, hFault, -⟩ := raises_ofExcept.mp hSum
    obtain ⟨code, hCode⟩ := TensorCode.exists_sum backend.dialect codes
    exact nomatch hCode.symm.trans hFault

/-- The derivative of a sum is the sum of the derivatives. -/
theorem lower_derivative_sum (operands : List Expr) (direction : Nat) :
    backend.lower (.derivative (.sum operands) direction) context =
      backend.lower (.sum (operands.map fun operand => .derivative operand direction)) context := by
  rw [lower_derivative, lower_sum, lower_sum, lowerAll_derivatives]

/-! ### Multiples -/

theorem returns_pair (operation : Operation) {first second : Expr} {code : TensorCode}
    (hReturns : (backend.lower (operation.node [first, second]) context).Returns code) :
    ∃ firstCode secondCode, (backend.lower first context).Returns firstCode ∧
      (backend.lower second context).Returns secondCode ∧
        operation.combine backend.dialect [firstCode, secondCode] = .ok code := by
  obtain ⟨codes, hCodes, hCode⟩ := returns_operation.mp hReturns
  obtain ⟨firstCode, _, hFirst, hRest, rfl⟩ := List.forall₂_cons_left_iff.mp hCodes
  obtain ⟨secondCode, _, hSecond, hNone, rfl⟩ := List.forall₂_cons_left_iff.mp hRest
  cases hNone
  exact ⟨firstCode, secondCode, hFirst, hSecond, hCode⟩

/-- The derivative of a sum is the sum of the derivatives.  The derivative of a multiple by
a constant is symbolic zero, under the keys of the multiple of the derivative.  The two are
the same only where this vanishes too, below other derivatives or if the derivative that is
multiplied has entries, but no tokens. -/
theorem derivative_of_sum_and_multiple (backend : Backend) (context : LoweringContext)
    (direction : Nat) :
    (∀ (operands : List Expr) (names : GeometryNames),
      (backend.lower (.derivative (.sum operands) direction) context).runWith names =
        (backend.lower (.sum (operands.map fun operand => .derivative operand direction))
          context).runWith names) ∧
      ∀ (constant expr : Expr) (names names' recorded recorded' : GeometryNames)
        (code code' : TensorCode), constant.IsCellConstant →
        (backend.lower (.derivative (.product [constant, expr]) direction) context).runWith names =
          (.ok code, recorded) →
        (backend.lower (.product [constant, .derivative expr direction]) context).runWith names' =
          (.ok code', recorded') →
        code.keys = code'.keys ∧ code.Vanishes ∧
          (code = code' ↔ context.derivatives ≠ [] ∨ ∃ operand,
            (backend.lower (.derivative expr direction) context).Returns operand ∧
              operand.entries ≠ [] ∧ operand.Vanishes) := by
  refine ⟨fun operands names => by rw [lower_derivative_sum], ?_⟩
  intro constant expr names names' recorded recorded' code code' hConstant hRun hRun'
  have hReturns : (backend.lower (.derivative (.product [constant, expr]) direction)
      context).Returns code := returns_iff.mpr ⟨names, by rw [hRun]⟩
  have hReturns' : (backend.lower (.product [constant, .derivative expr direction])
      context).Returns code' := returns_iff.mpr ⟨names', by rw [hRun']⟩
  rw [lower_derivative] at hReturns
  obtain ⟨_, exprCode, hZero, hExpr, hCode⟩ := returns_pair .product hReturns
  obtain ⟨_, exprCode', hFactor, hExpr', hCode'⟩ := returns_pair .product hReturns'
  rw [lower_derivative] at hExpr'
  -- On both sides the same derivative is multiplied.
  obtain rfl := (backend.lower_writeOnly expr _).returns_unique hExpr hExpr'
  obtain ⟨entry, rfl, hEntry⟩ := exists_entry_of_constant hConstant hZero
  obtain ⟨entry', rfl, hEntry'⟩ := exists_entry_of_constant hConstant hFactor
  obtain rfl : entry = none := hEntry.mpr (List.append_ne_nil_of_right_ne_nil _ (List.cons_ne_nil _ _))
  have hFades : code'.FadesTo code := .combine .product
    (.cons (.scalar fun _ => rfl) (.cons (.refl exprCode) .nil)) hCode' hCode
  have hVanishes : code.Vanishes := TensorCode.vanishes_product hCode List.mem_cons_self
    (List.cons_ne_nil _ _) TensorCode.vanishes_scalar_none
  refine ⟨hFades.keys_eq.symm, hVanishes, ?_⟩
  cases entry' with
  | none => exact iff_of_true (Except.ok.inj (hCode.symm.trans hCode')) (.inl (hEntry'.mp rfl))
  | some token =>
      have hEmpty : ¬context.derivatives ≠ [] := fun hSome => nomatch hEntry'.mpr hSome
      rw [or_iff_right hEmpty]
      calc code = code'
          ↔ code'.Vanishes :=
            ⟨fun hEqual => hEqual ▸ hVanishes, fun hOther => hVanishes.eq_of_keys hOther
              hFades.keys_eq.symm⟩
        _ ↔ exprCode.entries ≠ [] ∧ exprCode.Vanishes := TensorCode.vanishes_multiple_iff hCode'
        _ ↔ _ := by
            rw [lower_derivative]
            refine ⟨fun hOwn => ⟨exprCode, hExpr, hOwn⟩, ?_⟩
            rintro ⟨operand, hOperand, hOwn⟩
            obtain rfl := (backend.lower_writeOnly _ _).returns_unique hExpr hOperand
            exact hOwn

/-- The derivative of a coefficient that is doubled vanishes, with the keys of twice the
derivative. -/
theorem derivative_of_sum_and_multiple_doubled :
    let backend : Backend := ⟨.cpp none, ElementCatalog.tables ⟨#[.lagrange 1], []⟩, {}⟩
    let two : Expr := .real (.ofNat 2)
    let doubled : Expr := .derivative (.product [two, .coefficient ⟨0, 0⟩]) 0
    let multiple : Expr := .product [two, .derivative (.coefficient ⟨0, 0⟩) 0]
    let code' : TensorCode := .scalar (some "2.0*(K_00*F0_C0_D10 + K_10*F0_C0_D01)")
    let names : GeometryNames := .ofList ["K_00", "K_10"]
    (backend.lower doubled {}).runWith ∅ = (.ok (.scalar none), names) ∧
      (backend.lower multiple {}).runWith ∅ = (.ok code', names) ∧
        (TensorCode.scalar none).keys = code'.keys ∧ (TensorCode.scalar none).Vanishes := by
  intro backend two doubled multiple code' names
  have hRun : (backend.lower doubled {}).runWith ∅ = (.ok (.scalar none), names) := by
    decide +kernel
  have hRun' : (backend.lower multiple {}).runWith ∅ = (.ok code', names) := by
    decide +kernel
  have hConstant : two.IsCellConstant := by
    show (Binary64.ofNat 2).isZero = false
    decide +kernel
  obtain ⟨hKeys, hVanishes, -⟩ := (derivative_of_sum_and_multiple backend {} 0).2 two
    (.coefficient ⟨0, 0⟩) ∅ ∅ names names _ _ hConstant hRun hRun'
  exact ⟨hRun, hRun', hKeys, hVanishes⟩

/-- The derivative of twice a coefficient is not twice its derivative. -/
theorem derivative_of_multiple_ne_multiple_of_derivative :
    let backend : Backend := ⟨.cpp none, ElementCatalog.tables ⟨#[.lagrange 1], []⟩, {}⟩
    let two : Expr := .real (.ofNat 2)
    ∃ code code', two.IsCellConstant ∧
      ((backend.lower (.derivative (.product [two, .coefficient ⟨0, 0⟩]) 0) {}).runWith ∅).1 =
        .ok code ∧
      ((backend.lower (.product [two, .derivative (.coefficient ⟨0, 0⟩) 0]) {}).runWith ∅).1 =
        .ok code' ∧ code ≠ code' := by
  intro backend two
  refine ⟨.scalar none, .scalar (some "2.0*(K_00*F0_C0_D10 + K_10*F0_C0_D01)"), ?_,
    by decide +kernel, by decide +kernel, by decide⟩
  show (Binary64.ofNat 2).isZero = false
  decide +kernel

end Backend

end FormLowering
