import FormLowering.Integrand
import FormLowering.Proofs.Support.Fading
import FormLowering.Proofs.Traversal.Failures

/-!
# Zero factors

A product is zero if and only if one of its factors is: a scalar that is symbolic zero, or
a tensor with entries that are all symbolic zero.  It does not matter where the factor
stands, and the integrand of a product is zero by the same rule.

A factor without any entries is no zero factor.  It is the code of a sum without operands,
and it is left out of the product.
-/

namespace FormLowering

open LowerM

namespace TensorCode

variable {dialect : Dialect} {zeros : Prop} {code : TensorCode}

/-- Keys can be concatenated if every operand has one. -/
theorem exists_concatenates_iff {operands : List TensorCode} :
    (∃ key, Concatenates zeros operands key) ↔
      ∀ operand ∈ operands, ∃ key, operand.Holds zeros key := by
  induction operands with
  | nil => simp [concatenates_nil]
  | cons operand rest ih =>
      simp only [concatenates_cons, List.forall_mem_cons, ← ih]
      constructor
      · rintro ⟨_, first, others, hFirst, hOthers, rfl⟩
        exact ⟨⟨first, hFirst⟩, others, hOthers⟩
      · rintro ⟨⟨first, hFirst⟩, others, hOthers⟩
        exact ⟨first ++ others, first, others, hFirst, hOthers, rfl⟩

theorem isEmpty_nonzero_iff : code.nonzero.isEmpty ↔ ¬∃ key, code.Holds False key := by
  simp only [holds_false, SortedMap.keys, SortedMap.isEmpty, List.isEmpty_iff]
  rw [not_exists, ← List.map_eq_nil_iff (f := Prod.fst), List.eq_nil_iff_forall_not_mem]

/-- A product is zero if one of its operands has entries and all of them are symbolic zero,
and not otherwise. -/
theorem isEmpty_nonzero_product {operands : List TensorCode}
    (hCode : product dialect operands = .ok code) :
    code.nonzero.isEmpty ↔
      ∃ operand ∈ operands, operand.entries ≠ [] ∧ operand.nonzero.isEmpty := by
  rw [product_eq_product_nonempty] at hCode
  have hNonempty : ∀ operand ∈ operands.filter fun operand => !operand.entries.isEmpty,
      operand.entries ≠ [] := by
    intro operand hOperand
    simpa using (List.mem_filter.mp hOperand).2
  -- Only operands with entries contribute keys, and the product is live if all of these are.
  have hLive : (∃ key, code.Holds False key) ↔
      ∀ operand ∈ operands, operand.entries ≠ [] → ∃ key, operand.Holds False key := by
    calc (∃ key, code.Holds False key)
        ↔ ∃ chosen, Concatenates False (operands.filter fun operand => !operand.entries.isEmpty)
            chosen := by simp [holds_product hNonempty hCode]
      _ ↔ _ := by simp [exists_concatenates_iff]
  rw [isEmpty_nonzero_iff, hLive]
  simp only [isEmpty_nonzero_iff, not_forall, exists_prop]

end TensorCode

/-! ### Integrands -/

namespace Backend

variable {backend : Backend} {scaling : QuadratureScaling} {expr : Expr} {whole : Integrand}
  {lowered : LoweredExpr}

theorem returns_of_run (hRun : backend.run expr = .ok lowered) :
    (backend.lower expr {}).Returns lowered.code := by
  rw [(backend.lower_writeOnly expr {}).returns_iff]
  unfold run at hRun
  split at hRun
  · rename_i hRun'
    cases hRun
    rw [hRun']
  · cases hRun

theorem exists_run_of_returns {code : TensorCode} (hCode : (backend.lower expr {}).Returns code) :
    ∃ lowered, backend.run expr = .ok lowered ∧ lowered.code = code := by
  rw [(backend.lower_writeOnly expr {}).returns_iff] at hCode
  unfold run
  generalize (backend.lower expr {}).runWith ∅ = ran at hCode
  obtain ⟨answer, geometry⟩ := ran
  subst hCode
  exact ⟨⟨code, geometry⟩, rfl, rfl⟩

/-- An integrand is zero if the code of the expression is. -/
theorem integrand_of_run (scaling : QuadratureScaling) (hRun : backend.run expr = .ok lowered) :
    ∃ whole, backend.integrand scaling expr = .ok whole ∧
      (whole.isZero ↔ lowered.code.nonzero.isEmpty) := by
  rw [integrand, hRun]
  refine ⟨_, rfl, ?_⟩
  simp [Integrand.isZero, SortedMap.isEmpty, SortedMap.mapValues]

theorem exists_run_of_integrand (hWhole : backend.integrand scaling expr = .ok whole) :
    ∃ lowered, backend.run expr = .ok lowered := by
  unfold integrand at hWhole
  split at hWhole
  · exact ⟨_, ‹_›⟩
  · cases hWhole

/-- A product of expressions is the product of their codes. -/
theorem returns_product {factors : List Expr} {code : TensorCode} :
    (backend.lower (.product factors) {}).Returns code ↔
      ∃ codes, List.Forall₂ (fun factor code => (backend.lower factor {}).Returns code) factors
          codes ∧ TensorCode.product backend.dialect codes = .ok code :=
  @returns_operation backend {} code .product factors

/-- The integrand of a product of expressions without empty tokens is found. -/
theorem exists_integrand_product {factors : List Expr}
    (hFactors : ∀ factor ∈ factors, ∃ lowered, backend.run factor = .ok lowered ∧
      lowered.code.AllTokens (· ≠ "")) :
    ∃ whole, backend.integrand scaling (.product factors) = .ok whole := by
  have hCodes : ∃ codes, List.Forall₂ (fun factor code => (backend.lower factor {}).Returns code)
      factors codes ∧ ∀ code ∈ codes, code.AllTokens (· ≠ "") := by
    induction factors with
    | nil => exact ⟨[], .nil, by simp⟩
    | cons factor rest ih =>
        rw [List.forall_mem_cons] at hFactors
        obtain ⟨⟨lowered, hRun, hTokens⟩, hRest⟩ := hFactors
        obtain ⟨codes, hReturns, hAll⟩ := ih hRest
        exact ⟨lowered.code :: codes, .cons (returns_of_run hRun) hReturns,
          List.forall_mem_cons.mpr ⟨hTokens, hAll⟩⟩
  obtain ⟨codes, hReturns, hTokens⟩ := hCodes
  obtain ⟨code, hCode⟩ := TensorCode.exists_product backend.dialect hTokens
  obtain ⟨lowered, hRun, -⟩ := exists_run_of_returns (returns_product.mpr ⟨codes, hReturns, hCode⟩)
  obtain ⟨whole, hWhole, -⟩ := integrand_of_run scaling hRun
  exact ⟨whole, hWhole⟩

/-- The integrand of a product is zero if that of one of its factors is, and the factor has
entries. -/
theorem isZero_integrand_product {factors : List Expr}
    (hWhole : backend.integrand scaling (.product factors) = .ok whole) :
    whole.isZero ↔ ∃ factor ∈ factors, ∃ lowered own, backend.run factor = .ok lowered ∧
      backend.integrand scaling factor = .ok own ∧ lowered.code.entries ≠ [] ∧ own.isZero := by
  obtain ⟨product, hRun⟩ := exists_run_of_integrand hWhole
  obtain ⟨_, hSame, hZero⟩ := integrand_of_run scaling hRun
  cases hWhole.symm.trans hSame
  obtain ⟨codes, hCodes, hCode⟩ := returns_product.mp (returns_of_run hRun)
  rw [hZero, TensorCode.isEmpty_nonzero_product hCode]
  constructor
  · rintro ⟨code, hMem, hEntries, hNone⟩
    obtain ⟨factor, hFactor, hReturns⟩ := exists_of_mem_right hCodes hMem
    obtain ⟨lowered, hOwnRun, rfl⟩ := exists_run_of_returns hReturns
    obtain ⟨own, hOwn, hOwnZero⟩ := integrand_of_run scaling hOwnRun
    exact ⟨factor, hFactor, lowered, own, hOwnRun, hOwn, hEntries, hOwnZero.mpr hNone⟩
  · rintro ⟨factor, hFactor, lowered, own, hOwnRun, hOwn, hEntries, hNone⟩
    obtain ⟨code, hMem, hReturns⟩ := exists_of_mem_left hCodes hFactor
    obtain rfl := (backend.lower_writeOnly factor {}).returns_unique hReturns
      (returns_of_run hOwnRun)
    obtain ⟨_, hSame, hOwnZero⟩ := integrand_of_run scaling hOwnRun
    cases hOwn.symm.trans hSame
    exact ⟨lowered.code, hMem, hEntries, hOwnZero.mp hNone⟩

end Backend

/-- A zero factor makes a product zero.  Operands without empty tokens have a product, and
a product is zero if and only if one of its operands has entries that are all symbolic zero.
The same holds of integrands: that of a product is found if those of its factors are, unless
there are empty tokens, and it is zero if and only if that of a factor with entries is. -/
theorem zero_factor_annihilates (backend : Backend) (scaling : QuadratureScaling) :
    (∀ operands : List TensorCode,
      ((∀ operand ∈ operands, operand.AllTokens (· ≠ "")) →
        ∃ code, TensorCode.product backend.dialect operands = .ok code) ∧
      ∀ code, TensorCode.product backend.dialect operands = .ok code →
        (code.nonzero.isEmpty ↔
          ∃ operand ∈ operands, operand.entries ≠ [] ∧ operand.nonzero.isEmpty)) ∧
    ∀ factors : List Expr,
      ((∀ factor ∈ factors, ∃ lowered, backend.run factor = .ok lowered ∧
          lowered.code.AllTokens (· ≠ "")) →
        ∃ whole, backend.integrand scaling (.product factors) = .ok whole) ∧
      ∀ whole, backend.integrand scaling (.product factors) = .ok whole →
        (whole.isZero ↔ ∃ factor ∈ factors, ∃ lowered own, backend.run factor = .ok lowered ∧
          backend.integrand scaling factor = .ok own ∧ lowered.code.entries ≠ [] ∧ own.isZero) :=
  ⟨fun _ => ⟨TensorCode.exists_product backend.dialect,
      fun _ => TensorCode.isEmpty_nonzero_product⟩,
    fun _ => ⟨Backend.exists_integrand_product, fun _ => Backend.isZero_integrand_product⟩⟩

/-- A tensor of zeros between a tensor and a scalar; a vanishing derivative times a symbol. -/
theorem zero_factor_annihilates_between :
    let operands : List TensorCode := [.singleton [0] (some "X"), .singleton [1] none,
      .scalar (some "S")]
    let backend := cppBackend {} {}
    let factors : List Expr := [.symbol "a", .derivative (.symbol "b") 0]
    (∃ code, TensorCode.product backend.dialect operands = .ok code ∧ code.nonzero.isEmpty) ∧
      ∃ whole, backend.integrand default (.product factors) = .ok whole ∧ whole.isZero := by
  intro operands backend factors
  obtain ⟨hCodes, hIntegrands⟩ := zero_factor_annihilates backend default
  constructor
  · have hTokens : ∀ operand ∈ operands, operand.AllTokens (· ≠ "") := by
      simp [operands, TensorCode.AllTokens, SortedMap.singleton, TensorCode.scalar]
    obtain ⟨code, hCode⟩ := (hCodes operands).1 hTokens
    refine ⟨code, hCode, ((hCodes operands).2 code hCode).mpr ⟨.singleton [1] none, ?_, ?_, ?_⟩⟩
    · simp [operands]
    · simp [SortedMap.singleton]
    · rfl
  · have hRun : backend.run (.symbol "a") = .ok ⟨.scalar (some "a"), ∅⟩ := rfl
    have hRun' : backend.run (.derivative (.symbol "b") 0) = .ok ⟨.scalar none, ∅⟩ := rfl
    have hFactors : ∀ factor ∈ factors, ∃ lowered, backend.run factor = .ok lowered ∧
        lowered.code.AllTokens (· ≠ "") := by
      simp [factors, hRun, hRun', TensorCode.AllTokens, TensorCode.scalar, SortedMap.singleton]
    obtain ⟨whole, hWhole⟩ := (hIntegrands factors).1 hFactors
    refine ⟨whole, hWhole, ((hIntegrands factors).2 whole hWhole).mpr
      ⟨.derivative (.symbol "b") 0, ?_, _, _, hRun', rfl, ?_, ?_⟩⟩
    · simp [factors]
    · simp [TensorCode.scalar, SortedMap.singleton]
    · rfl

/-- The code of an empty sum has no entries, so it has no live ones, but it is left out of
a product. -/
theorem empty_factor_is_left_out :
    let operands : List TensorCode := [.empty, .scalar (some "A")]
    let backend := cppBackend {} {}
    TensorCode.sum backend.dialect [] = .ok .empty ∧
      (∀ operand ∈ operands, operand.AllTokens (· ≠ "")) ∧
      TensorCode.nonzero .empty = .empty ∧
      TensorCode.product backend.dialect operands = .ok (.scalar (some "A")) ∧
      TensorCode.nonzero (.scalar (some "A")) = .singleton [] "A" ∧
      (backend.integrand default (.sum [])).toOption.map (·.isZero) = some true ∧
      (backend.integrand default (.product [.sum [], .symbol "A"])).toOption.map (·.isZero) =
        some false := by
  refine ⟨by decide, ?_, by decide, by decide +kernel, by decide, by decide +kernel,
    by decide +kernel⟩
  simp [TensorCode.AllTokens, TensorCode.scalar, SortedMap.singleton, SortedMap.empty]

end FormLowering
