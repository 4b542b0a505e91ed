import FormLowering.Proofs.Declarations
import FormLowering.Proofs.Progress
import FormLowering.Proofs.Traversal.RaisedFaults

/-!
# Faults that are out of reach

Lowering checks some things that always hold.  Collapsing never removes every term of a sum,
tokens are only empty if names of symbols are, and a coefficient is a scalar also where it is
indexed or restricted.  So the faults for these checks are never raised, or in the second case
only because of a symbol without a name.
-/

namespace FormLowering

open LowerM

namespace Backend

variable {backend : Backend} {context : LoweringContext} {error : LoweringError}

/-- A product fails only because of an empty token, and everything else because of the
expression. -/
theorem lower_ordinary_or_malformed (backend : Backend) (expr : Expr) (context : LoweringContext) :
    RaisesOnly (fun fault => fault.IsOrdinary ∨ fault = .malformedOperand)
      (backend.lower expr context) :=
  lower_raisesOnly (fun _ => .inl) (fun _ _ hFault => .inr (TensorCode.product_eq_error hFault))
    (Expr.every_of_forall (fun _ => trivial) expr : expr.Every fun _ => True) context

/-! ### Empty tokens -/

section Tokens

variable {dialect : Dialect} {catalog : ElementCatalog} {dimensions : CellDimensions}

/-- Without symbols that have no name, every fault is one of the expression. -/
theorem lower_ordinary (hAvailable : dialect.Available) {expr : Expr}
    (hExpr : expr.Every Expr.NamedSymbol) (context : LoweringContext) :
    RaisesOnly Fault.IsOrdinary (lower ⟨dialect, catalog.tables, dimensions⟩ expr context) := by
  refine lower_raisesOnly (fun _ => id) ?_ hExpr context
  intro operands context codes fault hOperands hCodes hFault
  have hTokens : ∀ code ∈ codes, code.AllTokens (· ≠ "") := by
    intro code hCode
    obtain ⟨operand, hOperand, hReturns⟩ := exists_of_mem_right hCodes hCode
    have hNamed := (@Expr.every_operation _ .product operands).mp hOperands
    exact allTokens_written hAvailable (hNamed.2 operand hOperand) hReturns
  obtain ⟨code, hCode⟩ := TensorCode.exists_product dialect hTokens
  cases hCode.symm.trans hFault

/-- Every name that is recorded is that of a geometric quantity. -/
theorem isGeometryName_of_records (hAvailable : dialect.Available) {expr : Expr} {name : Token}
    (hName : (lower ⟨dialect, catalog.tables, dimensions⟩ expr context).Records name) :
    IsGeometryName name := by
  obtain ⟨leaf, inner, -, hListed⟩ := (records_iff_leafNames hAvailable).mp hName
  have hDeclares := declares_leaf hAvailable catalog dimensions inner
    (refersToGeometry_of_mem_leafNames hListed)
  obtain ⟨code, hReturns⟩ := hDeclares.exists_returns hListed
  obtain ⟨token, -, hMentions⟩ := (hDeclares.mentionExactly hReturns name).mpr hListed
  exact hMentions.1

end Tokens

/-! ### Exponents -/

/-- A coefficient, whatever indices and restrictions are around it, is a scalar, and fails only
because of its element. -/
theorem scalar_of_isField {exponent : Expr} (hField : exponent.isField)
    (context : LoweringContext) :
    (∀ code, (backend.lower exponent context).Returns code → ∃ entry, code = .scalar entry) ∧
      RaisesOnly Fault.IsOfLeaf (backend.lower exponent context) := by
  induction exponent using Expr.node_induction generalizing context with
  | operation operation operands ih => cases operation <;> cases hField
  | power base exponent ihBase ihExponent => cases hField
  | modifier modifier operand ih =>
      rw [lower_modified]
      cases modifier with
      | index component => exact ih hField _
      | restrict side => exact ih hField _
      | differentiate direction => cases hField
  | argument basis => cases hField
  | coefficient field =>
      rw [lower]
      refine ⟨fun code hReturns => ?_, (lowerCoefficient_raisesOnly backend context field).within _⟩
      rw [returns_within] at hReturns
      obtain ⟨_, -, hReturns⟩ := hReturns.exists_of_bind
      obtain ⟨entry, -, hReturns⟩ := hReturns.exists_of_bind
      exact ⟨entry, (returns_pure.mp hReturns).symm⟩
  | constant leaf => cases leaf <;> cases hField

/-- A power whose exponent is a function never blames the exponent. -/
theorem raises_base_of_unsupported {base exponent : Expr} (hField : exponent.isField)
    (hFault : error.fault = .unsupportedExponent)
    (hRaises : (backend.lowerPower base exponent context).Raises error) :
    (backend.lower base context).Raises error := by
  obtain ⟨hScalar, hLeaf⟩ := @scalar_of_isField backend exponent hField context
  have hForm := Expr.exponentForm_of_isField hField
  have hExponent : RaisesOnly (· ≠ .unsupportedExponent) (backend.lower exponent context) := by
    refine hLeaf.mono ?_
    rintro _ hOfLeaf rfl
    exact hOfLeaf
  rw [lowerPower, hForm] at hRaises
  refine (raises_powerCode (· ≠ .unsupportedExponent) nofun ?_
    (fun _ => powerOf_function_raisesOnly hScalar hExponent) hRaises).resolve_right
      (not_not.mpr hFault)
  intro fault hZero
  cases hZero

/-- An invariant is never violated, whatever the backend.  With the tables of a catalog and an
available dialect, tokens are not empty, and no product finds an empty one, unless a symbol has
no name.  An exponent that is a function is a scalar if it has code, so a power that does not
support an exponent has found it in its base. -/
theorem defensive_faults_unreachable :
    (∀ dialect operands description,
      TensorCode.sum dialect operands ≠ .error (.invariantViolation description) ∧
        TensorCode.product dialect operands ≠ .error (.invariantViolation description)) ∧
    (∀ (backend : Backend) expr context error, (backend.lower expr context).Raises error →
      ∀ description, error.fault ≠ .invariantViolation description) ∧
    (∀ (dialect : Dialect) (catalog : ElementCatalog) dimensions expr context,
      dialect.Available → expr.Every Expr.NamedSymbol →
        let action := lower ⟨dialect, catalog.tables, dimensions⟩ expr context
        (∀ error, action.Raises error → error.fault ≠ .malformedOperand) ∧
        (∀ code, action.Returns code → code.AllTokens (· ≠ "")) ∧
        ∀ name, action.Records name → name ≠ "") ∧
    ∀ (backend : Backend) exponent context, exponent.isField →
      (∀ code, (backend.lower exponent context).Returns code → ∃ entry, code = .scalar entry) ∧
      ∀ base error, error.fault = .unsupportedExponent →
        ((backend.lower (.power base exponent) context).Raises error ∨
          (backend.lowerPower base exponent context).Raises error) →
        (backend.lower base context).Raises error := by
  refine ⟨fun dialect operands description => ⟨?_, ?_⟩, ?_, ?_, ?_⟩
  · obtain ⟨code, hCode⟩ := TensorCode.exists_sum dialect operands
    rw [hCode]
    nofun
  · intro hFault
    cases TensorCode.product_eq_error hFault
  · intro backend expr context error hRaises description hFault
    have hKind := lower_ordinary_or_malformed backend expr context error hRaises
    rw [hFault] at hKind
    rcases hKind with hOrdinary | hMalformed
    · exact hOrdinary
    · cases hMalformed
  · intro dialect catalog dimensions expr context hAvailable hExpr action
    refine ⟨fun error hRaises hFault => ?_, fun code => allTokens_written hAvailable hExpr, ?_⟩
    · have hOrdinary := lower_ordinary hAvailable hExpr context error hRaises
      rw [hFault] at hOrdinary
      exact hOrdinary
    · rintro name hName rfl
      cases (isGeometryName_of_records hAvailable hName).looksGeometric
  · intro backend exponent context hField
    refine ⟨(scalar_of_isField hField context).1, fun base error hFault hRaises => ?_⟩
    rcases hRaises with hPower | hPower
    · rw [lower] at hPower
      obtain ⟨inner, hInner, rfl⟩ := raises_within.mp hPower
      rw [LoweringError.fault_within] at hFault
      have hBase := raises_base_of_unsupported hField hFault hInner
      rwa [within_of_raises hBase]
    · exact raises_base_of_unsupported hField hFault hPower

/-- A power with a coefficient as its exponent, and a symbol without a name in a product. -/
theorem defensive_faults_unreachable_unnamed :
    let catalog : ElementCatalog := ⟨#[.lagrange 1], []⟩
    let backend : Backend := ⟨.cpp (some 1), catalog.tables, {}⟩
    let exponent : Expr := .restricted (.coefficient ⟨0, 0⟩) .positive
    let power : Expr := .power (.symbol "x") exponent
    let unnamed : Expr := .product [.symbol "", .symbol "x"]
    (power.Every Expr.NamedSymbol ∧ ∃ code, (backend.lower power {}).Returns code ∧
      code.AllTokens (· ≠ "")) ∧
    (exponent.isField ∧ ∃ code entry, (backend.lower exponent {}).Returns code ∧
      code = .scalar entry) ∧
    ∃ error, (backend.lower unnamed {}).Raises error ∧ error.fault = .malformedOperand ∧
      ∀ description, error.fault ≠ .invariantViolation description := by
  intro catalog backend exponent power unnamed
  have hName : "x" ≠ "" := by decide
  have hPower : power.Every Expr.NamedSymbol := ⟨trivial, hName, trivial, trivial⟩
  have hReturns : (backend.lower power {}).Returns (.scalar (some "std::pow(x, F0_C0_R0)")) :=
    returns_iff.mpr ⟨∅, by decide +kernel⟩
  have hExponent : (backend.lower exponent {}).Returns (.scalar (some "F0_C0_R0")) :=
    returns_iff.mpr ⟨∅, by decide +kernel⟩
  have hUnnamed : (backend.lower unnamed {}).Raises ⟨.malformedOperand, some unnamed.render⟩ :=
    ⟨∅, by decide +kernel⟩
  obtain ⟨-, hInvariants, hWritten, hFields⟩ := defensive_faults_unreachable
  obtain ⟨-, hTokens, -⟩ := hWritten (.cpp (some 1)) catalog {} power {} (.cpp (some 1)) hPower
  obtain ⟨entry, hEntry⟩ := (hFields backend exponent {} rfl).1 _ hExponent
  exact ⟨⟨hPower, _, hReturns, hTokens _ hReturns⟩, ⟨rfl, _, entry, hExponent, hEntry⟩,
    _, hUnnamed, rfl, hInvariants backend unnamed {} _ hUnnamed⟩

end Backend

end FormLowering
