import FormLowering.Proofs.Support.Arithmetic
import FormLowering.Proofs.Support.Keys
import FormLowering.Proofs.Traversal.Outcomes
import FormLowering.Proofs.Semantics.Meaning

/-!
# The support of code

Lowering does what the keys of an expression say: whenever it succeeds, in whatever
dialect and context, the code has the keys of the expression and tokens under its live
keys.
-/

namespace FormLowering

open LowerM

namespace TensorCode

/-- Whether a code has some keys, and tokens under those that are live. -/
structure SupportedBy (code : TensorCode) (keys live : SortedSet Key) : Prop where
  nonempty : ∃ key, key ∈ keys
  keys : ∀ {key}, code.Holds True key ↔ key ∈ keys
  live : ∀ {key}, code.Holds False key ↔ key ∈ live

theorem SupportedBy.entries_ne_nil {code : TensorCode} {keys live : SortedSet Key}
    (hSupport : code.SupportedBy keys live) : code.entries ≠ [] := by
  obtain ⟨key, hKey⟩ := hSupport.nonempty
  obtain ⟨entry, hEntry, -⟩ := hSupport.keys.mpr hKey
  exact List.ne_nil_of_mem hEntry

/-- Keys are listed in order, so they are known by their membership. -/
theorem SupportedBy.keys_eq {code : TensorCode} {keys live : SortedSet Key}
    (hSupport : code.SupportedBy keys live) : code.keys = keys.elements := by
  refine SortedSet.eq_of_mem_iff code.increasing keys.increasing fun key => ?_
  exact holds_true.symm.trans hSupport.keys

/-- A code whose only key is the empty one is a scalar. -/
theorem SupportedBy.exists_eq_scalar {code : TensorCode} {keys live : SortedSet Key}
    (hSupport : code.SupportedBy keys live) (hKeys : ∀ key ∈ keys, key = []) :
    ∃ entry, code = scalar entry := by
  obtain ⟨key, hKey⟩ := hSupport.nonempty
  obtain rfl := hKeys key hKey
  have hOnly : code.keys = (Key.only []).elements := by
    rw [hSupport.keys_eq]
    refine SortedSet.eq_of_mem_iff keys.increasing (SortedSet.increasing _) fun key => ?_
    exact ⟨fun hMem => Key.mem_only.mpr (hKeys key hMem), fun hMem => Key.mem_only.mp hMem ▸ hKey⟩
  obtain ⟨⟨_, entry⟩, hEntries, rfl⟩ := List.map_eq_singleton_iff.mp hOnly
  exact ⟨entry, SortedMap.ext hEntries⟩

theorem supportedBy_singleton {own : Key} {entry : Entry} {live : SortedSet Key}
    (hLive : ∀ {key}, key ∈ live ↔ key = own ∧ entry.isSome) :
    SupportedBy (.singleton own entry) (Key.only own) live where
  nonempty := ⟨own, Key.mem_only.mpr rfl⟩
  keys := by simp [holds_singleton, Entry.Counts]
  live := by simp [holds_singleton, Entry.Counts, hLive]

theorem supportedBy_scalar {entry : Entry} {live : SortedSet Key}
    (hLive : ∀ {key}, key ∈ live ↔ key = [] ∧ entry.isSome) :
    (scalar entry).SupportedBy (Key.only []) live :=
  supportedBy_singleton hLive

section Operations

variable {dialect : Dialect} {zeros : Prop} {codes : List TensorCode} {sets : List (SortedSet Key)}
  {code : TensorCode} {key : Key}

theorem holds_sum_iff
    (hCodes : List.Forall₂ (fun code set => ∀ {key}, Holds zeros code key ↔ key ∈ set) codes sets)
    (hCode : sum dialect codes = .ok code) : code.Holds zeros key ↔ key ∈ Key.unions sets := by
  rw [holds_sum hCode, Key.mem_unions]
  constructor
  · rintro ⟨operand, hOperand, hKey⟩
    obtain ⟨set, hSet, hHolds⟩ := exists_of_mem_left hCodes hOperand
    exact ⟨set, hSet, hHolds.mp hKey⟩
  · rintro ⟨set, hSet, hKey⟩
    obtain ⟨operand, hOperand, hHolds⟩ := exists_of_mem_right hCodes hSet
    exact ⟨operand, hOperand, hHolds.mpr hKey⟩

theorem forall₂_holds_iff_mem
    (hCodes : List.Forall₂ (fun code set => ∀ {key}, Holds zeros code key ↔ key ∈ set) codes sets)
    {keys : List Key} :
    List.Forall₂ (Holds zeros) codes keys ↔
      List.Forall₂ (fun (set : SortedSet Key) key => key ∈ set) sets keys := by
  induction hCodes generalizing keys with
  | nil => simp
  | cons hFirst _ ih => simp only [List.forall₂_cons_left_iff, hFirst, ih]

theorem holds_product_iff
    (hCodes : List.Forall₂ (fun code set => ∀ {key}, Holds zeros code key ↔ key ∈ set) codes sets)
    (hNonempty : ∀ code ∈ codes, code.entries ≠ []) (hCode : product dialect codes = .ok code) :
    code.Holds zeros key ↔ key ∈ Key.products sets := by
  simp only [holds_product hNonempty hCode, Key.mem_products, Concatenates,
    forall₂_holds_iff_mem hCodes, exists_exists_and_eq_and]

variable {tables : BasisTables} {dimensions : CellDimensions} {context : LoweringContext}
  {operands : List Expr}

/-- An operation that succeeds has the keys of its node, if its operands have theirs. -/
theorem supportedBy_operation {operation : Operation} (hSum : operation = .sum → operands ≠ [])
    (hCodes : List.Forall₂ (fun operand code => SupportedBy code operand.keys
      (operand.liveKeys tables dimensions context)) operands codes)
    (hCode : operation.combine dialect codes = .ok code) :
    code.SupportedBy (operation.node operands).keys
      ((operation.node operands).liveKeys tables dimensions context) := by
  have hKeys : List.Forall₂ (fun code set => ∀ {key}, Holds True code key ↔ key ∈ set) codes
      (operands.map Expr.keys) := by
    rw [List.forall₂_map_right_iff]
    exact hCodes.flip.imp fun _ _ hSupport => hSupport.keys
  have hLive : List.Forall₂ (fun code set => ∀ {key}, Holds False code key ↔ key ∈ set) codes
      (operands.map fun operand => operand.liveKeys tables dimensions context) := by
    rw [List.forall₂_map_right_iff]
    exact hCodes.flip.imp fun _ _ hSupport => hSupport.live
  have hSome : ∀ operand ∈ operands, ∃ key, key ∈ operand.keys := by
    intro operand hOperand
    obtain ⟨_, -, hSupport⟩ := exists_of_mem_left hCodes hOperand
    exact hSupport.nonempty
  cases operation with
  | sum =>
      simp only [Operation.node, Expr.keys, Expr.liveKeys, Expr.allKeys_eq_map,
        Expr.allLiveKeys_eq_map]
      refine ⟨?_, holds_sum_iff hKeys hCode, holds_sum_iff hLive hCode⟩
      obtain ⟨first, rest, rfl⟩ := List.exists_cons_of_ne_nil (hSum rfl)
      obtain ⟨key, hKey⟩ := hSome first List.mem_cons_self
      exact ⟨key, Key.mem_unions.mpr ⟨_, List.mem_map_of_mem List.mem_cons_self, hKey⟩⟩
  | product =>
      simp only [Operation.node, Expr.keys, Expr.liveKeys, Expr.allKeys_eq_map,
        Expr.allLiveKeys_eq_map]
      have hNonempty : ∀ code ∈ codes, code.entries ≠ [] := by
        intro code hMem
        obtain ⟨_, -, hSupport⟩ := exists_of_mem_right hCodes hMem
        exact hSupport.entries_ne_nil
      refine ⟨?_, holds_product_iff hKeys hNonempty hCode, holds_product_iff hLive hNonempty hCode⟩
      apply Key.exists_mem_products
      simpa using hSome
  | division =>
      obtain ⟨numerator, denominator, rfl, hHolds⟩ := holds_division hCode
      obtain ⟨operand, rest, hSupport, -, rfl⟩ := List.forall₂_cons_right_iff.mp hCodes
      exact ⟨hSupport.nonempty, hHolds.trans hSupport.keys, hHolds.trans hSupport.live⟩
  | abs =>
      obtain ⟨entry, rfl, rfl⟩ := abs_eq_ok hCode
      obtain ⟨operand, rest, hSupport, -, rfl⟩ := List.forall₂_cons_right_iff.mp hCodes
      refine supportedBy_scalar fun {key} => ?_
      rw [Option.isSome_map]
      refine hSupport.live.symm.trans ?_
      simp [holds_scalar, Entry.Counts]
  | elementary function =>
      obtain ⟨entry, -, rfl⟩ := applyFunction_eq_ok hCode
      exact supportedBy_scalar (by simp [Operation.node, Expr.liveKeys])

end Operations

end TensorCode

/-! ### Powers -/

theorem Binary64.isZero_of_isPositive {value : Binary64} (hPositive : value.isPositive = true) :
    value.isZero = false := by
  match value with
  | .nan => rfl
  | .infinity negative => rfl
  | .finite false rank => exact decide_eq_false (of_decide_eq_true hPositive)

/-- An exponent is a literal, or a function or unsupported. -/
theorem Expr.exponentForm_cases (exponent : Expr) :
    (∃ value, exponent = .integer value) ∨ (∃ value, exponent = .real value) ∨
      exponent.isZeroLiteral = false ∧
        exponent.exponentForm = if exponent.isField then .function else .unsupported := by
  cases exponent with
  | integer value => exact .inl ⟨value, rfl⟩
  | real value => exact .inr (.inl ⟨value, rfl⟩)
  | _ => exact .inr (.inr ⟨rfl, rfl⟩)

/-- A power of symbolic zero is a token only if the exponent is a literal zero. -/
theorem isSome_powerOfZero {one : Token} {exponent : Expr} {power : Entry}
    (hPower : exponent.exponentForm.powerOfZero one = .ok power) :
    power.isSome = exponent.isZeroLiteral := by
  open Interpretation in
  rcases exponent.exponentForm_cases with ⟨value, rfl⟩ | ⟨value, rfl⟩ | ⟨hLiteral, hForm⟩
  · rcases powerOfZero_eq_ok rfl hPower with ⟨hSign, rfl⟩ | ⟨hSign, rfl⟩
    · have hPositive : 0 < value := of_sign_positive hSign
      simp only [Option.isSome_none, Expr.isZeroLiteral, Bool.false_eq, beq_eq_false_iff_ne]
      omega
    · have hZero : value = 0 := of_sign_zero hSign
      simp [Expr.isZeroLiteral, hZero]
  · rcases powerOfZero_eq_ok rfl hPower with ⟨hSign, rfl⟩ | ⟨hSign, rfl⟩
    · exact (Binary64.isZero_of_isPositive (of_sign_positive hSign)).symm
    · have hZero : value.isZero = true := of_sign_zero hSign
      exact hZero.symm
  · rw [hForm] at hPower
    rw [hLiteral]
    split at hPower <;> cases hPower
    rfl

open TensorCode

namespace Backend

variable {backend : Backend} {context : LoweringContext} {code : TensorCode}

theorem supportedBy_power {base exponent : Expr}
    (hBase : ∀ {code}, (backend.lower base context).Returns code →
      code.SupportedBy base.keys (base.liveKeys backend.elements backend.dimensions context))
    (hReturns : (backend.lower (.power base exponent) context).Returns code) :
    code.SupportedBy (Expr.power base exponent).keys
      ((Expr.power base exponent).liveKeys backend.elements backend.dimensions context) := by
  obtain ⟨baseCode, entry, power, hBaseCode, hScalar, rfl, hPower⟩ := returns_power hReturns
  obtain rfl := eq_scalar_of_asScalar? hScalar
  have hLive : [] ∈ base.liveKeys backend.elements backend.dimensions context ↔ entry.isSome := by
    rw [← (hBase hBaseCode).live, holds_scalar]
    simp [Entry.Counts]
  refine supportedBy_scalar ?_
  cases entry with
  | none => simp [Expr.liveKeys, hLive, isSome_powerOfZero hPower]
  | some token =>
      obtain ⟨result, rfl, -⟩ := hPower
      simp [Expr.liveKeys, hLive]

/-! ### Leaves -/

theorem supportedBy_constant {leaf : Constant}
    (hReturns : (backend.lower leaf.expr context).Returns code) :
    code.SupportedBy leaf.expr.keys
      (leaf.expr.liveKeys backend.elements backend.dimensions context) := by
  rw [returns_constant] at hReturns
  split at hReturns
  · rename_i hEmpty
    cases leaf with
    | normal =>
        have hName : ∃ name, code = .scalar (some name) := by
          have hNormal : (backend.normalCode context).Returns code := hReturns
          unfold normalCode at hNormal
          split at hNormal
          · obtain ⟨name, -, hCode⟩ := hNormal.exists_of_bind
            exact ⟨name, (returns_pure.mp hCode).symm⟩
          · exact absurd hNormal not_returns_throw
        obtain ⟨name, rfl⟩ := hName
        exact supportedBy_scalar (by simp [Constant.expr, Expr.liveKeys, hEmpty])
    | integer value =>
        obtain rfl := returns_pure.mp hReturns
        refine supportedBy_scalar ?_
        rw [Binary64.isZero_ofInt]
        cases hZero : value == 0 <;> simp [Constant.expr, Expr.liveKeys, hEmpty, hZero, bne]
    | real value =>
        obtain rfl := returns_pure.mp hReturns
        refine supportedBy_scalar ?_
        cases hZero : value.isZero <;> simp [Constant.expr, Expr.liveKeys, hEmpty, hZero]
    | zero =>
        obtain rfl := returns_pure.mp hReturns
        exact supportedBy_scalar (by simp [Constant.expr, Expr.liveKeys, SortedSet.not_mem_empty])
    | symbol name =>
        obtain rfl := returns_pure.mp hReturns
        exact supportedBy_scalar (by simp [Constant.expr, Expr.liveKeys, hEmpty])
  · -- Under derivatives there is nothing left of a constant.
    rename_i hDerivatives
    subst hReturns
    cases leaf <;>
      exact supportedBy_scalar
        (by simp [Constant.expr, Expr.liveKeys, hDerivatives, SortedSet.not_mem_empty])

/-- A table that is not structurally zero contributes one term. -/
theorem ne_nil_of_basisTerms {place : ComponentPlace} {tuple : List Nat} {contributor : Contributor}
    {table : Entry} {terms : List Token}
    (hReturns : (backend.basisTerms place context tuple contributor table).Returns terms) :
    terms ≠ [] ↔ table.isSome := by
  have hTerms := hReturns.forall₂_of_mapM
  cases table with
  | none =>
      cases hTerms
      simp
  | some basis =>
      obtain ⟨term, rest, -, -, rfl⟩ := List.forall₂_cons_left_iff.mp hTerms
      simp

/-- Something is contributed if one of the tables that are asked for is not structurally
zero. -/
theorem flatten_ne_nil_iff {order : List (List Nat × Contributor)} {parts : List (List Token)}
    {table : List Nat × Contributor → Entry}
    (hParts : List.Forall₂ (fun pair part => part ≠ [] ↔ (table pair).isSome) order parts) :
    parts.flatten ≠ [] ↔ (order.map table).any Option.isSome := by
  rw [Ne, List.flatten_eq_nil_iff, List.any_map, List.any_eq_true]
  simp only [not_forall, exists_prop]
  constructor
  · rintro ⟨part, hPart, hSome⟩
    obtain ⟨pair, hPair, hIff⟩ := exists_of_mem_right hParts hPart
    exact ⟨pair, hPair, hIff.mp hSome⟩
  · rintro ⟨pair, hPair, hSome⟩
    obtain ⟨part, hPart, hIff⟩ := exists_of_mem_left hParts hPair
    exact ⟨part, hPart, hIff.mpr hSome⟩

variable {tables : BasisTables} {dimensions : CellDimensions} {dialect : Dialect}

theorem requested_eq {element component : Nat} {place : ComponentPlace}
    {contributors : List Contributor}
    (hSelected : tables.selected element context = .ok (component, place))
    (hContributors : dimensions.contributors component place = .ok contributors)
    (table : TableRequest → Entry) :
    tables.requested dimensions element table context =
      (tableOrder (directionTuples dimensions.topological context.derivatives.length)
        contributors).map fun pair => table (dimensions.tableRequest context pair.1 pair.2) := by
  simp only [BasisTables.requested, hSelected, hContributors]

/-- The code of an argument is under its number, the sum of what its tables contribute. -/
theorem supportedBy_argument {catalog : ElementCatalog} (hDimensions : dimensions.Positive)
    {basis : Argument}
    (hReturns : (lower ⟨dialect, catalog.tables, dimensions⟩ (.argument basis) context).Returns
      code) :
    code.SupportedBy (Expr.argument basis).keys
      ((Expr.argument basis).liveKeys catalog.tables dimensions context) := by
  rw [lower, returns_within] at hReturns
  obtain ⟨⟨component, place⟩, hSelected, hReturns⟩ := hReturns.exists_of_bind
  obtain ⟨contributors, hContributors, hReturns⟩ := hReturns.exists_of_bind
  obtain ⟨contributions, hContributions, hReturns⟩ := hReturns.exists_of_bind
  rw [returns_ofExcept] at hSelected hContributors
  obtain rfl := returns_pure.mp hReturns
  have hEach := hContributions.forall₂_of_mapM
  -- All tables of an argument are under its number.
  have hKeys : ∀ contribution ∈ contributions, contribution.1 = [basis.number] := by
    intro contribution hMem
    obtain ⟨pair, -, hTerms⟩ := exists_of_mem_right hEach hMem
    obtain ⟨terms, -, hTerms⟩ := hTerms.exists_of_bind
    rw [← returns_pure.mp hTerms]
    rfl
  have hSome : contributions ≠ [] :=
    ne_nil_of_forall₂ hEach (Interpretation.tableOrder_ne_nil hDimensions hContributors _)
  have hParts : (contributions.map Prod.snd).flatten ≠ [] ↔
      (catalog.tables.requested dimensions basis.element
        (fun request => (catalog.tables.argument basis request).code) context).any Option.isSome := by
    rw [requested_eq hSelected hContributors]
    apply flatten_ne_nil_iff
    rw [List.forall₂_map_right_iff]
    refine hEach.imp fun pair contribution hTerms => ?_
    obtain ⟨terms, hBasis, hTerms⟩ := hTerms.exists_of_bind
    rw [← returns_pure.mp hTerms]
    exact ne_nil_of_basisTerms hBasis
  rw [SortedMap.gather_of_key hSome hKeys]
  exact supportedBy_singleton (by simp [Expr.liveKeys, Dialect.isSome_join, hParts])

/-- The code of a coefficient is a scalar, the sum of what its tables contribute. -/
theorem supportedBy_coefficient {field : Coefficient}
    (hReturns : (lower ⟨dialect, tables, dimensions⟩ (.coefficient field) context).Returns code) :
    code.SupportedBy (Expr.coefficient field).keys
      ((Expr.coefficient field).liveKeys tables dimensions context) := by
  rw [lower, returns_within] at hReturns
  obtain ⟨⟨component, place⟩, hSelected, hReturns⟩ := hReturns.exists_of_bind
  obtain ⟨entry, hEntry, hReturns⟩ := hReturns.exists_of_bind
  obtain rfl := returns_pure.mp hReturns
  obtain ⟨contributors, hContributors, hEntry⟩ := hEntry.exists_of_bind
  obtain ⟨terms, hTerms, hEntry⟩ := hEntry.exists_of_bind
  obtain rfl := returns_pure.mp hEntry
  rw [returns_ofExcept] at hSelected hContributors
  have hParts : terms.flatten ≠ [] ↔
      (tables.requested dimensions field.element (tables.coefficient field) context).any
        Option.isSome := by
    rw [requested_eq hSelected hContributors]
    exact flatten_ne_nil_iff (hTerms.forall₂_of_mapM.imp fun _ _ => ne_nil_of_basisTerms)
  exact supportedBy_scalar (by simp [Expr.liveKeys, Dialect.isSome_join, hParts])

/-! ### Expressions -/

/-- The code of an expression has its keys, and tokens under its live keys.  A cell without
dimensions has no code for arguments, but that of anything else. -/
theorem supportedBy_of_returns {catalog : ElementCatalog} {expr : Expr}
    (hDimensions : dimensions.Positive ∨ expr.Every Expr.NoArgument)
    (hExpr : expr.Every Expr.SumHasOperands)
    (hReturns : (lower ⟨dialect, catalog.tables, dimensions⟩ expr context).Returns code) :
    code.SupportedBy expr.keys (expr.liveKeys catalog.tables dimensions context) := by
  induction expr using Expr.node_induction generalizing context code with
  | operation operation operands ih =>
      obtain ⟨hNode, hOperands⟩ := Expr.every_operation.mp hExpr
      obtain ⟨codes, hCodes, hCode⟩ := returns_operation.mp hReturns
      have hSum : operation = .sum → operands ≠ [] := by
        rintro rfl
        exact hNode
      refine supportedBy_operation hSum ?_ hCode
      refine List.forall₂_iff_zip.mpr ⟨hCodes.length_eq, fun {operand code} hMem => ?_⟩
      have hOperand : operand ∈ operands := (List.of_mem_zip hMem).1
      have hArguments := hDimensions.imp_right fun hNode =>
        (Expr.every_operation.mp hNode).2 operand hOperand
      exact ih operand hOperand hArguments (hOperands operand hOperand) (List.forall₂_zip hCodes hMem)
  | power base exponent ihBase _ =>
      refine supportedBy_power (fun hBase => ihBase ?_ hExpr.2.1 hBase) hReturns
      exact hDimensions.imp_right fun hNode => hNode.2.1
  | modifier modifier operand ih =>
      have hArguments := hDimensions.imp_right fun hNode => (Expr.every_modifier.mp hNode).2
      have hOperand := ih hArguments (Expr.every_modifier.mp hExpr).2 (returns_modifier.mp hReturns)
      cases modifier <;> exact hOperand
  | argument basis =>
      rcases hDimensions with hPositive | hNone
      · exact supportedBy_argument hPositive hReturns
      · exact hNone.elim
  | coefficient field => exact supportedBy_coefficient hReturns
  | constant leaf => exact supportedBy_constant hReturns

theorem lower_supportedBy {catalog : ElementCatalog} (hDimensions : dimensions.Positive)
    {expr : Expr} (hExpr : expr.Every Expr.SumHasOperands)
    (hReturns : (lower ⟨dialect, catalog.tables, dimensions⟩ expr context).Returns code) :
    code.SupportedBy expr.keys (expr.liveKeys catalog.tables dimensions context) :=
  supportedBy_of_returns (.inl hDimensions) hExpr hReturns

end Backend

/-- The keys of code are those of its expression, and its tokens are under the live keys,
in every dialect and every context in which lowering succeeds.  Hence every key is the
sorted list of the arguments of one term of the expression multiplied out, an expression
without arguments is a scalar, and keys depend on nothing but the expression. -/
theorem code_has_support (dialect : Dialect) (catalog : ElementCatalog)
    (dimensions : CellDimensions) (hDimensions : dimensions.Positive) (expr : Expr)
    (hExpr : expr.Every Expr.SumHasOperands) (context : LoweringContext)
    (names recorded : GeometryNames) (code : TensorCode)
    (hRun : (Backend.lower ⟨dialect, catalog.tables, dimensions⟩ expr context).runWith names =
      (.ok code, recorded)) :
    code.keys = expr.keys.elements ∧
      code.nonzero.keys = (expr.liveKeys catalog.tables dimensions context).elements ∧
        (∀ key ∈ code.keys, key.Pairwise (· ≤ ·) ∧
          ∃ term ∈ expr.argumentTerms, key.length = term.length ∧ key.Perm term) ∧
          (expr.Every Expr.NoArgument → code.keys = [[]]) ∧
            ∀ (dialect' : Dialect) (catalog' : ElementCatalog) (dimensions' : CellDimensions)
              (context' : LoweringContext) (names' recorded' : GeometryNames)
              (code' : TensorCode), dimensions'.Positive →
                (Backend.lower ⟨dialect', catalog'.tables, dimensions'⟩ expr context').runWith
                    names' = (.ok code', recorded') → code'.keys = code.keys := by
  have hReturns : (Backend.lower ⟨dialect, catalog.tables, dimensions⟩ expr context).Returns code :=
    returns_iff.mpr ⟨names, by rw [hRun]⟩
  have hSupport := Backend.lower_supportedBy hDimensions hExpr hReturns
  have hKeys := hSupport.keys_eq
  refine ⟨hKeys, ?_, ?_, ?_, ?_⟩
  · refine SortedSet.eq_of_mem_iff code.nonzero.increasing (SortedSet.increasing _) fun key => ?_
    exact holds_false.symm.trans hSupport.live
  · intro key hKey
    rw [hKeys] at hKey
    obtain ⟨term, hTerm, rfl⟩ := Expr.mem_keys_iff.mp hKey
    have hPerm := Key.sorted_perm term
    exact ⟨Key.pairwise_sorted term, term, hTerm, hPerm.length_eq, hPerm⟩
  · intro hArguments
    -- There is some key, and none but the empty one.
    obtain ⟨key, hKey⟩ := hSupport.nonempty
    obtain rfl := Expr.eq_nil_of_mem_keys hArguments hKey
    have hOnly : code.keys = (Key.only []).elements := by
      refine SortedSet.eq_of_mem_iff code.increasing (SortedSet.increasing _) fun other => ?_
      rw [hKeys]
      constructor
      · intro hOther
        exact Key.mem_only.mpr (Expr.eq_nil_of_mem_keys hArguments hOther)
      · intro hOther
        rwa [Key.mem_only.mp hOther]
    exact hOnly
  · intro dialect' catalog' dimensions' context' names' recorded' code' hDimensions' hRun'
    have hReturns' : (Backend.lower ⟨dialect', catalog'.tables, dimensions'⟩ expr
        context').Returns code' := returns_iff.mpr ⟨names', by rw [hRun']⟩
    rw [hKeys, (Backend.lower_supportedBy hDimensions' hExpr hReturns').keys_eq]

/-- In `u * (v + 0)` the key of `u` alone is kept but not live. -/
theorem code_has_support_zero_term :
    let expr : Expr := .product [.argument ⟨1, 0⟩, .sum [.argument ⟨0, 0⟩, .integer 0]]
    let catalog : ElementCatalog := ⟨#[.lagrange 1], []⟩
    ∃ code, (Backend.lower ⟨.calls, catalog.tables, {}⟩ expr {}).runWith ∅ = (.ok code, ∅) ∧
      code.keys = [[0, 1], [1]] ∧ code.nonzero.keys = [[0, 1]] ∧
        expr.argumentTerms = [[1, 0], [1]] := by
  intro expr catalog
  have hExpr : expr.Every Expr.SumHasOperands :=
    ⟨trivial, trivial, ⟨List.cons_ne_nil _ _, trivial, trivial, trivial⟩, trivial⟩
  have hRun : (Backend.lower ⟨.calls, catalog.tables, {}⟩ expr {}).runWith ∅ =
      (.ok (.ofList [([0, 1], some "multiply(FE0_C0[ip][k], FE0_C0[ip][j])"), ([1], none)]), ∅) := by
    decide +kernel
  obtain ⟨hKeys, hLive, -⟩ := code_has_support .calls catalog {} ⟨by decide, by decide⟩ expr hExpr
    {} ∅ ∅ _ hRun
  refine ⟨_, hRun, ?_, ?_, by rfl⟩
  · rw [hKeys]
    rfl
  · rw [hLive]
    rfl

end FormLowering
