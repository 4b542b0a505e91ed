import FormLowering.Proofs.Tokens.LeafNames

/-!
# Everything that must be declared is recorded

Emitted code refers to geometric quantities by name.  The names that lowering records are
those in the factors of the leaves that it evaluates, a table that is structurally zero
left out, and every geometric name in a token of the code is among them.
-/

namespace FormLowering

open LowerM

/-- Whether a symbol is an identifier that is not the name of a geometric quantity. -/
def Expr.OrdinarySymbol : Expr → Prop
  | .symbol name => IsIdentifier name ∧ ¬IsGeometryName name
  | _ => True

namespace Backend

/-- Whether a part of an expression is evaluated, and in which context, when lowering
evaluates the expression in a context.  Operands are evaluated up to the first that
fails, and exponents if they are functions and the base is a token. -/
inductive Evaluates (backend : Backend) :
    Expr → LoweringContext → Expr → LoweringContext → Prop
  | self (expr : Expr) (context : LoweringContext) : Evaluates backend expr context expr context
  | operand {operation : Operation} {before after : List Expr} {operand part : Expr}
    {context inner : LoweringContext}
    (hBefore : ∀ earlier ∈ before, ∃ code, (backend.lower earlier context).Returns code)
    (hOperand : Evaluates backend operand context part inner) :
    Evaluates backend (operation.node (before ++ operand :: after)) context part inner
  | base {base exponent part : Expr} {context inner : LoweringContext}
    (hBase : Evaluates backend base context part inner) :
    Evaluates backend (.power base exponent) context part inner
  | exponent {base exponent part : Expr} {context inner : LoweringContext} {baseCode : TensorCode}
    {token : Token} (hBase : (backend.lower base context).Returns baseCode)
    (hToken : baseCode.asScalar? = some (some token)) (hForm : exponent.exponentForm = .function)
    (hExponent : Evaluates backend exponent context part inner) :
    Evaluates backend (.power base exponent) context part inner
  | modified {modifier : Modifier} {operand part : Expr} {context inner : LoweringContext}
    (hOperand : Evaluates backend operand (modifier.apply context) part inner) :
    Evaluates backend (modifier.node operand) context part inner

variable {backend : Backend} {context : LoweringContext} {name : Token}

/-- What a part records is recorded by the whole. -/
theorem Evaluates.records {expr part : Expr} {inner : LoweringContext}
    (hPart : backend.Evaluates expr context part inner)
    (hName : (backend.lower part inner).Records name) :
    (backend.lower expr context).Records name := by
  induction hPart with
  | self expr context => exact hName
  | operand hBefore _ ih => exact records_operation.mpr ⟨_, _, _, rfl, hBefore, ih hName⟩
  | base _ ih => exact records_power.mpr (.inl (ih hName))
  | exponent hBase hToken hForm _ ih =>
      exact records_power.mpr (.inr ⟨_, _, hBase, hToken, hForm, ih hName⟩)
  | modified _ ih => exact records_modifier.mpr (ih hName)

/-- Whatever is recorded is recorded by one of the leaves that are evaluated. -/
theorem exists_leaf_of_records {expr : Expr} (hName : (backend.lower expr context).Records name) :
    ∃ leaf inner, backend.Evaluates expr context leaf inner ∧ leaf.refersToGeometry = true ∧
      (backend.lower leaf inner).Records name := by
  induction expr using Expr.node_induction generalizing context with
  | operation operation operands ih =>
      obtain ⟨before, operand, after, rfl, hBefore, hOperand⟩ := records_operation.mp hName
      obtain ⟨leaf, inner, hLeaf, hRest⟩ := ih operand (by simp) hOperand
      exact ⟨leaf, inner, .operand hBefore hLeaf, hRest⟩
  | power base exponent ihBase ihExponent =>
      rcases records_power.mp hName with hBase | ⟨baseCode, token, hBase, hToken, hForm, hExponent⟩
      · obtain ⟨leaf, inner, hLeaf, hRest⟩ := ihBase hBase
        exact ⟨leaf, inner, .base hLeaf, hRest⟩
      · obtain ⟨leaf, inner, hLeaf, hRest⟩ := ihExponent hExponent
        exact ⟨leaf, inner, .exponent hBase hToken hForm hLeaf, hRest⟩
  | modifier modifier operand ih =>
      obtain ⟨leaf, inner, hLeaf, hRest⟩ := ih (records_modifier.mp hName)
      exact ⟨leaf, inner, .modified hLeaf, hRest⟩
  | argument basis => exact ⟨_, context, .self _ _, rfl, hName⟩
  | coefficient field => exact ⟨_, context, .self _ _, rfl, hName⟩
  | constant leaf =>
      cases leaf with
      | normal => exact ⟨_, context, .self _ _, rfl, hName⟩
      | _ => exact absurd (records_constant.mp hName).2 not_records_pure

variable {dialect : Dialect} {catalog : ElementCatalog} {dimensions : CellDimensions}

/-- The recorded names are those of the leaves that are evaluated. -/
theorem records_iff_leafNames (hAvailable : dialect.Available) {expr : Expr} :
    (lower ⟨dialect, catalog.tables, dimensions⟩ expr context).Records name ↔
      ∃ leaf inner, Evaluates ⟨dialect, catalog.tables, dimensions⟩ expr context leaf inner ∧
        name ∈ leafNames ⟨dialect, catalog.tables, dimensions⟩ inner leaf := by
  constructor
  · intro hRecords
    obtain ⟨leaf, inner, hLeaf, hGeometry, hOwn⟩ := exists_leaf_of_records hRecords
    have hDeclares := declares_leaf hAvailable catalog dimensions inner hGeometry
    exact ⟨leaf, inner, hLeaf, hDeclares.records_iff.mp hOwn⟩
  · rintro ⟨leaf, inner, hLeaf, hListed⟩
    have hGeometry := refersToGeometry_of_mem_leafNames hListed
    have hDeclares := declares_leaf hAvailable catalog dimensions inner hGeometry
    exact hLeaf.records (hDeclares.records_iff.mpr hListed)

/-- Tokens of the code of a leaf mention only names that it records. -/
theorem allTokens_leaf (hAvailable : dialect.Available) {leaf : Expr}
    (hLeaf : leaf.refersToGeometry = true) {code : TensorCode}
    (hReturns : (lower ⟨dialect, catalog.tables, dimensions⟩ leaf context).Returns code) :
    code.AllTokens fun token => ∀ name, Mentions token name →
      (lower ⟨dialect, catalog.tables, dimensions⟩ leaf context).Records name := by
  intro key token hMem name hName
  have hDeclares := declares_leaf hAvailable catalog dimensions context hLeaf
  have hToken : token ∈ code.tokens := TensorCode.mem_tokens.mpr ⟨key, hMem⟩
  have hListed := (hDeclares.mentionExactly hReturns name).mp ⟨token, hToken, hName⟩
  exact hDeclares.records_iff.mpr hListed

/-- Literals and symbols mention nothing. -/
theorem allTokens_constant (hAvailable : dialect.Available) {leaf : Constant}
    (hLeaf : leaf ≠ .normal) (hExpr : leaf.expr.OrdinarySymbol) {code : TensorCode}
    (hReturns : (lower ⟨dialect, catalog.tables, dimensions⟩ leaf.expr context).Returns code) :
    code.AllTokens fun token => ∀ name, ¬Mentions token name := by
  have hLiteral : ∀ value, (literalCode ⟨dialect, catalog.tables, dimensions⟩ value).AllTokens
      fun token => ∀ name, ¬Mentions token name := by
    refine fun value => .scalar fun token hToken => ?_
    split at hToken <;> cases hToken
    exact fun _ => hAvailable.not_mentions_literal value
  have hNone : (TensorCode.scalar none).AllTokens fun token => ∀ name, ¬Mentions token name :=
    .scalar fun _ hToken => nomatch hToken
  rw [returns_constant] at hReturns
  split at hReturns
  · cases leaf with
    | normal => contradiction
    | integer value => exact returns_pure.mp hReturns ▸ hLiteral _
    | real value => exact returns_pure.mp hReturns ▸ hLiteral value
    | zero => exact returns_pure.mp hReturns ▸ hNone
    | symbol name =>
        refine returns_pure.mp hReturns ▸ .scalar fun token hToken => ?_
        cases hToken
        exact hExpr.1.not_mentions hExpr.2
  · exact hReturns ▸ hNone

/-- Tokens of code mention only recorded names. -/
theorem allTokens_recorded (hAvailable : dialect.Available) {expr : Expr}
    (hExpr : expr.Every Expr.OrdinarySymbol) {code : TensorCode}
    (hReturns : (lower ⟨dialect, catalog.tables, dimensions⟩ expr context).Returns code) :
    code.AllTokens fun token => ∀ name, Mentions token name →
      (lower ⟨dialect, catalog.tables, dimensions⟩ expr context).Records name := by
  have hPreserves := hAvailable.preserves_mentioned
  induction expr using Expr.node_induction generalizing context code with
  | operation operation operands ih =>
      obtain ⟨-, hOperands⟩ := Expr.every_operation.mp hExpr
      obtain ⟨codes, hCodes, hCode⟩ := returns_operation.mp hReturns
      refine (hPreserves _).combine operation (fun operandCode hMem => ?_) hCode
      obtain ⟨operand, hOperand, hOwn⟩ := exists_of_mem_right hCodes hMem
      have hMentions := ih operand hOperand (hOperands operand hOperand) hOwn
      refine hMentions.mono fun token hToken name hName => ?_
      -- All operands before this one have returned as well.
      obtain ⟨before, after, rfl⟩ := List.append_of_mem hOperand
      refine records_operation.mpr ⟨before, operand, after, rfl, fun earlier hEarlier => ?_,
        hToken name hName⟩
      obtain ⟨earlierCode, -, hEarlierCode⟩ :=
        exists_of_mem_left hCodes (List.mem_append_left _ hEarlier)
      exact ⟨earlierCode, hEarlierCode⟩
  | power base exponent ihBase ihExponent =>
      obtain ⟨-, hBaseSymbols, hExponentSymbols⟩ := hExpr
      refine (hPreserves _).power_node (fun hBase => ?_) (fun hBase hToken hForm hExponent => ?_)
        hReturns
      · exact (ihBase hBaseSymbols hBase).mono fun _ hMentions name hName =>
          records_power.mpr (.inl (hMentions name hName))
      · exact (ihExponent hExponentSymbols hExponent).mono fun _ hMentions name hName =>
          records_power.mpr (.inr ⟨_, _, hBase, hToken, hForm, hMentions name hName⟩)
  | modifier modifier operand ih =>
      refine (ih (Expr.every_modifier.mp hExpr).2 (returns_modifier.mp hReturns)).mono
        fun token hToken name hName => records_modifier.mpr (hToken name hName)
  | argument basis => exact allTokens_leaf hAvailable rfl hReturns
  | coefficient field => exact allTokens_leaf hAvailable rfl hReturns
  | constant leaf =>
      rcases eq_or_ne leaf .normal with rfl | hLeaf
      · exact allTokens_leaf hAvailable rfl hReturns
      · refine (allTokens_constant hAvailable hLeaf (Expr.every_constant.mp hExpr) hReturns).mono ?_
        exact fun token hSilent name hName => absurd hName (hSilent name)

/-- Every geometric name in the code of an expression is recorded.  Conversely a name that
is recorded, by a run that may fail, is in the code of an argument, a coefficient or a facet
normal that has been evaluated.  The recorded names are those in the factors of the tables
of these leaves, where tables that are structurally zero do not count. -/
theorem geometry_is_declared (hAvailable : dialect.Available) (catalog : ElementCatalog)
    (dimensions : CellDimensions) (expr : Expr) (hExpr : expr.Every Expr.OrdinarySymbol)
    (context : LoweringContext) (names recorded : GeometryNames)
    (answer : Except LoweringError TensorCode)
    (hRun : (lower ⟨dialect, catalog.tables, dimensions⟩ expr context).runWith names =
      (answer, recorded)) :
    let backend : Backend := ⟨dialect, catalog.tables, dimensions⟩
    (∀ code, answer = .ok code → ∀ token ∈ code.tokens, ∀ name ∈ identifiers token,
      IsGeometryName name → name ∈ recorded) ∧
      (∀ name ∈ recorded, name ∈ names ∨ ∃ leaf inner code,
        backend.Evaluates expr context leaf inner ∧ leaf.refersToGeometry = true ∧
          (backend.lower leaf inner).Returns code ∧
            ∃ token ∈ code.tokens, name ∈ identifiers token) ∧
        ∀ name, name ∈ recorded ↔ name ∈ names ∨ ∃ leaf inner,
          backend.Evaluates expr context leaf inner ∧ name ∈ backend.leafNames inner leaf := by
  intro backend
  have hRecorded : ∀ {name}, name ∈ recorded ↔
      name ∈ names ∨ (backend.lower expr context).Records name := by
    intro name
    rw [← (backend.lower_writeOnly expr context).mem_runWith, hRun]
  have hExact : ∀ name, name ∈ recorded ↔ name ∈ names ∨ ∃ leaf inner,
      backend.Evaluates expr context leaf inner ∧ name ∈ backend.leafNames inner leaf :=
    fun name => hRecorded.trans (or_congr_right (records_iff_leafNames hAvailable))
  refine ⟨?_, ?_, hExact⟩
  · rintro code rfl token hToken name hName hGeometry
    obtain ⟨key, hMem⟩ := TensorCode.mem_tokens.mp hToken
    have hReturns : (backend.lower expr context).Returns code :=
      returns_iff.mpr ⟨names, by rw [hRun]⟩
    exact hRecorded.mpr (.inr (allTokens_recorded hAvailable hExpr hReturns key token hMem name
      ⟨hGeometry, hName⟩))
  · intro name hName
    refine ((hExact name).mp hName).imp_right fun ⟨leaf, inner, hLeaf, hListed⟩ => ?_
    have hGeometry := refersToGeometry_of_mem_leafNames hListed
    have hDeclares := declares_leaf hAvailable catalog dimensions inner hGeometry
    obtain ⟨code, hReturns⟩ := hDeclares.exists_returns hListed
    obtain ⟨token, hToken, -, hIn⟩ := (hDeclares.mentionExactly hReturns name).mpr hListed
    exact ⟨leaf, inner, code, hLeaf, hGeometry, hReturns, token, hToken, hIn⟩

/-- A covariant component whose second table is structurally zero needs `K_00`, and no
leaf needs `K_10`. -/
theorem geometry_is_declared_zero_table :
    let catalog : ElementCatalog := .declareZero ⟨#[.nedelec 1 2], []⟩ 0 1 []
    let backend : Backend := ⟨.cpp none, catalog.tables, {}⟩
    let expr : Expr := .product [.indexed (.coefficient ⟨0, 0⟩) [0], .symbol "a"]
    (backend.lower expr {}).runWith ∅ =
        (.ok (.scalar (some "K_00*F0_C0*a")), .ofList ["K_00"]) ∧
      (∀ name ∈ identifiers "K_00*F0_C0*a", IsGeometryName name → name = "K_00") ∧
        (∃ leaf inner, backend.Evaluates expr {} leaf inner ∧
          "K_00" ∈ backend.leafNames inner leaf) ∧
          ¬∃ leaf inner, backend.Evaluates expr {} leaf inner ∧
            "K_10" ∈ backend.leafNames inner leaf := by
  intro catalog backend expr
  have hSymbol : IsIdentifier "a" ∧ ¬IsGeometryName "a" := by
    refine ⟨by decide, fun hName => ?_⟩
    have hLooks := hName.looksGeometric
    contradiction
  have hExpr : expr.Every Expr.OrdinarySymbol :=
    ⟨trivial, ⟨trivial, trivial⟩, hSymbol, trivial⟩
  have hRun : (backend.lower expr {}).runWith ∅ =
      (.ok (.scalar (some "K_00*F0_C0*a")), .ofList ["K_00"]) := by
    decide +kernel
  obtain ⟨hDeclared, -, hExact⟩ :=
    geometry_is_declared (.cpp none) catalog {} expr hExpr {} ∅ _ _ hRun
  have hToken : "K_00*F0_C0*a" ∈ TensorCode.tokens (.scalar (some "K_00*F0_C0*a")) := by
    rw [TensorCode.tokens_scalar]
    exact List.mem_singleton_self _
  refine ⟨hRun, fun name hName hGeometry => ?_, ?_, fun hLeaf => ?_⟩
  · have hMem := hDeclared _ rfl _ hToken name hName hGeometry
    rwa [SortedSet.mem_ofList, List.mem_singleton] at hMem
  · have hMem : "K_00" ∈ SortedSet.ofList ["K_00"] :=
      SortedSet.mem_ofList.mpr (List.mem_singleton_self _)
    exact ((hExact "K_00").mp hMem).resolve_left SortedSet.not_mem_empty
  · have hMem := (hExact "K_10").mpr (.inr hLeaf)
    rw [SortedSet.mem_ofList, List.mem_singleton] at hMem
    exact absurd hMem (by decide)

end Backend

end FormLowering
