import FormLowering.Proofs.RenderingOnly
import FormLowering.Proofs.Support.Fading
import FormLowering.Proofs.Traversal.Shrinking

/-!
# Structurally zero tables only take away

Declaring a table structurally zero changes what is done far from its leaf: a base that
has become zero needs no exponent, an exponent that has become zero makes a one, sums lose
terms and divisors vanish.  But wherever an expression had code, it then has code with the
same keys and no fewer symbolic zeros, or it is a division by zero, and no further names are
recorded.
-/

namespace FormLowering

open LowerM

/-! ### Tables -/

/-- Whether two collections of tables differ in nothing but tables that are structurally zero
only in the second one. -/
structure BasisTables.Thins (tables thinned : BasisTables) : Prop where
  locate : thinned.locate = tables.locate
  key : ∀ argument request, (thinned.argument argument request).key = (tables.argument argument request).key
  code : ∀ argument request, (thinned.argument argument request).code = none ∨
    (thinned.argument argument request).code = (tables.argument argument request).code
  coefficient : ∀ coefficient request, thinned.coefficient coefficient request = none ∨
    thinned.coefficient coefficient request = tables.coefficient coefficient request

namespace ElementCatalog

variable {catalog : ElementCatalog} {element component : Nat} {derivatives : List Nat}

/-- What is structurally zero stays so. -/
theorem isZero_declareZero {element' component' : Nat} {derivatives' : List Nat}
    (hZero : catalog.isZero element' component' derivatives' = true) :
    (catalog.declareZero element component derivatives).isZero element' component' derivatives' =
      true := by
  unfold isZero declareZero at *
  rw [List.contains_iff_mem] at *
  exact List.mem_insert_of_mem hZero

theorem declareZero_thins (catalog : ElementCatalog) (element component : Nat)
    (derivatives : List Nat) :
    catalog.tables.Thins (catalog.declareZero element component derivatives).tables where
  locate := rfl
  key _ _ := rfl
  code argument request := by
    simp only [tables]
    split
    · exact .inl rfl
    · rename_i hOther
      rw [if_neg fun hZero => hOther (isZero_declareZero hZero)]
      exact .inr rfl
  coefficient coefficient request := by
    simp only [tables]
    split
    · exact .inl rfl
    · rename_i hOther
      rw [if_neg fun hZero => hOther (isZero_declareZero hZero)]
      exact .inr rfl

end ElementCatalog

/-! ### Gathered terms -/

namespace TensorCode

variable {dialect : Dialect} {zeros : Prop} {key : Key}

theorem holds_gathered {contributions : List (Key × List Token)} :
    Holds zeros ((SortedMap.gather contributions).mapValues dialect.join) key ↔
      ∃ terms, (key, terms) ∈ contributions ∧ (zeros ∨ terms ≠ []) := by
  constructor
  · rintro ⟨entry, hMem, hCounts⟩
    obtain ⟨⟨_, terms⟩, hTerms, hEntry⟩ := List.mem_map.mp hMem
    obtain ⟨rfl, rfl⟩ := Prod.mk.inj hEntry
    rcases hCounts with hZeros | hSome
    · obtain ⟨part, hPart⟩ := SortedMap.mem_keys_gather.mp (SortedMap.mem_keys_iff.mpr ⟨_, hTerms⟩)
      exact ⟨part, hPart, .inl hZeros⟩
    · obtain ⟨term, hTerm⟩ := List.exists_mem_of_ne_nil terms (dialect.isSome_join.mp hSome)
      obtain ⟨part, hPart, hIn⟩ := (SortedMap.mem_gathered hTerms).mp hTerm
      exact ⟨part, hPart, .inr (List.ne_nil_of_mem hIn)⟩
  · rintro ⟨part, hPart, hCounts⟩
    obtain ⟨terms, hTerms⟩ := SortedMap.mem_keys_iff.mp (SortedMap.mem_keys_gather.mpr ⟨part, hPart⟩)
    refine ⟨dialect.join terms, List.mem_map_of_mem hTerms, hCounts.imp_right fun hSome => ?_⟩
    obtain ⟨term, hTerm⟩ := List.exists_mem_of_ne_nil part hSome
    have hIn : term ∈ terms := (SortedMap.mem_gathered hTerms).mpr ⟨part, hPart, hTerm⟩
    exact dialect.isSome_join.mpr (List.ne_nil_of_mem hIn)

/-- Whether no terms have become some. -/
def Emptier (terms terms' : List Token) : Prop :=
  terms = [] → terms' = []

/-- A sum of terms under each key fades if there are fewer terms. -/
theorem gathered_fades {contributions contributions' : List (Key × List Token)}
    (hContributions : List.Forall₂ (EntryRelated Emptier) contributions contributions') :
    FadesTo ((SortedMap.gather contributions).mapValues dialect.join)
      ((SortedMap.gather contributions').mapValues dialect.join) where
  keys := by
    intro key
    simp only [holds_gathered, true_or, and_true]
    constructor
    · rintro ⟨terms, hMem⟩
      obtain ⟨⟨_, terms'⟩, hMem', rfl, -⟩ := exists_of_mem_left hContributions hMem
      exact ⟨terms', hMem'⟩
    · rintro ⟨terms', hMem'⟩
      obtain ⟨⟨_, terms⟩, hMem, rfl, -⟩ := exists_of_mem_right hContributions hMem'
      exact ⟨terms, hMem⟩
  live := by
    intro key hKey
    rw [holds_gathered] at hKey ⊢
    obtain ⟨terms', hMem', hSome⟩ := hKey
    obtain ⟨⟨_, terms⟩, hMem, rfl, hEmptier⟩ := exists_of_mem_right hContributions hMem'
    exact ⟨terms, hMem, hSome.imp_right fun hTerms' hNone => hTerms' (hEmptier hNone)⟩

theorem flatten_emptier {parts parts' : List (List Token)}
    (hParts : List.Forall₂ Emptier parts parts') : Emptier parts.flatten parts'.flatten := by
  intro hNone
  rw [List.flatten_eq_nil_iff] at hNone ⊢
  intro part' hPart'
  obtain ⟨part, hPart, hEmptier⟩ := exists_of_mem_right hParts hPart'
  exact hEmptier (hNone part hPart)

end TensorCode

open TensorCode

namespace Backend

variable {dialect : Dialect} {tables thinned : BasisTables} {dimensions : CellDimensions}
  {Allowed : Fault → Prop}

/-! ### Leaves -/

theorem basisTerms_writeOnly (backend : Backend) (place : ComponentPlace)
    (context : LoweringContext) (tuple : List Nat) (contributor : Contributor) (table : Entry) :
    WriteOnly (backend.basisTerms place context tuple contributor table) := by
  intro names
  have hTable : Option.Rel (· = ·) table table := by cases table <;> constructor; rfl
  refine ((backend.congruent_self names).basisTerms_simulates (.refl_eq context) place tuple
    contributor hTable).mono fun terms terms' hTerms => ?_
  rwa [List.forall₂_eq_eq_eq] at hTerms

/-- A table contributes what it did, or nothing. -/
theorem basisTerms_shrinks (place : ComponentPlace) (context : LoweringContext) (tuple : List Nat)
    (contributor : Contributor) {table table' : Entry} (hTable : table' = none ∨ table' = table) :
    Shrinks Allowed Emptier
      (basisTerms ⟨dialect, tables, dimensions⟩ place context tuple contributor table)
      (basisTerms ⟨dialect, thinned, dimensions⟩ place context tuple contributor table') := by
  have hTerms := basisTerms_writeOnly ⟨dialect, tables, dimensions⟩ place context tuple contributor table
  rcases hTable with rfl | rfl
  · exact .skip hTerms fun _ _ => rfl
  · exact (Shrinks.refl hTerms).mono (fun _ => id) fun terms terms' hEq => hEq ▸ id

theorem argumentCode_shrinks (hTables : tables.Thins thinned) (argument : Argument)
    (component : Nat) (place : ComponentPlace) (tuples : List (List Nat))
    (context : LoweringContext) :
    Shrinks Allowed FadesTo
      (argumentCode ⟨dialect, tables, dimensions⟩ argument component place tuples context)
      (argumentCode ⟨dialect, thinned, dimensions⟩ argument component place tuples context) := by
  have hPair (pair : List Nat × Contributor) : WriteOnly (do
      let table := tables.argument argument (dimensions.tableRequest context pair.1 pair.2)
      let terms ← basisTerms ⟨dialect, tables, dimensions⟩ place context pair.1 pair.2 table.code
      return (table.key, terms)) :=
    (basisTerms_writeOnly _ place context _ _ _).bind fun _ => .pure _
  unfold argumentCode
  refine (Shrinks.refl (.ofExcept _)).bind (fun _ => (WriteOnly.mapM hPair).bind fun _ => .pure _) ?_
  rintro contributors _ - rfl
  have hOrder : List.Forall₂ (· = ·) (tableOrder tuples contributors)
      (tableOrder tuples contributors) := List.forall₂_refl _
  refine (Shrinks.mapM (S := EntryRelated Emptier) hOrder hPair ?_).bind (fun _ => .pure _)
    fun _ _ _ hContributions => .pure (gathered_fades hContributions)
  rintro pair _ rfl
  exact (basisTerms_shrinks place context pair.1 pair.2 (hTables.code argument _)).bind
    (fun _ => .pure _) fun _ _ _ hTerms => .pure ⟨(hTables.key argument _).symm, hTerms⟩

theorem coefficientCode_shrinks (hTables : tables.Thins thinned) (coefficient : Coefficient)
    (component : Nat) (place : ComponentPlace) (tuples : List (List Nat))
    (context : LoweringContext) :
    Shrinks Allowed (fun entry entry' => entry = none → entry' = none)
      (coefficientCode ⟨dialect, tables, dimensions⟩ coefficient component place tuples context)
      (coefficientCode ⟨dialect, thinned, dimensions⟩ coefficient component place tuples context) := by
  have hPair (pair : List Nat × Contributor) : WriteOnly (basisTerms ⟨dialect, tables, dimensions⟩
      place context pair.1 pair.2
        (tables.coefficient coefficient (dimensions.tableRequest context pair.1 pair.2))) :=
    basisTerms_writeOnly _ place context _ _ _
  unfold coefficientCode
  refine (Shrinks.refl (.ofExcept _)).bind (fun _ => (WriteOnly.mapM hPair).bind fun _ => .pure _) ?_
  rintro contributors _ - rfl
  have hOrder : List.Forall₂ (· = ·) (tableOrder tuples contributors)
      (tableOrder tuples contributors) := List.forall₂_refl _
  refine (Shrinks.mapM (S := Emptier) hOrder hPair ?_).bind (fun _ => .pure _)
    fun terms terms' _ hTerms => .pure fun hNone => ?_
  · rintro pair _ rfl
    exact basisTerms_shrinks place context pair.1 pair.2 (hTables.coefficient coefficient _)
  · rw [← Option.not_isSome_iff_eq_none, Dialect.isSome_join, not_not] at hNone ⊢
    exact flatten_emptier hTerms hNone

theorem selected_eq_of_thins (hTables : tables.Thins thinned) (element : Nat)
    (context : LoweringContext) :
    thinned.selected element context = tables.selected element context := by
  unfold BasisTables.selected
  rw [hTables.locate]

theorem lowerArgument_shrinks (hTables : tables.Thins thinned) (argument : Argument)
    (context : LoweringContext) :
    Shrinks Allowed FadesTo (lowerArgument ⟨dialect, tables, dimensions⟩ argument context)
      (lowerArgument ⟨dialect, thinned, dimensions⟩ argument context) := by
  unfold lowerArgument
  dsimp only
  rw [selected_eq_of_thins hTables]
  refine (Shrinks.refl (.ofExcept _)).bind (fun _ => argumentCode_writeOnly _ _ _ _ _ _) ?_
  rintro ⟨component, place⟩ _ - rfl
  exact argumentCode_shrinks hTables argument component place _ context

theorem lowerCoefficient_shrinks (hTables : tables.Thins thinned) (coefficient : Coefficient)
    (context : LoweringContext) :
    Shrinks Allowed FadesTo (lowerCoefficient ⟨dialect, tables, dimensions⟩ coefficient context)
      (lowerCoefficient ⟨dialect, thinned, dimensions⟩ coefficient context) := by
  unfold lowerCoefficient
  dsimp only
  rw [selected_eq_of_thins hTables]
  refine (Shrinks.refl (.ofExcept _)).bind
    (fun _ => (coefficientCode_writeOnly _ _ _ _ _ _).bind fun _ => .pure _) ?_
  rintro ⟨component, place⟩ _ - rfl
  exact (coefficientCode_shrinks hTables coefficient component place _ context).bind
    (fun _ => .pure _) fun _ _ _ hEntries => .pure (.scalar hEntries)

/-- Constants have no tables. -/
theorem constant_shrinks (leaf : Constant) (context : LoweringContext) :
    Shrinks Allowed FadesTo (lower ⟨dialect, tables, dimensions⟩ leaf.expr context)
      (lower ⟨dialect, thinned, dimensions⟩ leaf.expr context) := by
  have hSame : lower ⟨dialect, tables, dimensions⟩ leaf.expr context =
      lower ⟨dialect, thinned, dimensions⟩ leaf.expr context := by
    rw [lower_constant, lower_constant]
    cases leaf <;> rfl
  rw [hSame]
  exact (Shrinks.refl (lower_writeOnly _ _ _)).mono (fun _ => id) fun code _ hEq => hEq ▸ .refl code

/-! ### Powers -/

/-- Symbolic zero has all powers that a token has, but for negative ones. -/
theorem fault_of_powerOfZero {one : Token} {exponent : ExponentForm} {fault : Fault}
    (hSupported : exponent ≠ .unsupported) (hFault : exponent.powerOfZero one = .error fault) :
    fault = .divisionByZero := by
  have hLiteral {sign : ExponentForm.LiteralSign} (hSign : exponent.sign? = some sign) :
      fault = .divisionByZero := by
    unfold ExponentForm.powerOfZero at hFault
    rw [hSign] at hFault
    cases sign with
    | positive => cases hFault
    | zero => cases hFault
    | other =>
        cases hFault
        rfl
  cases exponent with
  | integer value => exact hLiteral rfl
  | real value => exact hLiteral rfl
  | function => cases hFault
  | unsupported => exact absurd rfl hSupported

section Powers

variable {left right : Backend} {exponentCode exponentCode' : LowerM TensorCode}

/-- A base that has become symbolic zero needs no exponent. -/
theorem powerOf_shrinks_zero (hDivision : Allowed .divisionByZero)
    (hExponent : WriteOnly exponentCode) (base one : Token) (exponent : ExponentForm) :
    Shrinks Allowed (fun _ _ => True) (left.powerOf base exponent exponentCode)
      (LowerM.ofExcept (exponent.powerOfZero one)) := by
  have hLiteral {token : Token} (hSupported : exponent ≠ .unsupported) :
      Shrinks Allowed (fun _ _ => True) (LowerM.ofExcept (.ok token))
        (LowerM.ofExcept (exponent.powerOfZero one)) :=
    .ofExcept (fun _ _ _ _ => trivial) fun _ fault _ hFault =>
      fault_of_powerOfZero hSupported hFault ▸ hDivision
  cases exponent with
  | integer value => exact hLiteral nofun
  | real value => exact hLiteral nofun
  | function => exact .skip (powerOf_writeOnly base _ hExponent) fun _ => trivial
  | unsupported => exact .throw _ _

theorem powerOf_shrinks (hExponent : Shrinks Allowed FadesTo exponentCode exponentCode')
    (base base' : Token) (exponent : ExponentForm) :
    Shrinks Allowed (fun _ _ => True) (left.powerOf base exponent exponentCode)
      (right.powerOf base' exponent exponentCode') := by
  cases exponent with
  | integer value => exact .pure trivial
  | real value => exact .pure trivial
  | unsupported => exact .throw _ _
  | function =>
      refine hExponent.bind (fun code => ?_) fun code code' _ hFades => ?_
      · split
        · exact .pure _
        · exact .pure _
        · exact .throw _
      · have hScalar := hFades.asScalar?
        generalize code.asScalar? = entry at hScalar ⊢
        generalize code'.asScalar? = entry' at hScalar ⊢
        -- Both exponents are scalars, or the first power has failed.
        match entry, entry', hScalar with
        | none, none, _ => exact .throw _ _
        | some none, some none, _ => exact .pure trivial
        | some none, some (some _), _ => exact .pure trivial
        | some (some _), some none, _ => exact .pure trivial
        | some (some _), some (some _), _ => exact .pure trivial

theorem powerCode_shrinks (hDialect : left.dialect = right.dialect)
    (hDivision : Allowed .divisionByZero) (exponent : ExponentForm)
    {baseCode baseCode' : LowerM TensorCode} (hBase : Shrinks Allowed FadesTo baseCode baseCode')
    (hExponent : Shrinks Allowed FadesTo exponentCode exponentCode')
    (hKeeps : WriteOnly exponentCode) :
    Shrinks Allowed FadesTo (left.powerCode baseCode exponent exponentCode)
      (right.powerCode baseCode' exponent exponentCode') := by
  refine hBase.bind (fun code => ?_) fun code code' _ hFades => ?_
  · split
    · exact .throw _
    · exact (WriteOnly.ofExcept _).bind fun _ => .pure _
    · exact (powerOf_writeOnly _ _ hKeeps).bind fun _ => .pure _
  · have hScalar := hFades.asScalar?
    generalize code.asScalar? = entry at hScalar ⊢
    generalize code'.asScalar? = entry' at hScalar ⊢
    match entry, entry', hScalar with
    | none, none, _ => exact .throw _ _
    | some none, some none, _ =>
      rw [hDialect]
      refine (Shrinks.refl (.ofExcept _)).bind (fun _ => .pure _) ?_
      rintro power _ - rfl
      exact .pure (.refl _)
    | some none, some (some _), .some hEntry => exact nomatch hEntry rfl
    | some (some base), some none, _ =>
      refine (powerOf_shrinks_zero hDivision hKeeps base _ exponent).bind (fun _ => .pure _)
        fun token power _ _ => .pure (.scalar nofun)
    | some (some base), some (some base'), _ =>
      exact (powerOf_shrinks hExponent base base' exponent).bind (fun _ => .pure _)
        fun _ _ _ _ => .pure (.scalar nofun)

end Powers

/-! ### Nodes -/

theorem lowerAll_shrinks {left right : Backend} {operands : List Expr} {context : LoweringContext}
    (hOperands : ∀ operand ∈ operands,
      Shrinks Allowed FadesTo (left.lower operand context) (right.lower operand context)) :
    Shrinks Allowed (List.Forall₂ FadesTo) (left.lowerAll operands context)
      (right.lowerAll operands context) := by
  induction operands with
  | nil =>
      rw [lowerAll, lowerAll]
      exact .pure .nil
  | cons operand rest ih =>
      rw [List.forall_mem_cons] at hOperands
      rw [lowerAll, lowerAll]
      have hRest := left.lowerAll_writeOnly rest context
      refine hOperands.1.bind (fun code => hRest.bind fun codes => .pure _) fun _ _ _ hFades => ?_
      exact (ih hOperands.2).bind (fun codes => .pure _) fun _ _ _ hCodes => .pure (.cons hFades hCodes)

/-- Tokens are not empty if names of symbols are not. -/
theorem allTokens_written {catalog : ElementCatalog} (hAvailable : dialect.Available) {expr : Expr}
    (hExpr : expr.Every Expr.NamedSymbol) {context : LoweringContext} {code : TensorCode}
    (hReturns : (lower ⟨dialect, catalog.tables, dimensions⟩ expr context).Returns code) :
    code.AllTokens (· ≠ "") := by
  obtain ⟨names, hRun⟩ := returns_iff.mp hReturns
  have hParallel := (congruent_available hAvailable hAvailable catalog dimensions).parallel
    Expr.NamedSymbol (fun _ _ _ => rfl) fun _ hName => bothWritten_iff.mpr ⟨hName, hName⟩
  have hAnswers := (lower_simulates hParallel hExpr (.refl_eq context) names names rfl).1
  rw [hRun] at hAnswers
  cases hAnswers with
  | ok hCodes =>
      intro key token hMem
      obtain ⟨entry, -, hEntries⟩ := hCodes.exists_of_mem_left hMem
      cases hEntries with
      | some hTokens => exact (bothWritten_iff.mp hTokens).1

/-- Lowering an expression with thinner tables gives code that has faded, or is a division
by zero if what is written is not empty. -/
theorem lower_shrinks (hTables : tables.Thins thinned) {Written : Prop}
    (hTokens : Written → ∀ {expr context code}, expr.Every Expr.NamedSymbol →
      (lower ⟨dialect, thinned, dimensions⟩ expr context).Returns code → code.AllTokens (· ≠ ""))
    {expr : Expr} (hExpr : Written → expr.Every Expr.NamedSymbol) (context : LoweringContext) :
    Shrinks (fun fault => Written → fault = .divisionByZero) FadesTo
      (lower ⟨dialect, tables, dimensions⟩ expr context)
      (lower ⟨dialect, thinned, dimensions⟩ expr context) := by
  induction expr using Expr.node_induction generalizing context with
  | operation operation operands ih =>
      rw [lower_operation, lower_operation]
      have hOperands (hWritten : Written) := (Expr.every_operation.mp (hExpr hWritten)).2
      have hAll := lowerAll_shrinks fun operand hMem =>
        ih operand hMem (fun hWritten => hOperands hWritten operand hMem) context
      refine (hAll.bind (fun codes => .ofExcept _) fun codes codes' hCodes hFades => ?_).within _
      refine .ofExcept (fun _ _ => .combine operation hFades) fun code fault hCode hFault hWritten => ?_
      refine FadesTo.fault_of_combine operation hFades (fun faded hMem => ?_) hCode hFault
      obtain ⟨operand, hOperand, hReturns⟩ := exists_of_mem_right (returns_lowerAll.mp hCodes) hMem
      exact hTokens hWritten (hOperands hWritten operand hOperand) hReturns
  | power base exponent ihBase ihExponent =>
      rw [lower, lower]
      exact (powerCode_shrinks rfl (fun _ => rfl) _ (ihBase (fun hWritten => (hExpr hWritten).2.1) context)
        (ihExponent (fun hWritten => (hExpr hWritten).2.2) context) (lower_writeOnly _ _ _)).within _
  | modifier modifier operand ih =>
      rw [lower_modifier, lower_modifier]
      exact (ih (fun hWritten => (Expr.every_modifier.mp (hExpr hWritten)).2) _).within _
  | argument basis =>
      rw [lower, lower]
      exact (lowerArgument_shrinks hTables basis context).within _
  | coefficient field =>
      rw [lower, lower]
      exact (lowerCoefficient_shrinks hTables field context).within _
  | constant leaf => exact constant_shrinks leaf context

/-- Declaring a table structurally zero only takes away.  Where an expression had code, the
names that are recorded then have been recorded before.  If there is code, it has the same
keys, and what was symbolic zero is.  There may be none, but then this is a division by zero,
unless a symbol has no name. -/
theorem declareZero_only_removes (dialect : Dialect) (catalog : ElementCatalog)
    (element component : Nat) (derivatives : List Nat) (dimensions : CellDimensions) (expr : Expr)
    (context : LoweringContext) (names recorded recorded' : GeometryNames) (code : TensorCode)
    (answer : Except LoweringError TensorCode)
    (hRun : (lower ⟨dialect, catalog.tables, dimensions⟩ expr context).runWith names =
      (.ok code, recorded))
    (hRun' : (lower ⟨dialect, (catalog.declareZero element component derivatives).tables,
      dimensions⟩ expr context).runWith names = (answer, recorded')) :
    (∀ name ∈ recorded', name ∈ recorded) ∧
      (∀ code', answer = .ok code' →
        code.keys = code'.keys ∧ ∀ key, code.get? key = some none → code'.get? key = some none) ∧
        ∀ error, answer = .error error → dialect.Available → expr.Every Expr.NamedSymbol →
          error.fault = .divisionByZero := by
  have hShrinks : Shrinks
      (fun fault => dialect.Available ∧ expr.Every Expr.NamedSymbol → fault = .divisionByZero) FadesTo
      (lower ⟨dialect, catalog.tables, dimensions⟩ expr context)
      (lower ⟨dialect, (catalog.declareZero element component derivatives).tables, dimensions⟩ expr
        context) :=
    lower_shrinks (catalog.declareZero_thins element component derivatives)
      (fun hWritten _ _ _ hOwn hReturns => allTokens_written hWritten.1 hOwn hReturns) And.right
      context
  obtain ⟨hNames, hEnds⟩ := hShrinks names names code recorded (fun _ => id) hRun
  rw [hRun'] at hNames hEnds
  refine ⟨hNames, ?_, ?_⟩
  · rintro code' rfl
    exact ⟨hEnds.keys_eq, fun key => hEnds.get?_eq_none⟩
  · rintro error rfl hAvailable hExpr
    exact hEnds ⟨hAvailable, hExpr⟩

/-- A sum loses a term and the factor that goes with it, and a quotient loses its divisor. -/
theorem declareZero_only_removes_term_and_divisor :
    let catalog : ElementCatalog := ⟨#[.lagrange 1], []⟩
    let run (catalog : ElementCatalog) (expr : Expr) :=
      (lower ⟨.cpp none, catalog.tables, {}⟩ expr {}).runWith ∅
    let shifted : Expr := .sum [.derivative (.coefficient ⟨0, 0⟩) 0, .symbol "a"]
    let quotient : Expr := .division [.symbol "a", .coefficient ⟨0, 0⟩]
    (∃ code code', run catalog shifted = (.ok code, .ofList ["K_00", "K_10"]) ∧
      run (catalog.declareZero 0 0 [1, 0]) shifted = (.ok code', .ofList ["K_10"]) ∧
        code.keys = code'.keys) ∧
      ∃ code error, run catalog quotient = (.ok code, ∅) ∧
        run (catalog.declareZero 0 0 []) quotient = (.error error, ∅) ∧
          error.fault = .divisionByZero := by
  intro catalog run shifted quotient
  have hName : "a" ≠ "" := by decide
  have hExpr : quotient.Every Expr.NamedSymbol := ⟨trivial, hName, trivial, trivial⟩
  have hSum : run catalog shifted =
      (.ok (.scalar (some "((K_00*F0_C0_D10 + K_10*F0_C0_D01) + a)")), .ofList ["K_00", "K_10"]) := by
    decide +kernel
  have hSum' : run (catalog.declareZero 0 0 [1, 0]) shifted =
      (.ok (.scalar (some "(K_10*F0_C0_D01 + a)")), .ofList ["K_10"]) := by
    decide +kernel
  have hQuotient : run catalog quotient = (.ok (.scalar (some "a/(F0_C0)")), ∅) := by
    decide +kernel
  have hQuotient' : run (catalog.declareZero 0 0 []) quotient =
      (.error ⟨.divisionByZero, some "(a / w_0)"⟩, ∅) := by
    decide +kernel
  obtain ⟨-, hCode, -⟩ := declareZero_only_removes (.cpp none) catalog 0 0 [1, 0] {} shifted {} ∅ _
    _ _ _ hSum hSum'
  obtain ⟨-, -, hError⟩ := declareZero_only_removes (.cpp none) catalog 0 0 [] {} quotient {} ∅ _ _
    _ _ hQuotient hQuotient'
  exact ⟨⟨_, _, hSum, hSum', (hCode _ rfl).1⟩, _, _, hQuotient, hQuotient',
    hError _ rfl (.cpp none) hExpr⟩

end Backend

end FormLowering
