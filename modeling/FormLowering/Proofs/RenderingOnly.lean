import FormLowering.Proofs.Reading.Nonempty
import FormLowering.Proofs.Semantics.DialectIndependence
import FormLowering.Proofs.Traversal.Congruence

/-!
# Dialects differ in rendering only

Lowering looks at the text of tokens in three places: a factor or a divisor may be
written like one, a token may be empty, and terms may be written alike.  Which of
these happens depends on the dialect.  Still, as long as no symbol has an empty
name, lowering goes the same way in every available dialect: it fails alike, or makes
code with the same keys and the same symbolic zeros, and it records the same names.
-/

namespace FormLowering

open LowerM

/-- The keys of a code, each with whether its entry is a token. -/
def TensorCode.zeroPattern (code : TensorCode) : SortedMap Key Bool :=
  code.mapValues Option.isSome

/-- Codes that are related entry by entry have symbolic zeros under the same keys. -/
theorem TensorCode.Related.zeroPattern_eq {Tokens : Token → Token → Prop} {code code' : TensorCode}
    (hCodes : TensorCode.Related Tokens code code') : code.zeroPattern = code'.zeroPattern := by
  refine SortedMap.ext ?_
  have hPatterns : SortedMap.Related (· = ·) code.zeroPattern code'.zeroPattern :=
    hCodes.mapValues fun entry entry' hEntries => by cases hEntries <;> rfl
  have hEqual : List.Forall₂ (· = ·) code.zeroPattern.entries code'.zeroPattern.entries :=
    hPatterns.imp fun _ _ hEntry => Prod.ext hEntry.1 hEntry.2
  rwa [List.forall₂_eq_eq_eq] at hEqual

/-- Whether an expression that is a symbol has a name. -/
def Expr.NamedSymbol : Expr → Prop
  | .symbol name => name ≠ ""
  | _ => True

namespace Backend

variable {left right : Dialect}

/-- Whether two tokens are both nonempty. -/
abbrev BothWritten (hLeft : left.Available) (hRight : right.Available) : Token → Token → Prop :=
  SameValue hLeft.nonemptyReading hRight.nonemptyReading

theorem bothWritten_iff {hLeft : left.Available} {hRight : right.Available} {token token' : Token} :
    BothWritten hLeft hRight token token' ↔ token ≠ "" ∧ token' ≠ "" :=
  ⟨fun ⟨_, hTokens⟩ => hTokens, fun hTokens => ⟨(), hTokens⟩⟩

/-- Operations fail alike in two dialects, or leave tokens under the same keys. -/
theorem combine_agrees (hLeft : left.Available) (hRight : right.Available) (operation : Operation)
    {codes codes' : List TensorCode}
    (hCodes : List.Forall₂ (TensorCode.Related (BothWritten hLeft hRight)) codes codes') :
    Agree (TensorCode.Related (BothWritten hLeft hRight)) (operation.combine left codes)
      (operation.combine right codes') := by
  have hValues : ∃ values, List.Forall₂ hLeft.nonemptyReading.CodeDenotes codes values ∧
      List.Forall₂ hRight.nonemptyReading.CodeDenotes codes' values := by
    induction hCodes with
    | nil => exact ⟨[], .nil, .nil⟩
    | cons hFirst _ ih =>
        obtain ⟨values, hValues, hValues'⟩ := ih
        have hEntries := hFirst.mono fun _ _ hEntry => exists_middle_of_optionRel hEntry
        obtain ⟨value, hValue, hValue'⟩ := hEntries.exists_middle
        exact ⟨value :: values, .cons hValue hValues, .cons hValue' hValues'⟩
  obtain ⟨values, hValues, hValues'⟩ := hValues
  -- Both sides agree with the operation on values.
  have hJoin : ∀ {result} {computed computed' : Except Fault TensorCode},
      Agree hLeft.nonemptyReading.CodeDenotes computed result →
        Agree hRight.nonemptyReading.CodeDenotes computed' result →
          Agree (TensorCode.Related (BothWritten hLeft hRight)) computed computed' :=
    fun hComputed hComputed' => (hComputed.trans_symm hComputed').mono
      fun _ _ ⟨_, hCode, hCode'⟩ => related_sameValue hCode hCode'
  cases operation with
  | sum =>
      exact hJoin (Dialect.Reading.sumCode hValues fun _ _ => trivial)
        (Dialect.Reading.sumCode hValues' fun _ _ => trivial)
  | product =>
      exact hJoin (Dialect.Reading.productCode hValues fun _ _ _ _ => trivial)
        (Dialect.Reading.productCode hValues' fun _ _ _ _ => trivial)
  | division =>
      exact hJoin (Dialect.Reading.divisionCode hValues) (Dialect.Reading.divisionCode hValues')
  | abs => exact hJoin (Dialect.Reading.absCode hValues) (Dialect.Reading.absCode hValues')
  | elementary function =>
      exact hJoin (Dialect.Reading.functionCode function hValues)
        (Dialect.Reading.functionCode function hValues')

/-- Backends with the same tables and dimensions do the same at every node, whatever
their dialects. -/
theorem congruent_available (hLeft : left.Available) (hRight : right.Available)
    (catalog : ElementCatalog) (dimensions : CellDimensions) :
    Congruent (· = ·) (· = ·) (BothWritten hLeft hRight) ⟨left, catalog.tables, dimensions⟩
      ⟨right, catalog.tables, dimensions⟩ where
  dimensions := rfl
  locate := rfl
  argument := by
    rintro argument ⟨⟩ ⟨⟩ ⟨rfl, rfl, rfl⟩
    refine ⟨rfl, ?_⟩
    cases hCode : (catalog.tables.argument argument _).code with
    | none => exact .none
    | some token =>
        have hToken : token ≠ "" := (catalog.namedByWords.argument hCode).ne_empty
        exact .some (bothWritten_iff.mpr ⟨hToken, hToken⟩)
  coefficient := by
    rintro coefficient ⟨⟩ ⟨⟩ ⟨rfl, rfl, rfl⟩
    cases hCode : catalog.tables.coefficient coefficient _ with
    | none => exact .none
    | some token =>
        have hToken : token ≠ "" := (catalog.namedByWords.coefficient hCode).ne_empty
        exact .some (bothWritten_iff.mpr ⟨hToken, hToken⟩)
  combine := combine_agrees hLeft hRight
  multiply := by
    intro tokens tokens' hNonempty hTokens
    have hWritten : ∀ token ∈ tokens, token ≠ "" :=
      forall_mem_of_forall₂ (hTokens.imp fun _ _ hBoth => (bothWritten_iff.mp hBoth).1)
    have hWritten' : ∀ token ∈ tokens', token ≠ "" :=
      forall_mem_of_forall₂ (hTokens.flip.imp fun _ _ hBoth => (bothWritten_iff.mp hBoth).2)
    exact bothWritten_iff.mpr ⟨hLeft.multiply_ne_empty hNonempty hWritten,
      hRight.multiply_ne_empty (ne_nil_of_forall₂ hTokens hNonempty) hWritten'⟩
  sum _ _ := bothWritten_iff.mpr ⟨hLeft.group_ne_empty _, hRight.group_ne_empty _⟩
  power exponent _ _ _ :=
    bothWritten_iff.mpr ⟨hLeft.power_ne_empty _ exponent, hRight.power_ne_empty _ exponent⟩
  generalPower _ _ :=
    bothWritten_iff.mpr ⟨hLeft.generalPower_ne_empty _ _, hRight.generalPower_ne_empty _ _⟩
  literal value := bothWritten_iff.mpr ⟨hLeft.literal_ne_empty value, hRight.literal_ne_empty value⟩
  jacobian kind row column side _ _ :=
    ⟨(), hLeft.nonemptyReading.jacobian kind row column side,
      hRight.nonemptyReading.jacobian kind row column _⟩
  reciprocal _ := bothWritten_iff.mpr ⟨hLeft.reciprocal_ne_empty _, hRight.reciprocal_ne_empty _⟩
  normal component side _ _ :=
    ⟨(), hLeft.nonemptyReading.normal side component, hRight.nonemptyReading.normal _ component⟩
  insert_jacobian := by
    rintro kind row column side _ names _ rfl rfl
    rw [hLeft.jacobian_eq, hRight.jacobian_eq]
  insert_determinant := by
    rintro side _ names _ rfl rfl
    rw [hLeft.determinant_eq, hRight.determinant_eq]
  insert_normal := by
    rintro component side _ names _ rfl rfl
    rw [hLeft.normal_eq, hRight.normal_eq]

/-- In two available dialects lowering an expression goes the same way: it fails with the
same error, or makes code with the same keys and the same symbolic zeros, and it records
the same names in either case. -/
theorem lower_differs_in_rendering (hLeft : left.Available) (hRight : right.Available)
    (catalog : ElementCatalog) (dimensions : CellDimensions) (expr : Expr)
    (hExpr : expr.Every Expr.NamedSymbol) (context : LoweringContext) (names : GeometryNames) :
    let run := ((lower ⟨left, catalog.tables, dimensions⟩ expr context).runWith names)
    let run' := ((lower ⟨right, catalog.tables, dimensions⟩ expr context).runWith names)
    run.1.map TensorCode.zeroPattern = run'.1.map TensorCode.zeroPattern ∧ run.2 = run'.2 := by
  intro run run'
  have hParallel := (congruent_available hLeft hRight catalog dimensions).parallel
    Expr.NamedSymbol (fun _ _ _ => rfl)
    fun _ hName => bothWritten_iff.mpr ⟨hName, hName⟩
  obtain ⟨hAnswers, hNames⟩ := lower_simulates hParallel hExpr (.refl_eq context) names names rfl
  refine ⟨?_, hNames⟩
  have hPatterns : Agree (· = ·) (run.1.map TensorCode.zeroPattern)
      (run'.1.map TensorCode.zeroPattern) :=
    hAnswers.map fun _ _ hCodes => hCodes.zeroPattern_eq
  exact hPatterns.eq_of_eq

/-- With no digits behind the point the literal `1.4` is written like one and is no factor,
which it is among nested calls. -/
theorem lower_differs_in_rendering_rounded :
    let expr : Expr := .product [.symbol "a", .real (.ofRatio false 7 5)]
    let run := ((lower ⟨.calls, ElementCatalog.tables {}, {}⟩ expr {}).runWith ∅)
    let run' := ((lower ⟨.cpp (some 0), ElementCatalog.tables {}, {}⟩ expr {}).runWith ∅)
    run.1 = .ok (.scalar (some "multiply(a, 1.4)")) ∧ run'.1 = .ok (.scalar (some "a")) ∧
      run.1.map TensorCode.zeroPattern = run'.1.map TensorCode.zeroPattern ∧ run.2 = run'.2 := by
  intro expr run run'
  have hName : "a" ≠ "" := by decide
  have hExpr : expr.Every Expr.NamedSymbol := ⟨trivial, hName, trivial, trivial⟩
  refine ⟨by decide +kernel, by decide +kernel, ?_⟩
  exact lower_differs_in_rendering .calls (.cpp (some 0)) {} {} expr hExpr {} ∅

end Backend

end FormLowering
