import FormLowering.Proofs.Geometry.Quantities
import FormLowering.Proofs.RenderingOnly
import FormLowering.Proofs.Tokens.Alike
import FormLowering.Proofs.Traversal.Failures

/-!
# Expressions restricted to a side

A restriction reaches the leaves through the context, and every leaf that refers to a
quantity of the cell or of the facet takes the side from there.  So an expression that
is restricted as a whole is lowered like the expression itself, side by side: tokens
differ, but they are alike, and the names that are recorded are those of the expression
with the digit of the side.
-/

namespace FormLowering

open LowerM

/-- Whether an expression is no restriction. -/
def Expr.IsUnrestricted : Expr → Prop
  | .restricted _ _ => False
  | _ => True

/-! ### Leaves -/

theorem nonLiteral_entryName (kind : JacobianKind) (row column : Nat) (side : Restriction) :
    IsNonLiteral (kind.entryName row column side) := by
  have hLetter : IsNonLiteral kind.letter := by cases kind <;> decide
  exact (((hLetter.append_left _).append_left _).append_left _).append_left _

theorem nonLiteral_normalName (side : Restriction) (component : Nat) :
    IsNonLiteral (normalName side component) :=
  (IsNonLiteral.append_right _ (by decide)).append_left _

namespace ElementCatalog

theorem nonLiteral_argumentToken (argument : Argument) (request : TableRequest) :
    IsNonLiteral (argumentToken argument request) :=
  .append_right _ (by decide)

theorem nonLiteral_coefficientToken (coefficient : Coefficient) (request : TableRequest) :
    IsNonLiteral (coefficientToken coefficient request) :=
  (((IsNonLiteral.append_right _ (by decide)).append_left _).append_left _).append_left _

end ElementCatalog

/-! ### Names -/

/-- Whether the names of one set are those of another one on a side. -/
structure GeometryNames.Restricted (side : Restriction) (names names' : GeometryNames) : Prop where
  mem_iff : ∀ name, name ∈ names' ↔ ∃ original ∈ names, restrictName side original = name
  on_side : ∀ name ∈ names', IsNameOn side name

namespace GeometryNames.Restricted

variable {side : Restriction} {names names' : GeometryNames}

theorem empty : Restricted side ∅ ∅ where
  mem_iff _ :=
    iff_of_false SortedSet.not_mem_empty fun ⟨_, hMem, _⟩ => SortedSet.not_mem_empty hMem
  on_side _ hMem := absurd hMem SortedSet.not_mem_empty

theorem insert (hNames : Restricted side names names') {name name' : Token}
    (hName : restrictName side name = name') (hSide : IsNameOn side name') :
    Restricted side (names.insert name) (names'.insert name') where
  mem_iff other := by
    rw [SortedSet.mem_insert, hNames.mem_iff]
    simp only [SortedSet.mem_insert, or_and_right, exists_or, exists_eq_left, hName]
    exact or_congr_left eq_comm
  on_side other hMem := by
    rcases SortedSet.mem_insert.mp hMem with rfl | hBefore
    · exact hSide
    · exact hNames.on_side other hBefore

theorem eq_image (hNames : Restricted side names names') :
    names' = .ofList (names.elements.map (restrictName side)) := by
  apply SortedSet.ext_mem
  intro name
  rw [hNames.mem_iff, SortedSet.mem_ofList, List.mem_map]
  rfl

theorem isNameOn_iff (hNames : Restricted side names names') {name : Token} (hMem : name ∈ names')
    (other : Restriction) : IsNameOn other name ↔ other = side := by
  refine ⟨fun hName => hName.side_unique (hNames.on_side name hMem), ?_⟩
  rintro rfl
  exact hNames.on_side name hMem

end GeometryNames.Restricted

/-! ### Runs -/

namespace Backend

variable {dialect : Dialect}

/-- Without a side and on one, a backend does the same at every node, up to tokens that are
alike. -/
theorem congruent_sides (hAvailable : dialect.Available) (catalog : ElementCatalog)
    (dimensions : CellDimensions) (side : Restriction) :
    Congruent (GeometryNames.Restricted side) (fun own own' => own = .none ∧ own' = side) Alike
      ⟨dialect, catalog.tables, dimensions⟩ ⟨dialect, catalog.tables, dimensions⟩ where
  dimensions := rfl
  locate := rfl
  argument := by
    rintro argument ⟨component, derivatives, _⟩ ⟨_, _, _⟩ ⟨rfl, rfl, -⟩
    refine ⟨rfl, ?_⟩
    simp only [ElementCatalog.tables]
    split
    · exact .none
    · exact .some (.nonLiteral (ElementCatalog.nonLiteral_argumentToken _ _)
        (ElementCatalog.nonLiteral_argumentToken _ _))
  coefficient := by
    rintro coefficient ⟨component, derivatives, _⟩ ⟨_, _, _⟩ ⟨rfl, rfl, -⟩
    simp only [ElementCatalog.tables]
    split
    · exact .none
    · exact .some (.nonLiteral (ElementCatalog.nonLiteral_coefficientToken _ _)
        (ElementCatalog.nonLiteral_coefficientToken _ _))
  combine operation := hAvailable.alike_combine operation
  multiply := hAvailable.alike_multiply
  sum _ _ := .nonLiteral (hAvailable.nonLiteral_group _) (hAvailable.nonLiteral_group _)
  power exponent _ _ _ :=
    .nonLiteral (hAvailable.nonLiteral_power _ exponent) (hAvailable.nonLiteral_power _ exponent)
  generalPower _ _ :=
    .nonLiteral (hAvailable.nonLiteral_generalPower _ _) (hAvailable.nonLiteral_generalPower _ _)
  literal value := .refl _
  jacobian kind row column own own' _ := by
    rw [hAvailable.jacobian_eq]
    exact .nonLiteral (nonLiteral_entryName kind row column own)
      (nonLiteral_entryName kind row column own')
  reciprocal _ :=
    .nonLiteral (hAvailable.nonLiteral_reciprocal _) (hAvailable.nonLiteral_reciprocal _)
  normal component own own' _ := by
    rw [hAvailable.normal_eq]
    exact .nonLiteral (nonLiteral_normalName own component) (nonLiteral_normalName own' component)
  insert_jacobian := by
    rintro kind row column _ _ names names' ⟨rfl, rfl⟩ hNames
    rw [hAvailable.jacobian_eq]
    exact hNames.insert (restrictName_entryName _ kind row column) (.entry kind row column)
  insert_determinant := by
    rintro _ _ names names' ⟨rfl, rfl⟩ hNames
    rw [hAvailable.determinant_eq]
    exact hNames.insert (restrictName_determinantName _) .determinant
  insert_normal := by
    rintro component _ _ names names' ⟨rfl, rfl⟩ hNames
    rw [hAvailable.normal_eq]
    exact hNames.insert (restrictName_normalName _ component) (.normal component)

/-- Restricting an expression without restrictions to a side renames quantities and does
nothing else: the run fails with the same error, or makes code with the same keys and the
same symbolic zeros, and the names that it records are those of the expression with the
digit of the side, none of which belongs to another side. -/
theorem run_restricted (hAvailable : dialect.Available) (catalog : ElementCatalog)
    (dimensions : CellDimensions) (expr : Expr) (hExpr : expr.Every Expr.IsUnrestricted)
    (side : Restriction) :
    let backend : Backend := ⟨dialect, catalog.tables, dimensions⟩
    Agree
      (fun lowered lowered' =>
        lowered.code.zeroPattern = lowered'.code.zeroPattern ∧
          lowered'.geometry = .ofList (lowered.geometry.elements.map (restrictName side)) ∧
            ∀ name ∈ lowered'.geometry, ∀ other, IsNameOn other name ↔ other = side)
      (backend.run expr) (backend.run (.restricted expr side)) := by
  intro backend
  have hParallel := (congruent_sides hAvailable catalog dimensions side).parallel
    Expr.IsUnrestricted (fun _ _ hRestricted => hRestricted.elim) fun name _ => .refl name
  have hContexts : LoweringContext.Beside (fun own own' => own = .none ∧ own' = side) {}
      (LoweringContext.restrict {} side) := ⟨rfl, rfl, rfl, rfl⟩
  have hNode : backend.lower (.restricted expr side) {} =
      backend.lower expr (LoweringContext.restrict {} side) :=
    backend.lower_modified {} (.restrict side) expr
  obtain ⟨hAnswers, hNames⟩ := lower_simulates hParallel hExpr hContexts ∅ ∅ .empty
  unfold run
  rw [hNode]
  generalize (backend.lower expr {}).runWith ∅ = ran at hAnswers hNames ⊢
  generalize
    (backend.lower expr (LoweringContext.restrict {} side)).runWith ∅ = ran' at hAnswers hNames ⊢
  obtain ⟨answer, names⟩ := ran
  obtain ⟨answer', names'⟩ := ran'
  cases hAnswers with
  | error => exact .error
  | ok hCodes =>
      exact .ok ⟨hCodes.zeroPattern_eq, hNames.eq_image, fun name hMem other =>
        hNames.isNameOn_iff hMem other⟩

/-- The normal component of the derivative of a vector field refers to quantities of every
family, all of them on the side that it is restricted to. -/
theorem run_restricted_normal_derivative :
    let backend : Backend := ⟨.cpp none, ElementCatalog.tables ⟨#[.raviartThomas 1 2], []⟩, {}⟩
    let expr : Expr :=
      .product [.indexed .facetNormal [1], .derivative (.indexed (.coefficient ⟨0, 0⟩) [1]) 0]
    let names : GeometryNames := .ofList ["J_01", "J_11", "K_00", "K_10", "detJ", "n_1"]
    let names' : GeometryNames := .ofList ["J1_01", "J1_11", "K1_00", "K1_10", "detJ1", "n1_1"]
    (backend.run expr).map (·.geometry) = .ok names ∧
      (backend.run (.restricted expr .negative)).map (·.geometry) = .ok names' ∧
        names' = .ofList (names.elements.map (restrictName .negative)) ∧
          ∀ name ∈ names', ∀ other, IsNameOn other name ↔ other = .negative := by
  intro backend expr names names'
  have hExpr : expr.Every Expr.IsUnrestricted :=
    ⟨trivial, ⟨trivial, trivial⟩, ⟨trivial, trivial, trivial⟩, trivial⟩
  have hRun : (backend.run expr).map (·.geometry) = .ok names := by decide +kernel
  have hRun' : (backend.run (.restricted expr .negative)).map (·.geometry) = .ok names' := by
    decide +kernel
  have hAgree : Agree _ (backend.run expr) (backend.run (.restricted expr .negative)) :=
    run_restricted (.cpp none) ⟨#[.raviartThomas 1 2], []⟩ {} expr hExpr .negative
  refine ⟨hRun, hRun', ?_⟩
  generalize backend.run expr = result at hAgree hRun
  generalize backend.run (.restricted expr .negative) = result' at hAgree hRun'
  cases hAgree with
  | error => cases hRun
  | ok hLowered =>
      obtain ⟨-, hImage, hSides⟩ := hLowered
      rw [← Except.ok.inj hRun, ← Except.ok.inj hRun']
      exact ⟨hImage, hSides⟩

end Backend

end FormLowering
