import FormLowering.Proofs.Reading.DecimalInterpretation
import FormLowering.Proofs.Semantics.BasisFunctions
import Mathlib

/-!
# The pairing of Piola mapped functions

A covariant function is mapped by the inverse Jacobian and a contravariant one by
the Jacobian over its determinant.  If `K` is the inverse of `J`, the physical
values should pair as the reference values do, up to the determinant.

The code takes row and column of an entry of `J` in the order in which it takes
those of `K`, first the reference direction and then the physical one, while `J`
maps reference to physical directions.  So the pairing is that of `K Jᵀ` and not
that of `K J`, and functions are dual for all reference values exactly if `J` is
symmetric.
-/

namespace FormLowering

open Matrix

variable {F : Type} [Field F]

namespace BasisFunction

/-- Whether a value component of a basis function, without derivatives, has code
that denotes the value. -/
def ComponentValue (function : BasisFunction) (language : Language) (I : Interpretation F)
    (catalog : ElementCatalog) (dimensions : CellDimensions) (side : Restriction)
    (component : Nat) (value : F) : Prop :=
  ∀ names, ∃ entry, ((language.backend catalog dimensions).lower function.expr
      { restriction := side, component := [component] }).outcome names =
        .ok (.singleton function.key entry) ∧
    entry.Denotes language I value

/-- The values of the reference tables of the components from an offset on. -/
def referenceValues (function : BasisFunction) (I : Interpretation F) (catalog : ElementCatalog)
    (side : Restriction) (offset n : Nat) (direction : Fin n) : F :=
  I.tableMeaning (function.table catalog ⟨direction + offset, [], side⟩)

/-- Whether the components from an offset on are those of a sub-element with one
component for each direction. -/
def LocatedAt (function : BasisFunction) (catalog : ElementCatalog) (mapping : Mapping)
    (offset n : Nat) : Prop :=
  ∀ i < n, catalog.tables.locate function.element (offset + i) = some ⟨mapping, offset, i⟩

end BasisFunction

/-- The matrix of the values of the entries of the Jacobian or its inverse. -/
def Interpretation.jacobianMatrix {V : Type} (I : Interpretation V) (kind : JacobianKind)
    (side : Restriction) (n : Nat) : Matrix (Fin n) (Fin n) V :=
  .of fun row column => I.jacobianEntry kind side row column

/-- A covariant and a contravariant function, each with one component for each
direction, anywhere in the elements of a catalog. -/
structure PiolaPair (n : Nat) where
  catalog : ElementCatalog
  covariant : BasisFunction
  covariantOffset : Nat
  covariant_located : covariant.LocatedAt catalog .covariantPiola covariantOffset n
  contravariant : BasisFunction
  contravariantOffset : Nat
  contravariant_located :
    contravariant.LocatedAt catalog .contravariantPiola contravariantOffset n

namespace PiolaPair

variable {n : Nat} (pair : PiolaPair n) (I : Interpretation F) (side : Restriction)

/-- The reference values of the covariant function. -/
def covariantValues : Fin n → F :=
  pair.covariant.referenceValues I pair.catalog side pair.covariantOffset n

/-- The reference values of the contravariant function. -/
def contravariantValues : Fin n → F :=
  pair.contravariant.referenceValues I pair.catalog side pair.contravariantOffset n

/-- Whether the physical values pair as the reference values do, up to the
determinant of the Jacobian. -/
def Dual (language : Language) : Prop :=
  ∃ w v : Fin n → F,
    (∀ i : Fin n, pair.covariant.ComponentValue language I pair.catalog ⟨n, n⟩ side
      (pair.covariantOffset + i) (w i)) ∧
    (∀ i : Fin n, pair.contravariant.ComponentValue language I pair.catalog ⟨n, n⟩ side
      (pair.contravariantOffset + i) (v i)) ∧
    w ⬝ᵥ v = 1 / I.word (determinantName side) *
      (pair.covariantValues I side ⬝ᵥ pair.contravariantValues I side)

end PiolaPair

/-! ### Values of components -/

theorem Entry.Denotes.unique {language : Language} {I : Interpretation F} {entry : Entry}
    {left right : F} (hLeft : entry.Denotes language I left)
    (hRight : entry.Denotes language I right) : left = right := by
  cases entry with
  | none => exact hLeft.trans hRight.symm
  | some token => exact Language.Denotes.unique hLeft hRight

namespace BasisFunction

variable {language : Language} {I : Interpretation F} {catalog : ElementCatalog} {n : Nat}
  {side : Restriction} {function : BasisFunction} {offset : Nat}

/-- The code of a component denotes one value only. -/
theorem ComponentValue.unique {dimensions : CellDimensions} {component : Nat} {left right : F}
    (hLeft : function.ComponentValue language I catalog dimensions side component left)
    (hRight : function.ComponentValue language I catalog dimensions side component right) :
    left = right := by
  obtain ⟨entry, hOutcome, hEntry⟩ := hLeft ∅
  obtain ⟨entry', hOutcome', hEntry'⟩ := hRight ∅
  rw [hOutcome'] at hOutcome
  cases hOutcome
  exact hEntry.unique hEntry'

/-- A component to which every reference direction contributes. -/
theorem componentValue (hNatural : I.NaturalLiterals) (hPositive : 1 ≤ n)
    {mapping : Mapping} (hLocated : function.LocatedAt catalog mapping offset n) (i : Fin n)
    {pullback : Nat → Pullback}
    (hContributors : CellDimensions.contributors ⟨n, n⟩ (offset + i) ⟨mapping, offset, i⟩ =
      .ok ((List.range n).map fun direction => ⟨direction + offset, pullback direction⟩)) :
    function.ComponentValue language I catalog ⟨n, n⟩ side (offset + i)
      (∑ r : Fin n, I.pullbackFactor (pullback r) i side *
        function.referenceValues I catalog side offset n r) := by
  intro names
  have hSelected : catalog.tables.selected function.element
      { restriction := side, component := [offset + i] } =
        .ok (offset + i, ⟨mapping, offset, i⟩) := by
    simp only [BasisTables.selected, LoweringContext.selectedComponent, hLocated i i.isLt, bind,
      Except.bind, pure, Except.pure]
  obtain ⟨entry, hOutcome, hEntry⟩ := language.lower_basisFunction hNatural
    ⟨hPositive, hPositive⟩ function hSelected hContributors names
  refine ⟨entry, hOutcome, ?_⟩
  simp only [Interpretation.basisMeaning, hSelected, hContributors] at hEntry
  -- Without derivatives there is one tuple of directions, the empty one.
  have hTuples : directionTuples n ([] : List Nat).length = [[]] := rfl
  have hCounts : directionCounts n [] = [] := by simp [directionCounts]
  rw [hTuples, List.map_singleton, List.sum_singleton, List.map_map,
    ← List.map_coe_finRange_eq_range, List.map_map, ← Fin.sum_univ_def] at hEntry
  simpa [Interpretation.basisTerm, Interpretation.chainFactor, CellDimensions.tableRequest, hCounts,
    referenceValues] using hEntry

/-- Covariant components take the columns of the inverse Jacobian. -/
theorem covariantValue (hNatural : I.NaturalLiterals) (hPositive : 1 ≤ n)
    (hLocated : function.LocatedAt catalog .covariantPiola offset n) (i : Fin n) :
    function.ComponentValue language I catalog ⟨n, n⟩ side (offset + i)
      ((function.referenceValues I catalog side offset n ᵥ* I.jacobianMatrix .inverse side n) i) := by
  have hSum :
      (function.referenceValues I catalog side offset n ᵥ* I.jacobianMatrix .inverse side n) i =
        ∑ r : Fin n, I.pullbackFactor (.covariant r) i side *
          function.referenceValues I catalog side offset n r := by
    unfold vecMul dotProduct
    exact Finset.sum_congr rfl fun r _ => mul_comm _ _
  rw [hSum]
  exact componentValue hNatural hPositive hLocated i rfl

/-- Contravariant components take the columns of the Jacobian, too. -/
theorem contravariantValue (hNatural : I.NaturalLiterals) (hPositive : 1 ≤ n)
    (hLocated : function.LocatedAt catalog .contravariantPiola offset n) (i : Fin n) :
    function.ComponentValue language I catalog ⟨n, n⟩ side (offset + i)
      (((1 / I.word (determinantName side)) •
        (function.referenceValues I catalog side offset n ᵥ* I.jacobianMatrix .jacobian side n))
          i) := by
  have hSum : ((1 / I.word (determinantName side)) •
      (function.referenceValues I catalog side offset n ᵥ* I.jacobianMatrix .jacobian side n)) i =
        ∑ r : Fin n, I.pullbackFactor (.contravariant r) i side *
          function.referenceValues I catalog side offset n r := by
    rw [Pi.smul_apply, smul_eq_mul]
    unfold vecMul dotProduct
    rw [Finset.mul_sum]
    refine Finset.sum_congr rfl fun r _ => ?_
    rw [mul_comm (function.referenceValues I catalog side offset n r), ← mul_assoc]
    rfl
  rw [hSum]
  exact componentValue hNatural hPositive hLocated i rfl

end BasisFunction

/-! ### The pairing -/

section Pairing

variable {n : Nat} {K J : Matrix (Fin n) (Fin n) F}

/-- Rows of the inverse Jacobian are paired with rows of the Jacobian, not with columns. -/
theorem pairing_eq (K J : Matrix (Fin n) (Fin n) F) (determinant : F) (W V : Fin n → F) :
    (W ᵥ* K) ⬝ᵥ ((1 / determinant) • (V ᵥ* J)) =
      1 / determinant * (W ⬝ᵥ ((K * Jᵀ) *ᵥ V)) := by
  rw [dotProduct_smul, smul_eq_mul, ← mulVec_mulVec, dotProduct_mulVec, mulVec_transpose]

/-- The pairing is off by what the antisymmetric part of the Jacobian pairs. -/
theorem pairing_iff_antisymmetric (hInverse : K * J = 1) (W V : Fin n → F) :
    W ⬝ᵥ ((K * Jᵀ) *ᵥ V) = W ⬝ᵥ V ↔ (W ᵥ* K) ⬝ᵥ ((Jᵀ - J) *ᵥ V) = 0 := by
  have hSplit : K * Jᵀ = 1 + K * (Jᵀ - J) := by
    rw [mul_sub, hInverse, add_sub_cancel]
  rw [hSplit, add_mulVec, one_mulVec, dotProduct_add, add_eq_left, ← mulVec_mulVec,
    dotProduct_mulVec]

theorem mul_transpose_eq_one_iff (hInverse : K * J = 1) : K * Jᵀ = 1 ↔ J.IsSymm := by
  constructor
  · intro hProduct
    have hSame : J * (K * Jᵀ) = J * (K * J) := by rw [hProduct, hInverse]
    rwa [← mul_assoc, ← mul_assoc, mul_eq_one_comm.mp hInverse, one_mul, one_mul] at hSame
  · intro hSymmetric
    rw [hSymmetric.eq, hInverse]

end Pairing

/-- Duality is that `K Jᵀ` pairs the reference values as the identity does. -/
theorem PiolaPair.dual_iff {n : Nat} (pair : PiolaPair n) {language : Language}
    {I : Interpretation F} {side : Restriction} (hNatural : I.NaturalLiterals) (hPositive : 1 ≤ n)
    (hDeterminant : I.word (determinantName side) ≠ 0) :
    pair.Dual I side language ↔
      pair.covariantValues I side ⬝ᵥ
          ((I.jacobianMatrix .inverse side n * (I.jacobianMatrix .jacobian side n)ᵀ) *ᵥ
            pair.contravariantValues I side) =
        pair.covariantValues I side ⬝ᵥ pair.contravariantValues I side := by
  have hScale : 1 / I.word (determinantName side) ≠ 0 := one_div_ne_zero hDeterminant
  constructor
  · rintro ⟨w, v, hw, hv, hDual⟩
    have hLeft : w = _ := funext fun i =>
      (hw i).unique (pair.covariant.covariantValue hNatural hPositive pair.covariant_located i)
    have hRight : v = _ := funext fun i => (hv i).unique
      (pair.contravariant.contravariantValue hNatural hPositive pair.contravariant_located i)
    rw [hLeft, hRight] at hDual
    have hPairing := (pairing_eq _ _ _ _ _).symm.trans hDual
    exact mul_left_cancel₀ hScale hPairing
  · intro hPairing
    refine ⟨_, _, pair.covariant.covariantValue hNatural hPositive pair.covariant_located,
      pair.contravariant.contravariantValue hNatural hPositive pair.contravariant_located, ?_⟩
    rw [← hPairing]
    exact pairing_eq _ _ _ _ _

/-! ### Geometry -/

/-- Whether the geometric quantities of a side have the same values. -/
structure Interpretation.SameGeometry {V : Type} (I I' : Interpretation V) (side : Restriction) :
    Prop where
  entry : ∀ kind row column, I'.jacobianEntry kind side row column =
    I.jacobianEntry kind side row column
  determinant : I'.word (determinantName side) = I.word (determinantName side)

/-- Names of tables can be given any values without a change of geometry. -/
theorem Interpretation.sameGeometry_withLetter {V : Type} (I : Interpretation V)
    (value : Token → V) (side : Restriction) : I.SameGeometry (I.withLetter 'F' value) side where
  entry kind row column := by
    apply withLetter_word_of_ne
    cases kind <;> simp [JacobianKind.entryName, JacobianKind.letter, String.toList_append]
  determinant := by
    apply withLetter_word_of_ne
    simp [determinantName, String.toList_append]

theorem Interpretation.SameGeometry.jacobianMatrix_eq {V : Type} {I I' : Interpretation V}
    {side : Restriction} (hGeometry : I.SameGeometry I' side) (kind : JacobianKind) (n : Nat) :
    I'.jacobianMatrix kind side n = I.jacobianMatrix kind side n := by
  ext row column
  exact hGeometry.entry kind row column

/-! ### Tables that single out one entry -/

section UnitTables

variable {side : Restriction}

/-- Different components of a coefficient have different tables. -/
theorem component_of_coefficientToken {field : Coefficient} {left right : Nat}
    (hToken : ElementCatalog.coefficientToken field ⟨left, [], side⟩ =
      ElementCatalog.coefficientToken field ⟨right, [], side⟩) : left = right := by
  unfold ElementCatalog.coefficientToken at hToken
  rw [String.append_left_inj, String.append_left_inj, String.append_right_inj] at hToken
  exact Nat.repr_injective hToken

theorem coefficientToken_zero_ne_one {element element' left right : Nat} :
    ElementCatalog.coefficientToken ⟨0, element⟩ ⟨left, [], side⟩ ≠
      ElementCatalog.coefficientToken ⟨1, element'⟩ ⟨right, [], side⟩ := by
  intro hToken
  -- The tables differ in the number of the coefficient, their second character.
  have hSecond := congrArg (fun text : String => text.toList[1]?) hToken
  have hOne : Nat.toDigits 10 1 = ['1'] := by decide
  simp [ElementCatalog.coefficientToken, String.toList_append, hOne] at hSecond

/-- A coefficient of a Nédélec element and one of a Raviart-Thomas element. -/
def PiolaPair.simple (n : Nat) : PiolaPair n where
  catalog := ⟨#[.nedelec 1 n, .raviartThomas 1 n], []⟩
  covariant := .coefficient ⟨0, 0⟩
  covariantOffset := 0
  covariant_located := by
    intro i hBound
    rw [Nat.zero_add]
    show FiniteElement.locate (.nedelec 1 n) i = _
    rw [FiniteElement.nedelec, FiniteElement.simple, FiniteElement.locate,
      if_neg (Nat.not_le.mpr hBound)]
    rfl
  contravariant := .coefficient ⟨1, 1⟩
  contravariantOffset := 0
  contravariant_located := by
    intro i hBound
    rw [Nat.zero_add]
    show FiniteElement.locate (.raviartThomas 1 n) i = _
    rw [FiniteElement.raviartThomas, FiniteElement.simple, FiniteElement.locate,
      if_neg (Nat.not_le.mpr hBound)]
    rfl

/-- The interpretation in which one table of either coefficient is one and all
other tables are zero. -/
def Interpretation.withUnitTables (I : Interpretation F) (side : Restriction) (r s : Nat) :
    Interpretation F :=
  I.withLetter 'F' fun token =>
    if token = ElementCatalog.coefficientToken ⟨0, 0⟩ ⟨r, [], side⟩ ∨
      token = ElementCatalog.coefficientToken ⟨1, 1⟩ ⟨s, [], side⟩ then 1 else 0

variable {n : Nat} (I : Interpretation F) (r s : Fin n)

theorem covariantValues_withUnitTables :
    (PiolaPair.simple n).covariantValues (I.withUnitTables side r s) side = Pi.single r 1 := by
  funext q
  show (I.withUnitTables side r s).word
    ((BasisFunction.coefficient ⟨0, 0⟩).token ⟨q + 0, [], side⟩) = _
  rw [Interpretation.withUnitTables,
    Interpretation.withLetter_word _ _ (BasisFunction.head?_token _ _), Pi.single_apply]
  by_cases hSame : q = r
  · rw [if_pos hSame, hSame]
    exact if_pos (.inl rfl)
  · rw [if_neg hSame]
    apply if_neg
    rintro (hToken | hToken)
    · exact hSame (Fin.ext (component_of_coefficientToken hToken))
    · exact coefficientToken_zero_ne_one hToken

theorem contravariantValues_withUnitTables :
    (PiolaPair.simple n).contravariantValues (I.withUnitTables side r s) side = Pi.single s 1 := by
  funext q
  show (I.withUnitTables side r s).word
    ((BasisFunction.coefficient ⟨1, 1⟩).token ⟨q + 0, [], side⟩) = _
  rw [Interpretation.withUnitTables,
    Interpretation.withLetter_word _ _ (BasisFunction.head?_token _ _), Pi.single_apply]
  by_cases hSame : q = s
  · rw [if_pos hSame, hSame]
    exact if_pos (.inr rfl)
  · rw [if_neg hSame]
    apply if_neg
    rintro (hToken | hToken)
    · exact coefficientToken_zero_ne_one hToken.symm
    · exact hSame (Fin.ext (component_of_coefficientToken hToken))

end UnitTables

/-! ### A shear -/

/-- An interpretation with the geometry of the shear `x = X₀ + X₁`, `y = X₁`, and with
all tables one. -/
def Interpretation.shear : Interpretation ℚ :=
  (((decimal.withLetter 'F' fun _ => 1).withLetter 'J' fun name =>
    if name = "J_10" then 0 else 1).withLetter 'K' fun name =>
      if name = "K_01" then -1 else if name = "K_10" then 0 else 1).withLetter 'd' fun _ => 1

theorem shear_naturalLiterals : Interpretation.shear.NaturalLiterals := by
  unfold Interpretation.shear
  refine Interpretation.withLetter_naturalLiterals ?_ (by decide) _
  refine Interpretation.withLetter_naturalLiterals ?_ (by decide) _
  refine Interpretation.withLetter_naturalLiterals ?_ (by decide) _
  exact Interpretation.withLetter_naturalLiterals Interpretation.decimal_naturalLiterals
    (by decide) _

theorem shear_jacobian :
    Interpretation.shear.jacobianMatrix .jacobian .none 2 = !![1, 1; 0, 1] := by
  ext row column
  fin_cases row <;> fin_cases column <;> rfl

theorem shear_inverse :
    Interpretation.shear.jacobianMatrix .inverse .none 2 = !![1, -1; 0, 1] := by
  ext row column
  fin_cases row <;> fin_cases column <;> rfl

theorem shear_inverse_mul_jacobian :
    Interpretation.shear.jacobianMatrix .inverse .none 2 *
      Interpretation.shear.jacobianMatrix .jacobian .none 2 = 1 := by
  rw [shear_inverse, shear_jacobian]
  ext row column
  fin_cases row <;> fin_cases column <;> simp [mul_apply, Fin.sum_univ_two]

theorem shear_determinant : Interpretation.shear.word (determinantName .none) ≠ 0 := by
  have hOne : Interpretation.shear.word (determinantName .none) = 1 := rfl
  rw [hOne]
  exact one_ne_zero

/-! ### Duality -/

/-- Where `K` is the inverse of the Jacobian, a pair is dual exactly if the
antisymmetric part of the Jacobian does not pair its values.  So all pairs are
dual, whatever their tables hold, exactly if the Jacobian is symmetric. -/
theorem piola_dual_iff_symmetric (I : Interpretation F) (hNatural : I.NaturalLiterals) (n : Nat)
    (hPositive : 1 ≤ n) (side : Restriction)
    (hInverse : I.jacobianMatrix .inverse side n * I.jacobianMatrix .jacobian side n = 1)
    (hDeterminant : I.word (determinantName side) ≠ 0) :
    (∀ (language : Language) (pair : PiolaPair n), pair.Dual I side language ↔
      (pair.covariantValues I side ᵥ* I.jacobianMatrix .inverse side n) ⬝ᵥ
        (((I.jacobianMatrix .jacobian side n)ᵀ - I.jacobianMatrix .jacobian side n) *ᵥ
          pair.contravariantValues I side) = 0) ∧
    ((∀ I' : Interpretation F, I'.NaturalLiterals → I.SameGeometry I' side →
      ∀ (language : Language) (pair : PiolaPair n), pair.Dual I' side language) ↔
        (I.jacobianMatrix .jacobian side n).IsSymm) := by
  constructor
  · intro language pair
    rw [pair.dual_iff hNatural hPositive hDeterminant]
    exact pairing_iff_antisymmetric hInverse _ _
  · rw [← mul_transpose_eq_one_iff hInverse]
    constructor
    · intro hDual
      ext r s
      -- Tables that single out two reference components give one entry of the product.
      have hUnit : I.SameGeometry (I.withUnitTables side r s) side :=
        I.sameGeometry_withLetter _ side
      have hNaturalUnit : (I.withUnitTables side r s).NaturalLiterals :=
        Interpretation.withLetter_naturalLiterals hNatural (by decide) _
      have hPair := hDual _ hNaturalUnit hUnit .cpp (.simple n)
      rw [PiolaPair.dual_iff _ hNaturalUnit hPositive (by rwa [hUnit.determinant]),
        hUnit.jacobianMatrix_eq, hUnit.jacobianMatrix_eq, covariantValues_withUnitTables,
        contravariantValues_withUnitTables, mulVec_single_one, single_one_dotProduct,
        single_one_dotProduct, Pi.single_apply] at hPair
      rw [one_apply]
      exact hPair
    · intro hProduct I' hNatural' hGeometry language pair
      rw [pair.dual_iff hNatural' hPositive (by rwa [hGeometry.determinant]),
        hGeometry.jacobianMatrix_eq, hGeometry.jacobianMatrix_eq, hProduct, one_mulVec]

/-- For a shear there are tables by which functions are not dual. -/
theorem piola_dual_iff_symmetric_shear :
    ¬ ∀ I' : Interpretation ℚ, I'.NaturalLiterals → Interpretation.shear.SameGeometry I' .none →
      ∀ (language : Language) (pair : PiolaPair 2), pair.Dual I' .none language := by
  intro hDual
  have hSymmetric := (piola_dual_iff_symmetric .shear shear_naturalLiterals 2 (by decide) .none
    shear_inverse_mul_jacobian shear_determinant).2.mp hDual
  rw [shear_jacobian] at hSymmetric
  have hEntry := congrFun (congrFun hSymmetric 0) 1
  simp at hEntry

/-- For a shear two functions whose tables are all one are not dual, although `K` is
the inverse of the Jacobian and the determinant is not zero. -/
theorem piola_not_dual_shear :
    Interpretation.shear.NaturalLiterals ∧
      Interpretation.shear.jacobianMatrix .inverse .none 2 *
          Interpretation.shear.jacobianMatrix .jacobian .none 2 = 1 ∧
        Interpretation.shear.word (determinantName .none) ≠ 0 ∧
          ¬ (PiolaPair.simple 2).Dual .shear .none .cpp := by
  refine ⟨shear_naturalLiterals, shear_inverse_mul_jacobian, shear_determinant, ?_⟩
  have hCovariant : (PiolaPair.simple 2).covariantValues .shear .none = ![1, 1] := by
    ext direction
    fin_cases direction <;> rfl
  have hContravariant : (PiolaPair.simple 2).contravariantValues .shear .none = ![1, 1] := by
    ext direction
    fin_cases direction <;> rfl
  rw [PiolaPair.dual_iff _ shear_naturalLiterals (by decide) shear_determinant, hCovariant,
    hContravariant, shear_inverse, shear_jacobian]
  -- The physical values pair to one, the reference values to two.
  simp [dotProduct, mulVec, mul_apply, Fin.sum_univ_two]

end FormLowering
