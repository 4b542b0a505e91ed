import FormLowering.Proofs.Calculus.DirectionTuples
import FormLowering.Proofs.Declarations
import FormLowering.Proofs.LocatedComponents
import FormLowering.Proofs.Semantics.BasisFunctions

/-!
# Entries of the inverse Jacobian

Entries of the inverse Jacobian are factors of the tables that are used.  The chain rule takes
them at a reference direction and a physical one, and a covariant component takes one for each
of its directions.  All of them are in the columns of the physical directions.  The rows of the
chain rule are those of the reference directions, but the rows of a covariant component are
counted up to the geometric dimension, so on a cell of lower dimension they can be rows that
the matrix does not have.
-/

namespace FormLowering

open LowerM

/-- An entry of the inverse Jacobian on a side. -/
structure InverseEntry where
  row : Nat
  column : Nat
  side : Restriction
deriving DecidableEq

namespace InverseEntry

/-- The name of an entry. -/
def name (entry : InverseEntry) : Token :=
  JacobianKind.inverse.entryName entry.row entry.column entry.side

theorem head?_name (entry : InverseEntry) : entry.name.toList.head? = some 'K' := by
  simp [name, JacobianKind.entryName, JacobianKind.letter, String.toList_append]

theorem name_ne_of_head {text : Token} (hHead : text.toList.head? ≠ some 'K')
    (entry : InverseEntry) : entry.name ≠ text :=
  fun hName => hHead (hName ▸ entry.head?_name)

end InverseEntry

/-! ### Entries in factors -/

/-- The entries in the factor of a pullback. -/
def Pullback.inverseEntries (component : Nat) (side : Restriction) :
    Pullback → List InverseEntry
  | .covariant direction => [⟨direction, component, side⟩]
  | .identity | .contravariant _ => []

/-- The entries in the factors of the chain rule. -/
def chainRuleEntries (directions tuple : List Nat) (side : Restriction) : List InverseEntry :=
  (directions.zip tuple).map fun pair => ⟨pair.2, pair.1, side⟩

/-- The entries in the factors that a table is multiplied with. -/
def factorEntries (place : ComponentPlace) (context : LoweringContext)
    (pair : List Nat × Contributor) : List InverseEntry :=
  pair.2.pullback.inverseEntries place.component context.restriction ++
    chainRuleEntries context.derivatives pair.1 context.restriction

theorem Pullback.covariant_of_mem_inverseEntries {pullback : Pullback} {component : Nat}
    {side : Restriction} {entry : InverseEntry}
    (hEntry : entry ∈ pullback.inverseEntries component side) :
    pullback = .covariant entry.row ∧ entry.column = component := by
  cases pullback with
  | covariant direction =>
      obtain rfl := List.mem_singleton.mp hEntry
      exact ⟨rfl, rfl⟩
  | identity => cases hEntry
  | contravariant direction => cases hEntry

/-- The chain rule pairs a physical direction with a reference direction. -/
theorem directions_of_mem_chainRuleEntries {directions tuple : List Nat} {side : Restriction}
    {entry : InverseEntry} (hEntry : entry ∈ chainRuleEntries directions tuple side) :
    entry.column ∈ directions ∧ entry.row ∈ tuple := by
  obtain ⟨pair, hPair, rfl⟩ := List.mem_map.mp hEntry
  exact List.of_mem_zip hPair

/-- The names of entries in factors are those of the listed entries. -/
theorem name_mem_factorNames {place : ComponentPlace} {context : LoweringContext}
    {pair : List Nat × Contributor} {entry : InverseEntry} :
    entry.name ∈ factorNames place context pair ↔
      ∃ used ∈ factorEntries place context pair, used.name = entry.name := by
  have hChain : entry.name ∈ chainRuleNames context.derivatives pair.1 context.restriction ↔
      ∃ used ∈ chainRuleEntries context.derivatives pair.1 context.restriction,
        used.name = entry.name := by
    simp only [chainRuleNames, chainRuleEntries, List.mem_map, exists_exists_and_eq_and]
    rfl
  have hPullback : entry.name ∈ pair.2.pullback.names place.component context.restriction ↔
      ∃ used ∈ pair.2.pullback.inverseEntries place.component context.restriction,
        used.name = entry.name := by
    cases pair.2.pullback with
    | identity => simp [Pullback.names, Pullback.inverseEntries]
    | covariant direction =>
        simp only [Pullback.names, Pullback.inverseEntries, List.mem_singleton, exists_eq_left]
        exact eq_comm
    | contravariant direction =>
        have hDeterminant : entry.name ≠ determinantName context.restriction :=
          entry.name_ne_of_head (by simp [determinantName, String.toList_append])
        have hJacobian : entry.name ≠
            JacobianKind.jacobian.entryName direction place.component context.restriction :=
          entry.name_ne_of_head
            (by simp [JacobianKind.entryName, JacobianKind.letter, String.toList_append])
        simp [Pullback.names, Pullback.inverseEntries, hDeterminant, hJacobian]
  rw [factorNames, List.mem_append, hPullback, hChain, factorEntries]
  simp only [List.mem_append, or_and_right, exists_or]

/-! ### Entries that are used -/

theorem Backend.mem_tableOrder {tuples : List (List Nat)} {contributors : List Contributor}
    {pair : List Nat × Contributor} :
    pair ∈ Backend.tableOrder tuples contributors ↔ pair.1 ∈ tuples ∧ pair.2 ∈ contributors := by
  simp only [Backend.tableOrder, List.mem_flatMap, List.mem_map]
  constructor
  · rintro ⟨tuple, hTuple, contributor, hContributor, rfl⟩
    exact ⟨hTuple, hContributor⟩
  · rintro ⟨hTuple, hContributor⟩
    exact ⟨pair.1, hTuple, pair.2, hContributor, rfl⟩

namespace BasisFunction

/-- Whether a basis function uses a table: the table is asked for in a context and is not
structurally zero. -/
structure UsesTable (catalog : ElementCatalog) (dimensions : CellDimensions)
    (function : BasisFunction) (context : LoweringContext) (place : ComponentPlace)
    (pair : List Nat × Contributor) : Prop where
  asked : ∃ component contributors,
    catalog.tables.selected function.element context = .ok (component, place) ∧
      dimensions.contributors component place = .ok contributors ∧
        pair ∈ Backend.tableOrder
          (directionTuples dimensions.topological context.derivatives.length) contributors
  isSome : (function.table catalog (dimensions.tableRequest context pair.1 pair.2)).isSome

variable {dialect : Dialect} {catalog : ElementCatalog} {dimensions : CellDimensions}
  {function : BasisFunction} {context : LoweringContext} {name : Token}

/-- The names in the code of a basis function are those in the factors of the tables that it
uses. -/
theorem mem_leafNames :
    name ∈ Backend.leafNames ⟨dialect, catalog.tables, dimensions⟩ context function.expr ↔
      ∃ place pair, function.UsesTable catalog dimensions context place pair ∧
        name ∈ factorNames place context pair := by
  have hElement : Backend.leafNames ⟨dialect, catalog.tables, dimensions⟩ context function.expr =
      Backend.elementNames ⟨dialect, catalog.tables, dimensions⟩ function.element
        (function.table catalog) context := by
    cases function <;> rfl
  rw [hElement, Backend.elementNames]
  constructor
  · intro hName
    split at hName
    · cases hName
    · rename_i component place hSelected
      split at hName
      · cases hName
      · rename_i contributors hContributors
        obtain ⟨pair, hPair, hTable⟩ := List.mem_flatMap.mp hName
        obtain ⟨token, hToken, hFactor⟩ := List.mem_flatMap.mp hTable
        exact ⟨place, pair, ⟨⟨component, contributors, hSelected, hContributors, hPair⟩,
          Option.isSome_of_mem (Option.mem_toList.mp hToken)⟩, hFactor⟩
  · rintro ⟨place, pair, ⟨⟨component, contributors, hSelected, hContributors, hPair⟩, hSome⟩,
      hFactor⟩
    obtain ⟨token, hToken⟩ := Option.isSome_iff_exists.mp hSome
    simp only [hSelected, hContributors]
    exact List.mem_flatMap.mpr ⟨pair, hPair,
      List.mem_flatMap.mpr ⟨token, Option.mem_toList.mpr hToken, hFactor⟩⟩

end BasisFunction

/-- Only a covariant leaf takes a factor in the row of a direction, one for each direction. -/
theorem CellDimensions.covariant_of_mem_contributors {dimensions : CellDimensions}
    {component direction : Nat} {place : ComponentPlace} {contributors : List Contributor}
    {contributor : Contributor}
    (hContributors : dimensions.contributors component place = .ok contributors)
    (hMem : contributor ∈ contributors) (hPullback : contributor.pullback = .covariant direction) :
    place.mapping = .covariantPiola ∧ direction < dimensions.geometric := by
  unfold CellDimensions.contributors at hContributors
  cases hMapping : place.mapping <;> rw [hMapping] at hContributors <;> cases hContributors
  case affine =>
    obtain rfl := List.mem_singleton.mp hMem
    cases hPullback
  case covariantPiola =>
    obtain ⟨row, hRow, rfl⟩ := List.mem_map.mp hMem
    cases hPullback
    exact ⟨rfl, List.mem_range.mp hRow⟩
  case contravariantPiola =>
    obtain ⟨row, -, rfl⟩ := List.mem_map.mp hMem
    cases hPullback

/-- The place of a component that is selected is in a leaf of a registered element. -/
theorem ElementCatalog.exists_leaf_of_selected {catalog : ElementCatalog} {element component : Nat}
    {context : LoweringContext} {place : ComponentPlace}
    (hSelected : catalog.tables.selected element context = .ok (component, place)) :
    ∃ found ∈ catalog.elements, ∃ leaf ∈ found.leaves,
      place.mapping = leaf.mapping ∧ place.component < leaf.valueSize := by
  have hLocate : catalog.tables.locate element component = some place := by
    unfold BasisTables.selected at hSelected
    cases hIndex : context.selectedComponent with
    | error fault =>
        rw [hIndex] at hSelected
        cases hSelected
    | ok index =>
        rw [hIndex] at hSelected
        cases hFound : catalog.tables.locate element index with
        | none =>
            simp only [bind, Except.bind, hFound] at hSelected
            cases hSelected
        | some found =>
            simp only [bind, Except.bind, hFound] at hSelected
            cases hSelected
            exact hFound
  obtain ⟨found, hElement, hPlace⟩ := Option.bind_eq_some_iff.mp hLocate
  exact ⟨found, Array.mem_of_getElem? hElement, (FiniteElement.exists_leaf_of_locate found hPlace).2⟩

/-! ### Directions of derivatives -/

/-- Whether a derivative, if the expression is one, is in a direction below a bound. -/
def Expr.DifferentiatesBelow (bound : Nat) : Expr → Prop
  | .derivative _ direction => direction < bound
  | _ => True

namespace Backend

/-- A part is evaluated under the derivatives around the whole and those of the whole. -/
theorem Evaluates.derivatives_lt {backend : Backend} {bound : Nat} {expr part : Expr}
    {context inner : LoweringContext} (hPart : backend.Evaluates expr context part inner)
    (hExpr : expr.Every (Expr.DifferentiatesBelow bound))
    (hContext : ∀ direction ∈ context.derivatives, direction < bound) :
    ∀ direction ∈ inner.derivatives, direction < bound := by
  induction hPart with
  | self expr context => exact hContext
  | operand hBefore _ ih =>
      exact ih ((Expr.every_operation.mp hExpr).2 _ (by simp)) hContext
  | base _ ih => exact ih hExpr.2.1 hContext
  | exponent _ _ _ _ ih => exact ih hExpr.2.2 hContext
  | @modified modifier operand part context inner _ ih =>
      obtain ⟨hNode, hOperand⟩ := Expr.every_modifier.mp hExpr
      refine ih hOperand ?_
      cases modifier with
      | index component => exact hContext
      | restrict side => exact hContext
      | differentiate direction =>
          exact List.forall_mem_append.mpr ⟨hContext, List.forall_mem_singleton.mpr hNode⟩

variable (dialect : Dialect) (catalog : ElementCatalog) (dimensions : CellDimensions)

/-- Whether evaluating an expression uses a table, and in which context: a basis function that
is evaluated does. -/
def UsesTable (expr : Expr) (context inner : LoweringContext) (place : ComponentPlace)
    (pair : List Nat × Contributor) : Prop :=
  ∃ function : BasisFunction,
    Evaluates ⟨dialect, catalog.tables, dimensions⟩ expr context function.expr inner ∧
      function.UsesTable catalog dimensions inner place pair

/-- Whether evaluating an expression uses an entry of the inverse Jacobian: the entry is in the
factors of a table that is used. -/
def UsesEntry (expr : Expr) (context : LoweringContext) (entry : InverseEntry) : Prop :=
  ∃ inner place pair, UsesTable dialect catalog dimensions expr context inner place pair ∧
    entry ∈ factorEntries place inner pair

/-- Whether evaluating an expression uses a table of a covariant component in a direction. -/
def UsesCovariant (expr : Expr) (context : LoweringContext) (direction : Nat) : Prop :=
  ∃ inner place pair, UsesTable dialect catalog dimensions expr context inner place pair ∧
    pair.2.pullback = .covariant direction

variable {dialect catalog dimensions} {expr : Expr} {context : LoweringContext}
  {entry : InverseEntry}

/-- A facet normal has no entries, so a leaf that has some is a basis function. -/
theorem exists_basisFunction_of_mem_leafNames {backend : Backend} {leaf : Expr}
    (hName : entry.name ∈ backend.leafNames context leaf) :
    ∃ function : BasisFunction, leaf = function.expr := by
  cases leaf with
  | argument basis => exact ⟨.argument basis, rfl⟩
  | coefficient field => exact ⟨.coefficient field, rfl⟩
  | facetNormal =>
      simp only [leafNames] at hName
      split at hName
      · exact absurd (List.mem_singleton.mp hName)
          (entry.name_ne_of_head (by simp [normalName, String.toList_append]))
      · cases hName
  | _ => cases hName

/-- The names of entries that are recorded are those of the entries that are used. -/
theorem records_entry_iff (hAvailable : dialect.Available) :
    (lower ⟨dialect, catalog.tables, dimensions⟩ expr context).Records entry.name ↔
      ∃ used, UsesEntry dialect catalog dimensions expr context used ∧ used.name = entry.name := by
  rw [records_iff_leafNames hAvailable]
  constructor
  · rintro ⟨leaf, inner, hLeaf, hName⟩
    obtain ⟨function, rfl⟩ := exists_basisFunction_of_mem_leafNames hName
    obtain ⟨place, pair, hUses, hFactor⟩ := BasisFunction.mem_leafNames.mp hName
    obtain ⟨used, hUsed, hSame⟩ := name_mem_factorNames.mp hFactor
    exact ⟨used, ⟨inner, place, pair, ⟨function, hLeaf, hUses⟩, hUsed⟩, hSame⟩
  · rintro ⟨used, ⟨inner, place, pair, ⟨function, hLeaf, hUses⟩, hUsed⟩, hSame⟩
    exact ⟨function.expr, inner, hLeaf, BasisFunction.mem_leafNames.mpr
      ⟨place, pair, hUses, name_mem_factorNames.mpr ⟨used, hUsed, hSame⟩⟩⟩

/-- What a covariant component uses comes from a covariant leaf. -/
theorem covariant_bounds {inner : LoweringContext} {place : ComponentPlace}
    {pair : List Nat × Contributor} {direction : Nat}
    (hUses : UsesTable dialect catalog dimensions expr context inner place pair)
    (hPullback : pair.2.pullback = .covariant direction) :
    direction < dimensions.geometric ∧ ∃ element ∈ catalog.elements, ∃ leaf ∈ element.leaves,
      leaf.mapping = .covariantPiola ∧ place.component < leaf.valueSize := by
  obtain ⟨function, -, ⟨component, contributors, hSelected, hContributors, hPair⟩, -⟩ := hUses
  obtain ⟨hMapping, hDirection⟩ := CellDimensions.covariant_of_mem_contributors hContributors
    (mem_tableOrder.mp hPair).2 hPullback
  obtain ⟨element, hElement, leaf, hLeaf, hSame, hSize⟩ :=
    ElementCatalog.exists_leaf_of_selected hSelected
  exact ⟨hDirection, element, hElement, leaf, hLeaf, hSame ▸ hMapping, hSize⟩

/-- An entry that is used is in the column of a physical direction, and it is in the row of a
reference direction unless it is the factor of a covariant component. -/
theorem entry_bounds {inner : LoweringContext} {place : ComponentPlace}
    {pair : List Nat × Contributor}
    (hLeaves : ∀ element ∈ catalog.elements, ∀ leaf ∈ element.leaves, leaf.mapping.IsPiola →
      leaf.valueSize = dimensions.geometric)
    (hExpr : expr.Every (Expr.DifferentiatesBelow dimensions.geometric))
    (hContext : ∀ direction ∈ context.derivatives, direction < dimensions.geometric)
    (hUses : UsesTable dialect catalog dimensions expr context inner place pair)
    (hEntry : entry ∈ factorEntries place inner pair) :
    entry.column < dimensions.geometric ∧
      (entry.row < dimensions.topological ∨ pair.2.pullback = .covariant entry.row) := by
  rcases List.mem_append.mp hEntry with hPullback | hChain
  · obtain ⟨hCovariant, hColumn⟩ := Pullback.covariant_of_mem_inverseEntries hPullback
    obtain ⟨-, element, hElement, leaf, hLeaf, hMapping, hSize⟩ := covariant_bounds hUses hCovariant
    have hPiola : leaf.mapping.IsPiola := by
      rw [hMapping]
      trivial
    rw [hLeaves element hElement leaf hLeaf hPiola] at hSize
    exact ⟨hColumn ▸ hSize, .inr hCovariant⟩
  · obtain ⟨function, hEvaluates, ⟨component, contributors, -, -, hPair⟩, -⟩ := hUses
    obtain ⟨hColumn, hRow⟩ := directions_of_mem_chainRuleEntries hChain
    have hTuple := mem_directionTuples.mp (mem_tableOrder.mp hPair).1
    exact ⟨hEvaluates.derivatives_lt hExpr hContext _ hColumn, .inl (hTuple.2 _ hRow)⟩

/-- The entries of the inverse Jacobian whose names a run records are those that it uses.  All
of them are in the columns of the matrix.  All of them are in its rows as well exactly if the
tables of covariant components that are used belong to reference directions, and so they are
if the dimensions agree or no element has a covariant leaf. -/
theorem recorded_entries_exist_iff (hAvailable : dialect.Available) (catalog : ElementCatalog)
    (dimensions : CellDimensions)
    (hLeaves : ∀ element ∈ catalog.elements, ∀ leaf ∈ element.leaves, leaf.mapping.IsPiola →
      leaf.valueSize = dimensions.geometric)
    (expr : Expr) (hExpr : expr.Every (Expr.DifferentiatesBelow dimensions.geometric))
    (context : LoweringContext)
    (hContext : ∀ direction ∈ context.derivatives, direction < dimensions.geometric)
    (names recorded : GeometryNames) (answer : Except LoweringError TensorCode)
    (hRun : (lower ⟨dialect, catalog.tables, dimensions⟩ expr context).runWith names =
      (answer, recorded)) :
    (∀ entry : InverseEntry, entry.name ∈ recorded ↔ entry.name ∈ names ∨
      ∃ used, UsesEntry dialect catalog dimensions expr context used ∧ used.name = entry.name) ∧
      (∀ entry, UsesEntry dialect catalog dimensions expr context entry →
        entry.column < dimensions.geometric) ∧
        ((∀ entry, UsesEntry dialect catalog dimensions expr context entry →
          entry.row < dimensions.topological) ↔
            ∀ direction, UsesCovariant dialect catalog dimensions expr context direction →
              direction < dimensions.topological) ∧
          ((dimensions.geometric ≤ dimensions.topological ∨ ∀ element ∈ catalog.elements,
            ∀ leaf ∈ element.leaves, leaf.mapping ≠ .covariantPiola) →
              ∀ entry, UsesEntry dialect catalog dimensions expr context entry →
                entry.row < dimensions.topological) := by
  have hRows : (∀ direction, UsesCovariant dialect catalog dimensions expr context direction →
      direction < dimensions.topological) →
        ∀ entry, UsesEntry dialect catalog dimensions expr context entry →
          entry.row < dimensions.topological := by
    rintro hCovariant entry ⟨inner, place, pair, hUses, hEntry⟩
    rcases (entry_bounds hLeaves hExpr hContext hUses hEntry).2 with hRow | hPullback
    · exact hRow
    · exact hCovariant entry.row ⟨inner, place, pair, hUses, hPullback⟩
  refine ⟨fun entry => ?_, ?_, ⟨?_, hRows⟩, fun hCell => hRows ?_⟩
  · rw [← records_entry_iff hAvailable, ← (lower_writeOnly _ expr context).mem_runWith, hRun]
  · rintro entry ⟨inner, place, pair, hUses, hEntry⟩
    exact (entry_bounds hLeaves hExpr hContext hUses hEntry).1
  · rintro hEntries direction ⟨inner, place, pair, hUses, hPullback⟩
    refine hEntries ⟨direction, place.component, inner.restriction⟩
      ⟨inner, place, pair, hUses, List.mem_append_left _ ?_⟩
    rw [hPullback]
    exact List.mem_singleton_self _
  · rintro direction ⟨inner, place, pair, hUses, hPullback⟩
    obtain ⟨hDirection, element, hElement, leaf, hLeaf, hMapping, -⟩ :=
      covariant_bounds hUses hPullback
    rcases hCell with hCell | hNone
    · exact Nat.lt_of_lt_of_le hDirection hCell
    · exact absurd hMapping (hNone element hElement leaf hLeaf)

/-- The derivative of an affine coefficient in the third direction, on a surface in space. -/
theorem recorded_entries_exist_iff_surface :
    let catalog : ElementCatalog := ⟨#[.lagrange 1, .raviartThomas 1 3], []⟩
    let surface : CellDimensions := ⟨3, 2⟩
    let expr : Expr := .derivative (.coefficient ⟨0, 0⟩) 2
    (lower ⟨.cpp none, catalog.tables, surface⟩ expr {}).runWith ∅ =
        (.ok (.scalar (some "(K_02*F0_C0_D10 + K_12*F0_C0_D01)")), .ofList ["K_02", "K_12"]) ∧
      (∃ used, UsesEntry (.cpp none) catalog surface expr {} used ∧ used.name = "K_12") ∧
        ∀ entry, UsesEntry (.cpp none) catalog surface expr {} entry →
          entry.row < 2 ∧ entry.column < 3 := by
  intro catalog surface expr
  have hRun : (lower ⟨.cpp none, catalog.tables, surface⟩ expr {}).runWith ∅ =
      (.ok (.scalar (some "(K_02*F0_C0_D10 + K_12*F0_C0_D01)")), .ofList ["K_02", "K_12"]) := by
    decide +kernel
  have hLeaves : ∀ element ∈ catalog.elements, ∀ leaf ∈ element.leaves,
      (leaf.mapping.IsPiola → leaf.valueSize = 3) ∧ leaf.mapping ≠ .covariantPiola := by
    intro element hElement leaf hLeaf
    have hFound : element = .lagrange 1 ∨ element = .raviartThomas 1 3 := by
      simpa [catalog] using hElement
    rcases hFound with rfl | rfl
    · obtain rfl := List.mem_singleton.mp hLeaf
      exact ⟨False.elim, by decide⟩
    · obtain rfl := List.mem_singleton.mp hLeaf
      exact ⟨fun _ => rfl, by decide⟩
  have hExpr : expr.Every (Expr.DifferentiatesBelow 3) := ⟨show 2 < 3 by decide, trivial⟩
  obtain ⟨hNames, hColumns, -, hRows⟩ := recorded_entries_exist_iff (.cpp none) catalog surface
    (fun element hElement leaf hLeaf => (hLeaves element hElement leaf hLeaf).1) expr hExpr {}
    (fun _ hMem => nomatch hMem) ∅ _ _ hRun
  refine ⟨hRun, ?_, fun entry hEntry => ⟨hRows (.inr fun element hElement leaf hLeaf =>
    (hLeaves element hElement leaf hLeaf).2) entry hEntry, hColumns entry hEntry⟩⟩
  have hMem : InverseEntry.name ⟨1, 2, .none⟩ ∈ SortedSet.ofList ["K_02", "K_12"] := by
    decide +kernel
  exact ((hNames ⟨1, 2, .none⟩).mp hMem).resolve_left SortedSet.not_mem_empty

/-- A covariant component on a surface in space uses the third row of a matrix with two. -/
theorem covariant_uses_missing_row :
    let catalog : ElementCatalog := ⟨#[.nedelec 1 3], []⟩
    let surface : CellDimensions := ⟨3, 2⟩
    let expr : Expr := .indexed (.coefficient ⟨0, 0⟩) [0]
    (∀ element ∈ catalog.elements, ∀ leaf ∈ element.leaves, leaf.mapping.IsPiola →
      leaf.valueSize = surface.geometric) ∧
      expr.Every (Expr.DifferentiatesBelow surface.geometric) ∧
        (lower ⟨.cpp none, catalog.tables, surface⟩ expr {}).runWith ∅ =
            (.ok (.scalar (some "(K_00*F0_C0 + K_10*F0_C1 + K_20*F0_C2)")),
              .ofList ["K_00", "K_10", "K_20"]) ∧
          UsesEntry (.cpp none) catalog surface expr {} ⟨2, 0, .none⟩ ∧
            ¬2 < surface.topological := by
  intro catalog surface expr
  refine ⟨?_, ⟨trivial, trivial⟩, by decide +kernel, ?_, by decide⟩
  · intro element hElement leaf hLeaf hPiola
    obtain rfl : element = .nedelec 1 3 := by simpa [catalog] using hElement
    obtain rfl := List.mem_singleton.mp hLeaf
    rfl
  · have hUses : BasisFunction.UsesTable catalog surface (.coefficient ⟨0, 0⟩)
        { component := [0] } ⟨.covariantPiola, 0, 0⟩ ([], ⟨2, .covariant 2⟩) :=
      ⟨⟨0, _, rfl, rfl, by decide⟩, by decide +kernel⟩
    exact ⟨_, _, _, ⟨.coefficient ⟨0, 0⟩, @Evaluates.modified _ (.index [0]) _ _ _ _ (.self _ _),
      hUses⟩, by decide⟩

end Backend

end FormLowering
