import FormLowering.Lowering.PhysicalBasis
import FormLowering.Proofs.Element.Leaves
import Mathlib.Tactic

/-!
# Locating components

The leaves of an element share out its flat components from left to right.  Locating a
component finds the leaf in whose range it is, at any depth, and lowering asks for the
tables of just that range where the reference components of a leaf are mixed by its
mapping.
-/

namespace FormLowering

/-- Whether the mapping mixes the components of an element, by one matrix. -/
def Mapping.IsPiola : Mapping → Prop
  | .covariantPiola | .contravariantPiola => True
  | .affine | .doubleCovariantPiola | .doubleContravariantPiola => False

/-- Every direction contributes the reference component that stands at its number. -/
theorem CellDimensions.exists_contributors_of_isPiola (dimensions : CellDimensions)
    (component : Nat) (place : ComponentPlace) (hPiola : place.mapping.IsPiola) :
    ∃ contributors, dimensions.contributors component place = .ok contributors ∧
      contributors.map Contributor.component = List.range' place.offset dimensions.geometric := by
  have hRange : (List.range dimensions.geometric).map (· + place.offset) =
      List.range' place.offset dimensions.geometric := by
    rw [List.range'_eq_map_range]
    exact List.map_congr_left fun direction _ => Nat.add_comm direction place.offset
  unfold contributors
  cases hMapping : place.mapping with
  | covariantPiola => exact ⟨_, rfl, by rw [List.map_map]; exact hRange⟩
  | contravariantPiola => exact ⟨_, rfl, by rw [List.map_map]; exact hRange⟩
  | _ =>
      rw [hMapping] at hPiola
      exact hPiola.elim

namespace FiniteElement

/-- Whether a leaf stands at an offset: the leaves in front of it have that many components. -/
def HasLeafAt (element : FiniteElement) (offset : Nat) (leaf : FiniteElement) : Prop :=
  ∃ before after, element.leaves = before ++ leaf :: after ∧ offset = rowSize before

variable {element : FiniteElement} {component : Nat}

theorem Built.locate_eq_some_iff (hBuilt : element.Built) {place : ComponentPlace} :
    element.locate component = some place ↔
      ∃ leaf, element.HasLeafAt place.offset leaf ∧ place.mapping = leaf.mapping ∧
        place.component < leaf.valueSize ∧ place.offset + place.component = component := by
  rw [hBuilt.locate_eq_locateIn_leaves, locateIn_eq_some_iff fun _ => parts_of_mem_leaves element]
  constructor
  · rintro ⟨before, leaf, after, hLeaves, hOffset, hHolds⟩
    exact ⟨leaf, ⟨before, after, hLeaves, hOffset⟩, hHolds⟩
  · rintro ⟨leaf, ⟨before, after, hLeaves, hOffset⟩, hHolds⟩
    exact ⟨before, leaf, after, hLeaves, hOffset, hHolds⟩

/-- A component of an element that is built is found exactly if it is one of its flat
components, and its place is in the leaf whose range contains it.  If that leaf is mapped
by a matrix and has a component for each direction, then the components of its range are
asked for, each once.  In any element, built or not, the place of a component is as far
behind the start of its leaf as the component is. -/
theorem locate_finds_leaf (hBuilt : element.Built) (component : Nat) :
    ((element.locate component).isSome ↔ component < element.valueSize) ∧
      (∀ place, element.locate component = some place ↔
        ∃ leaf, element.HasLeafAt place.offset leaf ∧ place.mapping = leaf.mapping ∧
          place.component < leaf.valueSize ∧ place.offset + place.component = component) ∧
        (∀ (leaf : FiniteElement) (offset : Nat) (dimensions : CellDimensions),
          element.HasLeafAt offset leaf → leaf.mapping.IsPiola →
            leaf.valueSize = dimensions.geometric → offset ≤ component →
              component < offset + leaf.valueSize →
                ∃ place contributors, element.locate component = some place ∧
                  dimensions.contributors component place = .ok contributors ∧
                    ∀ context tuple, contributors.map (fun contributor =>
                      (dimensions.tableRequest context tuple contributor).component) =
                        List.range' offset leaf.valueSize) ∧
          ∀ (other : FiniteElement) (place : ComponentPlace),
            other.locate component = some place → place.offset + place.component = component := by
  refine ⟨?_, fun place => hBuilt.locate_eq_some_iff, ?_, ?_⟩
  · rw [hBuilt.locate_eq_locateIn_leaves, ← hBuilt.rowSize_leaves]
    exact isSome_locateIn_iff fun _ => parts_of_mem_leaves element
  · intro leaf offset dimensions hLeaf hPiola hSize hStart hEnd
    have hLocate : element.locate component = some ⟨leaf.mapping, offset, component - offset⟩ :=
      hBuilt.locate_eq_some_iff.mpr ⟨leaf, hLeaf, rfl, Nat.sub_lt_left_of_lt_add hStart hEnd,
        Nat.add_sub_cancel' hStart⟩
    obtain ⟨contributors, hContributors, hRange⟩ :=
      dimensions.exists_contributors_of_isPiola component
        ⟨leaf.mapping, offset, component - offset⟩ hPiola
    refine ⟨_, contributors, hLocate, hContributors, fun context tuple => ?_⟩
    rw [hSize]
    exact hRange
  · exact fun other place hPlace => (exists_leaf_of_locate other hPlace).1

/-- The second component of a Raviart-Thomas element that stands behind a nested element and
an empty one. -/
theorem locate_finds_leaf_nested :
    let velocity : FiniteElement := .mixed [.vectorLagrange 2 2, .lagrange 1]
    let element : FiniteElement := .mixed [velocity, .mixed [], .raviartThomas 1 2]
    element.Built ∧ element.locate 4 = some ⟨.contravariantPiola, 3, 1⟩ ∧
      ∃ contributors, CellDimensions.contributors {} 4 ⟨.contravariantPiola, 3, 1⟩ =
        .ok contributors ∧ contributors.map Contributor.component = [3, 4] := by
  intro velocity element
  have hVelocity : velocity.Built := .mixed (by simp [Built.vectorLagrange, Built.lagrange])
  have hEmpty : (FiniteElement.mixed []).Built := .mixed (by simp)
  have hBuilt : element.Built := .mixed (by simp [hVelocity, hEmpty, Built.raviartThomas])
  have hLeaf : element.HasLeafAt 3 (.raviartThomas 1 2) :=
    ⟨[.lagrange 2, .lagrange 2, .lagrange 1, .mixed []], [], rfl, rfl⟩
  obtain ⟨-, hPlace, hTables, -⟩ := locate_finds_leaf hBuilt 4
  have hLocate : element.locate 4 = some ⟨.contravariantPiola, 3, 1⟩ :=
    (hPlace _).mpr ⟨_, hLeaf, rfl, by decide, rfl⟩
  obtain ⟨place, contributors, hSame, hContributors, hRange⟩ :=
    hTables _ 3 {} hLeaf trivial rfl (by decide) (by decide)
  obtain rfl : _ = place := Option.some.inj (hLocate.symm.trans hSame)
  exact ⟨hBuilt, hLocate, contributors, hContributors, hRange {} []⟩

end FiniteElement

end FormLowering
