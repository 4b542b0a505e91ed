import FormLowering.Element.Basic
import Mathlib.Algebra.Order.Ring.Nat

/-!
# Leaves of elements

The leaves of an element are the elements without parts of which it is made, from left to
right.  The search for a component ends at a leaf, also if the sizes of an element and of
its parts do not fit together.

In an element that is built from its parts the sizes do fit together.  Then the nesting
does not matter: the search through the parts gives the same place as a search through
the row of leaves (`FiniteElement.Built.locate_eq_locateIn_leaves`), and in a row each
leaf holds the components from the sum of the sizes in front of it on.
-/

namespace FormLowering

namespace ComponentPlace

theorem shift_shift (size size' : Nat) (place : ComponentPlace) :
    (place.shift size).shift size' = place.shift (size' + size) := by
  simp only [shift, Nat.add_assoc]

end ComponentPlace

namespace FiniteElement

/-- The number of components of a row of elements. -/
def rowSize (elements : List FiniteElement) : Nat :=
  (elements.map valueSize).sum

@[simp]
theorem rowSize_nil : rowSize [] = 0 :=
  rfl

@[simp]
theorem rowSize_cons (element : FiniteElement) (rest : List FiniteElement) :
    rowSize (element :: rest) = element.valueSize + rowSize rest := by
  simp [rowSize]

@[simp]
theorem rowSize_append (left right : List FiniteElement) :
    rowSize (left ++ right) = rowSize left + rowSize right := by
  simp [rowSize]

mutual

/-- The elements without parts of which an element is made, from left to right. -/
def leaves : FiniteElement → List FiniteElement
  | ⟨family, degree, mapping, valueSize, parts⟩ =>
    if parts.isEmpty then [⟨family, degree, mapping, valueSize, parts⟩] else leavesIn parts

/-- The leaves of a row of elements. -/
def leavesIn : List FiniteElement → List FiniteElement
  | [] => []
  | element :: rest => element.leaves ++ leavesIn rest

end

/-- Elements as they are built: without parts, or from parts that are built. -/
inductive Built : FiniteElement → Prop
  | simple (family : String) (degree : Nat) (mapping : Mapping) (valueSize : Nat) :
    Built (.simple family degree mapping valueSize)
  | mixed {parts : List FiniteElement} (hParts : ∀ part ∈ parts, Built part) :
    Built (.mixed parts)

theorem Built.lagrange (degree : Nat) : Built (.lagrange degree) :=
  .simple _ _ _ _

theorem Built.nedelec (degree dimension : Nat) : Built (.nedelec degree dimension) :=
  .simple _ _ _ _

theorem Built.raviartThomas (degree dimension : Nat) : Built (.raviartThomas degree dimension) :=
  .simple _ _ _ _

theorem Built.vectorLagrange (degree dimension : Nat) :
    Built (.vectorLagrange degree dimension) :=
  .mixed fun _ hPart => List.eq_of_mem_replicate hPart ▸ .lagrange degree

theorem locate_of_parts_eq_nil {element : FiniteElement} (hParts : element.parts = [])
    (component : Nat) :
    element.locate component =
      if element.valueSize ≤ component then none else some ⟨element.mapping, 0, component⟩ := by
  obtain ⟨family, degree, mapping, valueSize, parts⟩ := element
  obtain rfl : parts = [] := hParts
  rw [locate]
  rfl

theorem valueSize_mixed (parts : List FiniteElement) : (mixed parts).valueSize = rowSize parts :=
  rfl

/-- A mixed element without parts has no components, so it is no exception. -/
theorem locate_mixed (parts : List FiniteElement) (component : Nat) :
    (mixed parts).locate component =
      if rowSize parts ≤ component then none else locateIn parts component := by
  rw [mixed, locate]
  cases parts with
  | nil => rfl
  | cons part rest => rfl

/-! ### Any element -/

mutual

theorem parts_of_mem_leaves : (element : FiniteElement) → {leaf : FiniteElement} →
    leaf ∈ element.leaves → leaf.parts = []
  | ⟨family, degree, mapping, valueSize, parts⟩, leaf, hLeaf => by
      rw [leaves] at hLeaf
      split at hLeaf
      · rename_i hEmpty
        obtain rfl := List.mem_singleton.mp hLeaf
        exact List.isEmpty_iff.mp hEmpty
      · exact parts_of_mem_leavesIn parts hLeaf

theorem parts_of_mem_leavesIn : (elements : List FiniteElement) → {leaf : FiniteElement} →
    leaf ∈ leavesIn elements → leaf.parts = []
  | [], _, hLeaf => nomatch hLeaf
  | element :: rest, _, hLeaf =>
      (List.mem_append.mp hLeaf).elim (parts_of_mem_leaves element) (parts_of_mem_leavesIn rest)

end

mutual

/-- The place of a component is in a leaf, as far behind its start as the component is. -/
theorem exists_leaf_of_locate : (element : FiniteElement) → {component : Nat} →
    {place : ComponentPlace} → element.locate component = some place →
      place.offset + place.component = component ∧
        ∃ leaf ∈ element.leaves, place.mapping = leaf.mapping ∧ place.component < leaf.valueSize
  | ⟨family, degree, mapping, valueSize, parts⟩, component, place, hPlace => by
      rw [locate] at hPlace
      by_cases hSize : valueSize ≤ component
      · rw [if_pos hSize] at hPlace
        cases hPlace
      rw [if_neg hSize] at hPlace
      rw [leaves]
      cases hEmpty : parts.isEmpty with
      | true =>
          rw [hEmpty] at hPlace
          obtain rfl := Option.some.inj hPlace
          have hHolds : component < valueSize := Nat.lt_of_not_le hSize
          exact ⟨Nat.zero_add _, _, List.mem_singleton_self _, rfl, hHolds⟩
      | false =>
          rw [hEmpty] at hPlace
          exact exists_leaf_of_locateIn parts hPlace

theorem exists_leaf_of_locateIn : (elements : List FiniteElement) → {component : Nat} →
    {place : ComponentPlace} → locateIn elements component = some place →
      place.offset + place.component = component ∧
        ∃ leaf ∈ leavesIn elements,
          place.mapping = leaf.mapping ∧ place.component < leaf.valueSize
  | [], _, _, hPlace => nomatch hPlace
  | element :: rest, component, place, hPlace => by
      rw [locateIn] at hPlace
      rw [leavesIn]
      split at hPlace
      · obtain ⟨hComponent, leaf, hLeaf, hHolds⟩ := exists_leaf_of_locate element hPlace
        exact ⟨hComponent, leaf, List.mem_append_left _ hLeaf, hHolds⟩
      · obtain ⟨inner, hInner, rfl⟩ := Option.map_eq_some_iff.mp hPlace
        obtain ⟨hComponent, leaf, hLeaf, hHolds⟩ := exists_leaf_of_locateIn rest hInner
        refine ⟨?_, leaf, List.mem_append_right _ hLeaf, hHolds⟩
        simp only [ComponentPlace.shift]
        omega

end

/-! ### Rows of elements -/

/-- Components of the first elements of a row are found among them. -/
theorem locateIn_append_of_lt {left : List FiniteElement} (right : List FiniteElement)
    {component : Nat} (hLeft : component < rowSize left) :
    locateIn (left ++ right) component = locateIn left component := by
  induction left generalizing component with
  | nil => exact absurd hLeft (Nat.not_lt_zero _)
  | cons element rest ih =>
      rw [rowSize_cons] at hLeft
      rw [List.cons_append, locateIn, locateIn]
      split
      · rfl
      · rw [ih (by omega)]

/-- All others are found behind them. -/
theorem locateIn_append_of_le {left : List FiniteElement} (right : List FiniteElement)
    {component : Nat} (hLeft : rowSize left ≤ component) :
    locateIn (left ++ right) component =
      (locateIn right (component - rowSize left)).map (·.shift (rowSize left)) := by
  induction left generalizing component with
  | nil => simp [ComponentPlace.shift]
  | cons element rest ih =>
      rw [rowSize_cons] at hLeft ⊢
      rw [List.cons_append, locateIn, if_neg (by omega), ih (by omega), Option.map_map,
        Nat.sub_sub]
      congr 1
      funext place
      exact place.shift_shift _ _

theorem locateIn_eq_none {elements : List FiniteElement} {component : Nat}
    (hSize : rowSize elements ≤ component) : locateIn elements component = none := by
  have hEmpty := locateIn_append_of_le [] hSize
  rwa [List.append_nil] at hEmpty

/-- In a row of leaves a component is found in the leaf in whose range it is. -/
theorem locateIn_eq_some_iff {row : List FiniteElement} (hRow : ∀ leaf ∈ row, leaf.parts = [])
    {component : Nat} {place : ComponentPlace} :
    locateIn row component = some place ↔
      ∃ before leaf after, row = before ++ leaf :: after ∧ place.offset = rowSize before ∧
        place.mapping = leaf.mapping ∧ place.component < leaf.valueSize ∧
          place.offset + place.component = component := by
  constructor
  · intro hPlace
    induction row generalizing component place with
    | nil => cases hPlace
    | cons first rest ih =>
        obtain ⟨hFirst, hRest⟩ := List.forall_mem_cons.mp hRow
        rw [locateIn] at hPlace
        split at hPlace
        · rename_i hSize
          rw [locate_of_parts_eq_nil hFirst, if_neg (Nat.not_le.mpr hSize)] at hPlace
          obtain rfl := Option.some.inj hPlace
          exact ⟨[], first, rest, rfl, rfl, rfl, hSize, Nat.zero_add _⟩
        · obtain ⟨inner, hInner, rfl⟩ := Option.map_eq_some_iff.mp hPlace
          obtain ⟨before, leaf, after, rfl, hOffset, hMapping, hSize, hComponent⟩ :=
            ih hRest hInner
          refine ⟨first :: before, leaf, after, rfl, ?_, hMapping, hSize, ?_⟩
          · rw [rowSize_cons, ← hOffset]
            rfl
          · simp only [ComponentPlace.shift]
            omega
  · rintro ⟨before, leaf, after, rfl, hOffset, hMapping, hSize, rfl⟩
    have hLeaf : leaf.parts = [] := hRow leaf (by simp)
    rw [hOffset, locateIn_append_of_le _ (Nat.le_add_right _ _), Nat.add_sub_cancel_left, locateIn,
      if_pos hSize, locate_of_parts_eq_nil hLeaf, if_neg (Nat.not_le.mpr hSize), Option.map_some,
      ← hOffset, ← hMapping]
    rfl

/-- Every component of a row is in the range of one of its leaves. -/
theorem isSome_locateIn_iff {row : List FiniteElement} (hRow : ∀ leaf ∈ row, leaf.parts = [])
    {component : Nat} : (locateIn row component).isSome ↔ component < rowSize row := by
  constructor
  · intro hSome
    by_contra hSize
    rw [locateIn_eq_none (Nat.le_of_not_lt hSize)] at hSome
    cases hSome
  · intro hSize
    induction row generalizing component with
    | nil => exact absurd hSize (Nat.not_lt_zero _)
    | cons first rest ih =>
        obtain ⟨hFirst, hRest⟩ := List.forall_mem_cons.mp hRow
        rw [rowSize_cons] at hSize
        rw [locateIn]
        split
        · rename_i hHolds
          rw [locate_of_parts_eq_nil hFirst, if_neg (Nat.not_le.mpr hHolds)]
          rfl
        · rw [Option.isSome_map]
          exact ih hRest (by omega)

/-! ### Elements that are built -/

theorem rowSize_leavesIn {parts : List FiniteElement}
    (hParts : ∀ part ∈ parts, rowSize part.leaves = part.valueSize) :
    rowSize (leavesIn parts) = rowSize parts := by
  induction parts with
  | nil => rfl
  | cons part rest ih =>
      obtain ⟨hPart, hRest⟩ := List.forall_mem_cons.mp hParts
      rw [leavesIn, rowSize_append, rowSize_cons, hPart, ih hRest]

/-- A search through the parts is a search through their leaves, if it is for each part. -/
theorem locateIn_leavesIn {parts : List FiniteElement}
    (hSizes : ∀ part ∈ parts, rowSize part.leaves = part.valueSize)
    (hParts : ∀ part ∈ parts, ∀ component, part.locate component = locateIn part.leaves component)
    (component : Nat) : locateIn parts component = locateIn (leavesIn parts) component := by
  induction parts generalizing component with
  | nil => rfl
  | cons part rest ih =>
      obtain ⟨hSize, hRestSizes⟩ := List.forall_mem_cons.mp hSizes
      obtain ⟨hPart, hRest⟩ := List.forall_mem_cons.mp hParts
      rw [locateIn, leavesIn]
      split
      · rename_i hFirst
        rw [hPart, locateIn_append_of_lt _ (hSize ▸ hFirst)]
      · rename_i hFirst
        rw [locateIn_append_of_le _ (hSize ▸ Nat.le_of_not_lt hFirst), hSize,
          ih hRestSizes hRest]

namespace Built

variable {element : FiniteElement}

theorem rowSize_leaves (hBuilt : element.Built) : rowSize element.leaves = element.valueSize := by
  induction hBuilt with
  | simple family degree mapping valueSize => exact Nat.add_zero _
  | @mixed parts _ ih =>
      rw [valueSize_mixed, FiniteElement.mixed, leaves]
      split
      · rename_i hEmpty
        obtain rfl := List.isEmpty_iff.mp hEmpty
        rfl
      · exact rowSize_leavesIn ih

/-- Nesting does not matter for the place of a component. -/
theorem locate_eq_locateIn_leaves (hBuilt : element.Built) (component : Nat) :
    element.locate component = locateIn element.leaves component := by
  induction hBuilt generalizing component with
  | simple family degree mapping valueSize =>
      show _ = if component < valueSize then _ else none
      split
      · rfl
      · rename_i hSize
        rw [locate_of_parts_eq_nil rfl]
        exact if_pos (Nat.le_of_not_lt hSize)
  | @mixed parts hParts ih =>
      have hSizes : ∀ part ∈ parts, rowSize part.leaves = part.valueSize :=
        fun part hPart => (hParts part hPart).rowSize_leaves
      rw [locate_mixed]
      split
      · rename_i hSize
        rw [locateIn_eq_none]
        rwa [(Built.mixed hParts).rowSize_leaves, valueSize_mixed]
      · rename_i hSize
        cases parts with
        | nil => exact absurd (Nat.zero_le _) hSize
        | cons part rest => exact locateIn_leavesIn hSizes ih component

end Built

end FiniteElement

end FormLowering
