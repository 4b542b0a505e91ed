/-!
# Sets listed in increasing order

A `SortedSet` keeps its elements as a strictly increasing list.  Two sets with
the same elements are equal (`SortedSet.ext_mem`), so the order in which
elements were inserted leaves no trace.
-/

namespace FormLowering

/-- A finite set, listed in strictly increasing order. -/
@[ext]
structure SortedSet (α : Type) [LT α] where
  /-- The elements of the set, in increasing order. -/
  elements : List α
  /-- Every element is smaller than the elements after it. -/
  increasing : elements.Pairwise (· < ·)

namespace SortedSet

variable {α : Type}

section Views

variable [LT α]

instance [DecidableEq α] : DecidableEq (SortedSet α) :=
  fun left right =>
    decidable_of_iff (left.elements = right.elements) SortedSet.ext_iff.symm

/-- The set without elements. -/
def empty : SortedSet α where
  elements := []
  increasing := .nil

instance : EmptyCollection (SortedSet α) :=
  ⟨empty⟩

instance : Inhabited (SortedSet α) :=
  ⟨empty⟩

instance : Membership α (SortedSet α) :=
  ⟨fun set element => element ∈ set.elements⟩

theorem mem_iff {set : SortedSet α} {element : α} :
    element ∈ set ↔ element ∈ set.elements :=
  Iff.rfl

theorem not_mem_empty {element : α} : element ∉ (∅ : SortedSet α) :=
  fun hMem => nomatch hMem

instance [DecidableEq α] (element : α) (set : SortedSet α) : Decidable (element ∈ set) :=
  decidable_of_iff _ mem_iff.symm

/-- The number of elements. -/
def size (set : SortedSet α) : Nat :=
  set.elements.length

/-- Whether the set has no elements. -/
def isEmpty (set : SortedSet α) : Bool :=
  set.elements.isEmpty

end Views

section Extensionality

variable [LT α] [LE α] [Std.IsLinearOrder α] [Std.LawfulOrderLT α]

/-- Two increasing lists with the same members are equal. -/
theorem eq_of_mem_iff {left right : List α} (hLeft : left.Pairwise (· < ·))
    (hRight : right.Pairwise (· < ·)) (hMem : ∀ element, element ∈ left ↔ element ∈ right) :
    left = right := by
  induction left generalizing right with
  | nil => cases right with
    | nil => rfl
    | cons element rest => exact absurd ((hMem element).mpr List.mem_cons_self) (by simp)
  | cons element rest ih =>
    cases right with
    | nil => exact absurd ((hMem element).mp List.mem_cons_self) (by simp)
    | cons element' rest' =>
      rw [List.pairwise_cons] at hLeft hRight
      have hFirst : element = element' := by
        rcases List.mem_cons.mp ((hMem element).mp List.mem_cons_self) with hEq | hLater
        · exact hEq
        · rcases List.mem_cons.mp ((hMem element').mpr List.mem_cons_self) with hEq | hLater'
          · exact hEq.symm
          · exact absurd (Std.lt_trans (hRight.1 element hLater) (hLeft.1 element' hLater'))
              Std.lt_irrefl
      subst hFirst
      refine congrArg _ (ih hLeft.2 hRight.2 fun candidate => ?_)
      have hIff := hMem candidate
      simp only [List.mem_cons] at hIff
      constructor
      · intro hRest
        refine (hIff.mp (.inr hRest)).resolve_left fun hEq => ?_
        exact Std.lt_irrefl (hEq ▸ hLeft.1 candidate hRest)
      · intro hRest
        refine (hIff.mpr (.inr hRest)).resolve_left fun hEq => ?_
        exact Std.lt_irrefl (hEq ▸ hRight.1 candidate hRest)

omit [Std.IsLinearOrder α] in
theorem nodup_elements (set : SortedSet α) : set.elements.Nodup :=
  set.increasing.imp Std.ne_of_lt

/-- Sets with the same elements are equal. -/
theorem ext_mem {left right : SortedSet α} (hMem : ∀ element, element ∈ left ↔ element ∈ right) :
    left = right :=
  SortedSet.ext (eq_of_mem_iff left.increasing right.increasing hMem)

end Extensionality

section Updates

variable [LT α] [LE α] [DecidableLT α] [Std.IsLinearOrder α] [Std.LawfulOrderLT α]

/-- Puts an element where it belongs in an increasing list, unless it is there
already. -/
def insertElement (element : α) : List α → List α
  | [] => [element]
  | other :: rest =>
    if element < other then element :: other :: rest
    else if other < element then other :: insertElement element rest
    else other :: rest

theorem mem_insertElement {element candidate : α} {elements : List α} :
    candidate ∈ insertElement element elements ↔
      candidate = element ∨ candidate ∈ elements := by
  induction elements with
  | nil => simp [insertElement]
  | cons other rest ih =>
    rw [insertElement]
    split
    · simp
    · split
      · simp only [List.mem_cons, ih]
        grind
      · rename_i hNotBefore hNotAfter
        have hEq : element = other := by
          rcases Std.lt_trichotomy element other with hLt | hEq | hGt
          · exact absurd hLt hNotBefore
          · exact hEq
          · exact absurd hGt hNotAfter
        simp [hEq]

theorem increasing_insertElement {element : α} {elements : List α}
    (hIncreasing : elements.Pairwise (· < ·)) :
    (insertElement element elements).Pairwise (· < ·) := by
  induction elements with
  | nil => simp [insertElement]
  | cons other rest ih =>
    rw [List.pairwise_cons] at hIncreasing
    rw [insertElement]
    split
    · rename_i hBefore
      simp only [List.pairwise_cons, List.mem_cons]
      exact ⟨fun later hLater => hLater.elim (· ▸ hBefore)
        fun hRest => Std.lt_trans hBefore (hIncreasing.1 later hRest), hIncreasing⟩
    · split
      · rename_i hAfter
        rw [List.pairwise_cons]
        exact ⟨fun later hLater => (mem_insertElement.mp hLater).elim (· ▸ hAfter)
          (hIncreasing.1 later), ih hIncreasing.2⟩
      · exact List.pairwise_cons.mpr hIncreasing

/-- The set with one more element. -/
def insert (set : SortedSet α) (element : α) : SortedSet α where
  elements := insertElement element set.elements
  increasing := increasing_insertElement set.increasing

/-- The elements of either set. -/
def union (left right : SortedSet α) : SortedSet α :=
  right.elements.foldl insert left

instance : Union (SortedSet α) :=
  ⟨union⟩

/-- The set of the elements of a list. -/
def ofList (elements : List α) : SortedSet α :=
  elements.foldl insert empty

theorem mem_insert {set : SortedSet α} {element candidate : α} :
    candidate ∈ set.insert element ↔ candidate = element ∨ candidate ∈ set :=
  mem_insertElement

theorem mem_foldl_insert {set : SortedSet α} {elements : List α} {candidate : α} :
    candidate ∈ elements.foldl insert set ↔ candidate ∈ set ∨ candidate ∈ elements := by
  induction elements generalizing set with
  | nil => simp
  | cons element rest ih =>
    rw [List.foldl_cons, ih, mem_insert, List.mem_cons]
    grind

theorem mem_union {left right : SortedSet α} {candidate : α} :
    candidate ∈ left ∪ right ↔ candidate ∈ left ∨ candidate ∈ right :=
  mem_foldl_insert

theorem mem_ofList {elements : List α} {candidate : α} :
    candidate ∈ ofList elements ↔ candidate ∈ elements := by
  rw [ofList, mem_foldl_insert]
  exact ⟨fun hMem => hMem.elim (fun hEmpty => nomatch hEmpty) id, .inr⟩

theorem union_empty (set : SortedSet α) : set ∪ ∅ = set :=
  rfl

theorem union_insert (left right : SortedSet α) (element : α) :
    left ∪ right.insert element = (left ∪ right).insert element := by
  apply ext_mem
  intro candidate
  simp only [mem_union, mem_insert]
  exact or_left_comm

end Updates

end SortedSet

end FormLowering
