import FormLowering.Dialect.Cpp
import FormLowering.Element.Catalog
import FormLowering.Proofs.Traversal.Extension
import Mathlib.Data.List.Induction

/-!
# Histories of a catalog

A catalog is known through the calls that have made it what it is.  The elements are those
that were registered, in this order, and a table is structurally zero if it was marked, at
any time, with counts that mean the same.  So the marks of a history are a set, and an
element keeps its number, and whatever lowering succeeds with, however many elements are
registered later.
-/

namespace FormLowering

/-- Whether derivative counts mean the same: counts that are all zero mean the same in any
number, and other counts only mean the same as themselves. -/
def SameCounts (left right : List Nat) : Prop :=
  left = right ∨ (∀ count ∈ left, count = 0) ∧ ∀ count ∈ right, count = 0

theorem canonicalCounts_of_zero {counts : List Nat} (hZero : ∀ count ∈ counts, count = 0) :
    canonicalCounts counts = [] :=
  if_pos (List.all_eq_true.mpr fun count hMem => decide_eq_true (hZero count hMem))

theorem canonicalCounts_of_not_zero {counts : List Nat} (hSome : ¬∀ count ∈ counts, count = 0) :
    canonicalCounts counts = counts :=
  if_neg fun hAll => hSome fun count hMem => of_decide_eq_true (List.all_eq_true.mp hAll count hMem)

/-- A table is known under one vector of counts for all that mean the same. -/
theorem canonicalCounts_eq_iff {left right : List Nat} :
    canonicalCounts left = canonicalCounts right ↔ SameCounts left right := by
  constructor
  · intro hSame
    by_cases hLeft : ∀ count ∈ left, count = 0
    · by_cases hRight : ∀ count ∈ right, count = 0
      · exact .inr ⟨hLeft, hRight⟩
      · rw [canonicalCounts_of_zero hLeft, canonicalCounts_of_not_zero hRight] at hSame
        subst hSame
        exact absurd (by simp) hRight
    · by_cases hRight : ∀ count ∈ right, count = 0
      · rw [canonicalCounts_of_not_zero hLeft, canonicalCounts_of_zero hRight] at hSame
        subst hSame
        exact absurd (by simp) hLeft
      · rw [canonicalCounts_of_not_zero hLeft, canonicalCounts_of_not_zero hRight] at hSame
        exact .inl hSame
  · rintro (rfl | ⟨hLeft, hRight⟩)
    · rfl
    · rw [canonicalCounts_of_zero hLeft, canonicalCounts_of_zero hRight]

namespace ElementCatalog

/-! ### Calls -/

/-- A call that changes a catalog. -/
inductive Call where
  | register (element : FiniteElement)
  | declareZero (element component : Nat) (derivatives : List Nat)

namespace Call

/-- The catalog after the call. -/
def perform (catalog : ElementCatalog) : Call → ElementCatalog
  | register element => (catalog.register element).1
  | declareZero element component derivatives => catalog.declareZero element component derivatives

/-- The element that the call registers. -/
def registered? : Call → Option FiniteElement
  | register element => some element
  | declareZero _ _ _ => none

/-- Whether the call marks a table structurally zero. -/
def Marks (call : Call) (element component : Nat) (derivatives : List Nat) : Prop :=
  ∃ counts, call = declareZero element component counts ∧ SameCounts counts derivatives

variable {catalog : ElementCatalog} {element component : Nat} {derivatives : List Nat}

@[simp]
theorem not_marks_register {other : FiniteElement} :
    ¬(register other).Marks element component derivatives := by
  rintro ⟨_, hCall, -⟩
  cases hCall

@[simp]
theorem marks_declareZero {element' component' : Nat} {counts : List Nat} :
    (declareZero element' component' counts).Marks element component derivatives ↔
      element = element' ∧ component = component' ∧ SameCounts counts derivatives := by
  constructor
  · rintro ⟨_, hCall, hCounts⟩
    cases hCall
    exact ⟨rfl, rfl, hCounts⟩
  · rintro ⟨rfl, rfl, hCounts⟩
    exact ⟨_, rfl, hCounts⟩

theorem elements_perform (catalog : ElementCatalog) (call : Call) :
    (call.perform catalog).elements.toList =
      catalog.elements.toList ++ call.registered?.toList := by
  cases call with
  | register element => exact Array.toList_push
  | declareZero element component derivatives => exact (List.append_nil _).symm

theorem isZero_perform (call : Call) :
    (call.perform catalog).isZero element component derivatives ↔
      catalog.isZero element component derivatives ∨ call.Marks element component derivatives := by
  cases call with
  | register other => simp [perform, ElementCatalog.register, isZero]
  | declareZero element' component' counts =>
      simp only [perform, ElementCatalog.declareZero, isZero, List.contains_iff_mem,
        List.mem_insert_iff, TableId.mk.injEq, marks_declareZero, ← canonicalCounts_eq_iff]
      rw [or_comm, eq_comm (a := canonicalCounts derivatives)]

end Call

/-! ### Histories -/

/-- The catalog after some calls, from the first one on. -/
def after (calls : List Call) : ElementCatalog :=
  calls.foldl Call.perform {}

/-- The elements that are registered by some calls. -/
def registered (calls : List Call) : List FiniteElement :=
  calls.filterMap Call.registered?

/-- Whether one of some calls marks a table structurally zero. -/
def Marked (calls : List Call) (element component : Nat) (derivatives : List Nat) : Prop :=
  ∃ call ∈ calls, call.Marks element component derivatives

theorem after_concat (calls : List Call) (call : Call) :
    after (calls ++ [call]) = call.perform (after calls) := by
  rw [after, List.foldl_append]
  rfl

/-- The elements of a catalog are those that were registered. -/
theorem elements_after (calls : List Call) : (after calls).elements.toList = registered calls := by
  induction calls using List.reverseRecOn with
  | nil => rfl
  | append_singleton calls call ih =>
      rw [after_concat, Call.elements_perform, ih, registered, registered, List.filterMap_append]
      cases hCall : call.registered? <;> simp [hCall]

/-- The tables that are structurally zero are those that were marked. -/
theorem isZero_after (calls : List Call) {element component : Nat} {derivatives : List Nat} :
    (after calls).isZero element component derivatives ↔
      Marked calls element component derivatives := by
  unfold Marked
  induction calls using List.reverseRecOn with
  | nil => simp [after, isZero]
  | append_singleton calls call ih =>
      rw [after_concat, Call.isZero_perform, ih]
      simp only [List.mem_append, List.mem_singleton, or_and_right, exists_or, exists_eq_left]

theorem element?_after (calls : List Call) (number : Nat) :
    (after calls).element? number = (registered calls)[number]? := by
  rw [element?, ← elements_after, Array.getElem?_toList]

/-! ### Tables -/

variable {catalog other : ElementCatalog}

theorem argument_code_eq_none_iff {argument : Argument} {request : TableRequest} :
    (catalog.tables.argument argument request).code = none ↔
      catalog.isZero argument.element request.component request.derivatives := by
  simp only [tables, ite_eq_left_iff, reduceCtorEq, imp_false, Bool.not_eq_true, Bool.not_eq_false]

theorem coefficient_eq_none_iff {coefficient : Coefficient} {request : TableRequest} :
    catalog.tables.coefficient coefficient request = none ↔
      catalog.isZero coefficient.element request.component request.derivatives := by
  simp only [tables, ite_eq_left_iff, reduceCtorEq, imp_false, Bool.not_eq_true, Bool.not_eq_false]

/-- Catalogs with the same elements and the same structurally zero tables are told apart by
nothing. -/
theorem tables_congr (hElements : other.element? = catalog.element?)
    (hZero : other.isZero = catalog.isZero) : other.tables = catalog.tables := by
  simp only [tables, hElements, hZero]

/-- Elements that are registered later only add places of components. -/
theorem tables_extendedBy
    (hElements : ∀ {number element}, catalog.element? number = some element →
      other.element? number = some element)
    (hZero : other.isZero = catalog.isZero) : catalog.tables.ExtendedBy other.tables where
  locate := by
    intro number component place hPlace
    obtain ⟨element, hElement, hPlace⟩ := Option.bind_eq_some_iff.mp hPlace
    exact Option.bind_eq_some_iff.mpr ⟨element, hElements hElement, hPlace⟩
  argument := by simp only [tables, hZero]
  coefficient := by simp only [tables, hZero]

/-! ### Answers -/

/-- Whether a catalog answers as one with these elements, in this order, and with these
tables marked structurally zero. -/
structure Answers (catalog : ElementCatalog) (elements : List FiniteElement)
    (Zero : Nat → Nat → List Nat → Prop) : Prop where
  /-- The number of the next element. -/
  register : ∀ element, (catalog.register element).2 = elements.length
  element : ∀ number, catalog.element? number = elements[number]?
  isZero : ∀ {element component derivatives},
    catalog.isZero element component derivatives ↔ Zero element component derivatives
  /-- An argument keeps its key. -/
  key : ∀ argument request, (catalog.tables.argument argument request).key = [argument.number]
  argument : ∀ {argument request}, (catalog.tables.argument argument request).code = none ↔
    Zero argument.element request.component request.derivatives
  coefficient : ∀ {coefficient request}, catalog.tables.coefficient coefficient request = none ↔
    Zero coefficient.element request.component request.derivatives

theorem answers_after (calls : List Call) :
    (after calls).Answers (registered calls) (Marked calls) where
  register element := by
    show (after calls).elements.size = _
    rw [← elements_after, Array.length_toList]
  element := element?_after calls
  isZero := isZero_after calls
  key argument request := rfl
  argument := argument_code_eq_none_iff.trans (isZero_after calls)
  coefficient := coefficient_eq_none_iff.trans (isZero_after calls)

/-! ### Histories that agree -/

section Agreement

variable {calls others : List Call}

theorem isZero_congr (hMarked : ∀ element component derivatives,
      Marked others element component derivatives ↔ Marked calls element component derivatives) :
    (after others).isZero = (after calls).isZero := by
  funext element component derivatives
  rw [Bool.eq_iff_iff, isZero_after, isZero_after, hMarked]

/-- Elements that are registered later leave the others under their numbers. -/
theorem element?_of_further (hElements : registered calls <+: registered others) {number : Nat}
    {element : FiniteElement} (hElement : (after calls).element? number = some element) :
    (after others).element? number = some element := by
  obtain ⟨further, hFurther⟩ := hElements
  rw [element?_after] at hElement ⊢
  rw [← hFurther, List.getElem?_append_left (List.getElem?_eq_some_iff.mp hElement).1]
  exact hElement

theorem registered_append (calls later : List Call) :
    registered calls <+: registered (calls ++ later) := by
  rw [registered, registered, List.filterMap_append]
  exact List.prefix_append _ _

theorem tables_eq (hElements : registered others = registered calls)
    (hMarked : ∀ element component derivatives,
      Marked others element component derivatives ↔ Marked calls element component derivatives) :
    (after others).tables = (after calls).tables := by
  refine tables_congr ?_ (isZero_congr hMarked)
  funext number
  rw [element?_after, element?_after, hElements]

theorem tables_extend (hElements : registered calls <+: registered others)
    (hMarked : ∀ element component derivatives,
      Marked others element component derivatives ↔ Marked calls element component derivatives) :
    (after calls).tables.ExtendedBy (after others).tables :=
  tables_extendedBy (element?_of_further hElements) (isZero_congr hMarked)

end Agreement

/-- A catalog answers by the elements that were registered and the tables that were marked,
whenever they were.  Later calls leave an element under its number.  A history with the same
elements and the same tables marked, in any order and any number of times, has the same
elements and tables in the end.  With further elements, whatever lowering succeeded with, it
still succeeds with. -/
theorem histories_answer (calls : List Call) :
    (after calls).Answers (registered calls) (Marked calls) ∧
    (∀ later number element, (after calls).element? number = some element →
      (after (calls ++ later)).element? number = some element) ∧
    ∀ others, (∀ element component derivatives,
        Marked others element component derivatives ↔ Marked calls element component derivatives) →
      (registered others = registered calls →
        (after others).elements = (after calls).elements ∧
        (after others).isZero = (after calls).isZero ∧
        (after others).tables = (after calls).tables) ∧
      (registered calls <+: registered others → ∀ dialect dimensions expr,
        (∀ context names code recorded,
          (Backend.lower ⟨dialect, (after calls).tables, dimensions⟩ expr context).runWith names =
            (.ok code, recorded) →
          (Backend.lower ⟨dialect, (after others).tables, dimensions⟩ expr context).runWith names =
            (.ok code, recorded)) ∧
        ∀ lowered, Backend.run ⟨dialect, (after calls).tables, dimensions⟩ expr = .ok lowered →
          Backend.run ⟨dialect, (after others).tables, dimensions⟩ expr = .ok lowered) := by
  refine ⟨answers_after calls, ?_, fun others hMarked => ⟨fun hElements => ⟨?_, ?_, ?_⟩, ?_⟩⟩
  · intro later number element hElement
    exact element?_of_further (registered_append calls later) hElement
  · rw [← Array.toList_inj, elements_after, elements_after, hElements]
  · exact isZero_congr hMarked
  · exact tables_eq hElements hMarked
  · intro hElements dialect dimensions expr
    have hTables := tables_extend hElements hMarked
    exact ⟨Backend.lower_extends hTables expr, fun lowered hRun => Backend.run_extends hTables hRun⟩

/-- A table that is marked before its element is registered, and an element that comes
later. -/
theorem histories_answer_mark_first :
    let calls : List Call := [.declareZero 0 0 [0, 0], .register (.lagrange 1)]
    let others : List Call :=
      [.register (.lagrange 1), .declareZero 0 0 [], .declareZero 0 0 [0], .register (.lagrange 2)]
    let expr : Expr := .sum [.coefficient ⟨0, 0⟩, .derivative (.coefficient ⟨1, 0⟩) 0]
    let code : TensorCode := .scalar (some "(K_00*F1_C0_D10 + K_10*F1_C0_D01)")
    (∀ element component derivatives,
      Marked others element component derivatives ↔ Marked calls element component derivatives) ∧
    registered calls <+: registered others ∧
    ((after calls).register (.lagrange 2)).2 = 1 ∧
    (after calls).element? 0 = some (.lagrange 1) ∧
    (after calls).tables.coefficient ⟨3, 0⟩ ⟨0, [0], .none⟩ = none ∧
    Backend.run ⟨.cpp none, (after calls).tables, {}⟩ expr = .ok ⟨code, .ofList ["K_00", "K_10"]⟩ ∧
    Backend.run ⟨.cpp none, (after others).tables, {}⟩ expr =
      .ok ⟨code, .ofList ["K_00", "K_10"]⟩ := by
  intro calls others expr code
  have hMarked (element component : Nat) (derivatives : List Nat) :
      Marked others element component derivatives ↔
        Marked calls element component derivatives := by
    have hTwo : canonicalCounts [0, 0] = [] := by decide
    have hOne : canonicalCounts [0] = [] := by decide
    have hNone : canonicalCounts [] = [] := by decide
    simp [Marked, calls, others, ← canonicalCounts_eq_iff, hTwo, hOne, hNone]
  have hPrefix : registered calls <+: registered others := ⟨[.lagrange 2], rfl⟩
  have hMark : Marked calls 0 0 [0] :=
    ⟨_, List.mem_cons_self, [0, 0], rfl, .inr ⟨by decide, by decide⟩⟩
  have hRun : Backend.run ⟨.cpp none, (after calls).tables, {}⟩ expr =
      .ok ⟨code, .ofList ["K_00", "K_10"]⟩ := by decide +kernel
  obtain ⟨hAnswers, -, hHistories⟩ := histories_answer calls
  have hFrame := (hHistories others hMarked).2 hPrefix (.cpp none) {} expr
  exact ⟨hMarked, hPrefix, hAnswers.register _, hAnswers.element 0, hAnswers.coefficient.mpr hMark,
    hRun, hFrame.2 _ hRun⟩

end ElementCatalog

end FormLowering
