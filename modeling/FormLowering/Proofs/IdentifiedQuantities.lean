import FormLowering.Proofs.Geometry.RecordedQuantities
import FormLowering.Proofs.Semantics.Conditions
import Mathlib.Data.Set.Card

/-!
# Names identify quantities

What has to be declared is known by its name alone, and a set of names drops a name that it
already has.  The available dialects use the same names, and quantities in the first ten
columns have different names.  So a set that several requests share, in one dialect or in
both, has one element for each quantity that has been recorded.
-/

namespace FormLowering

open LowerM

/-- Whether a set has one name for each of some quantities, and no other names. -/
def Dialect.NamesOnce (dialect : Dialect) (quantities : Set GeometricQuantity)
    (names : GeometryNames) : Prop :=
  Set.BijOn dialect.nameOf quantities {name | name ∈ names}

namespace Dialect.NamesOnce

variable {dialect : Dialect} {quantities added : Set GeometricQuantity}
  {names names' : GeometryNames}

theorem empty : dialect.NamesOnce ∅ ∅ := by
  have hNone : {name : Token | name ∈ (∅ : GeometryNames)} = ∅ :=
    Set.eq_empty_of_forall_notMem fun _ => SortedSet.not_mem_empty
  rw [NamesOnce, hNone]
  exact Set.bijOn_empty _

theorem size_eq (hNames : dialect.NamesOnce quantities names) : names.size = quantities.ncard := by
  have hElements : {name | name ∈ names} = (names.elements.toFinset : Set Token) :=
    Set.ext fun _ => List.mem_toFinset.symm
  rw [hNames.ncard_eq, hElements, Set.ncard_coe_finset,
    List.toFinset_card_of_nodup names.nodup_elements]
  rfl

variable (hAvailable : dialect.Available)

include hAvailable

/-- A quantity is in the set exactly if it has been recorded. -/
theorem mem_iff (hNames : dialect.NamesOnce quantities names)
    (hColumns : ∀ quantity ∈ quantities, quantity.ColumnBelowTen) {quantity : GeometricQuantity}
    (hColumn : quantity.ColumnBelowTen) :
    dialect.nameOf quantity ∈ names ↔ quantity ∈ quantities := by
  refine ⟨fun hMem => ?_, fun hQuantity => hNames.mapsTo hQuantity⟩
  obtain ⟨quantity', hQuantity', hName⟩ := hNames.surjOn hMem
  rw [hAvailable.nameOf_eq] at hName
  rwa [← GeometricQuantity.eq_of_name_eq (hColumns quantity' hQuantity') hColumn hName]

/-- Recording the names of further quantities adds one element for each that is new. -/
theorem extend (hNames : dialect.NamesOnce quantities names)
    (hColumns : ∀ quantity ∈ quantities ∪ added, quantity.ColumnBelowTen)
    (hAdded : ∀ name, name ∈ names' ↔ name ∈ names ∨ ∃ quantity ∈ added, quantity.name = name) :
    dialect.NamesOnce (quantities ∪ added) names' := by
  have hBefore : ∀ name, name ∈ names ↔ ∃ quantity ∈ quantities, quantity.name = name := by
    intro name
    rw [← hAvailable.nameOf_eq]
    exact (Set.ext_iff.mp hNames.image_eq name).symm
  have hImage : GeometricQuantity.name '' (quantities ∪ added) = {name | name ∈ names'} := by
    ext name
    rw [Set.image_union]
    exact ((hAdded name).trans (or_congr_left (hBefore name))).symm
  rw [NamesOnce, hAvailable.nameOf_eq, ← hImage]
  exact (GeometricQuantity.injOn_name.mono hColumns).bijOn_image

/-- Recording a quantity, which may have been recorded before. -/
theorem insert (hNames : dialect.NamesOnce quantities names)
    (hColumns : ∀ quantity ∈ quantities, quantity.ColumnBelowTen) {quantity : GeometricQuantity}
    (hColumn : quantity.ColumnBelowTen) :
    dialect.NamesOnce (Insert.insert quantity quantities)
      (names.insert (dialect.nameOf quantity)) := by
  rw [Set.insert_eq, Set.union_comm]
  refine hNames.extend hAvailable ?_ fun name => ?_
  · rintro other (hOther | rfl)
    · exact hColumns other hOther
    · exact hColumn
  · rw [SortedSet.mem_insert, hAvailable.nameOf_eq, or_comm]
    simp [eq_comm]

/-- Any calls on the set, each in a dialect of its own. -/
theorem runCalls {calls : List LoweringCall} (hNames : dialect.NamesOnce quantities names)
    (hDialects : ∀ call ∈ calls, call.backend.dialect.Available)
    (hColumns : ∀ quantity ∈ quantities ∪ {quantity | ∃ call ∈ calls, call.RefersTo quantity},
      quantity.ColumnBelowTen) :
    dialect.NamesOnce (quantities ∪ {quantity | ∃ call ∈ calls, call.RefersTo quantity})
      (FormLowering.runCalls calls names).2 :=
  hNames.extend hAvailable hColumns fun _ => mem_runCalls_iff_refersTo hDialects

end Dialect.NamesOnce

/-- The available dialects have the same names.  A name tells the family and the side of its
quantity, and the quantity itself if no column of an entry has more than one digit.  Then a set
that has one name for each quantity recorded so far still does after a further quantity is
recorded and after any calls, which may fail and use several dialects. -/
theorem names_identify_quantities {dialect dialect' : Dialect} (hAvailable : dialect.Available)
    (hAvailable' : dialect'.Available) :
    (∀ quantity, dialect.nameOf quantity = dialect'.nameOf quantity) ∧
      (∀ quantity quantity', dialect.nameOf quantity = dialect'.nameOf quantity' →
        quantity.family = quantity'.family ∧ quantity.side = quantity'.side) ∧
      (∀ quantity quantity', quantity.ColumnBelowTen → quantity'.ColumnBelowTen →
        dialect.nameOf quantity = dialect'.nameOf quantity' → quantity = quantity') ∧
      dialect.NamesOnce ∅ ∅ ∧
      ∀ (names : GeometryNames) (before : Set GeometricQuantity),
        dialect.NamesOnce before names → (∀ quantity ∈ before, quantity.ColumnBelowTen) →
          (∀ quantity, quantity.ColumnBelowTen →
            dialect.NamesOnce (insert quantity before)
              ((LowerM.record (dialect'.nameOf quantity)).runWith names).2) ∧
          ∀ calls : List LoweringCall, (∀ call ∈ calls, call.backend.dialect.Available) →
            (∀ call ∈ calls, ∀ quantity, call.RefersTo quantity → quantity.ColumnBelowTen) →
              let quantities := before ∪ {quantity | ∃ call ∈ calls, call.RefersTo quantity}
              let recorded := (runCalls calls names).2
              dialect.NamesOnce quantities recorded ∧ recorded.size = quantities.ncard ∧
                ∀ quantity, quantity.ColumnBelowTen →
                  (dialect.nameOf quantity ∈ recorded ↔ quantity ∈ quantities) := by
  have hSame : dialect'.nameOf = dialect.nameOf := by
    rw [hAvailable.nameOf_eq, hAvailable'.nameOf_eq]
  rw [hSame]
  refine ⟨fun _ => rfl, fun quantity quantity' hName => ?_,
    fun quantity quantity' hColumn hColumn' hName => ?_, .empty,
    fun names before hNames hBefore => ⟨fun quantity hColumn => ?_,
      fun calls hDialects hCalls => ?_⟩⟩
  · rw [hAvailable.nameOf_eq] at hName
    obtain ⟨hFamily, hSide, -⟩ := GeometricQuantity.name_eq_iff.mp hName
    exact ⟨hFamily, hSide⟩
  · rw [hAvailable.nameOf_eq] at hName
    exact GeometricQuantity.eq_of_name_eq hColumn hColumn' hName
  · rw [runWith_record]
    exact hNames.insert hAvailable hBefore hColumn
  · intro quantities recorded
    have hColumns : ∀ quantity ∈ quantities, quantity.ColumnBelowTen := by
      rintro quantity (hQuantity | ⟨call, hCall, hRefers⟩)
      · exact hBefore quantity hQuantity
      · exact hCalls call hCall quantity hRefers
    have hRecorded : dialect.NamesOnce quantities recorded :=
      hNames.runCalls hAvailable hDialects hColumns
    exact ⟨hRecorded, hRecorded.size_eq, fun quantity => hRecorded.mem_iff hAvailable hColumns⟩

/-- A normal component is recorded.  On the same set, the derivative of a contravariant
component is lowered to C++ twice and another normal component to nested calls.  There is one
name for each of the seven quantities, and none for an entry that the derivative does not have.
Three digits behind the underscore are those of row 12 and column 3. -/
theorem names_identify_quantities_shared_set :
    let field : LoweringCall :=
      ⟨cppBackend ⟨#[.raviartThomas 1 2], []⟩ {}, .expression (.coefficient ⟨0, 0⟩)
        { restriction := .negative, component := [1], derivatives := [0] }⟩
    let normal : LoweringCall := ⟨callsBackend {} {}, .facetNormal { component := [0] }⟩
    let names := ((LowerM.record (Dialect.calls.nameOf (.normal .none 12))).runWith ∅).2
    let quantities := {.normal .none 12} ∪
      {quantity | ∃ call ∈ [field, normal, field], call.RefersTo quantity}
    let recorded := (runCalls [field, normal, field] names).2
    recorded = .ofList ["J1_01", "J1_11", "K1_00", "K1_10", "detJ1", "n_0", "n_12"] ∧
      (Dialect.cpp none).NamesOnce quantities recorded ∧ quantities.ncard = 7 ∧
        GeometricQuantity.entry .inverse 0 1 .negative ∉ quantities ∧
          ∀ quantity : GeometricQuantity, quantity.ColumnBelowTen →
            (Dialect.cpp none).nameOf quantity = "K0_123" →
              quantity = .entry .inverse 12 3 .positive := by
  intro field normal names quantities recorded
  obtain ⟨-, -, hIdentified, hEmpty, hShared⟩ :=
    names_identify_quantities (.cpp none) .calls
  have hNames : (Dialect.cpp none).NamesOnce (insert (.normal .none 12) ∅) names :=
    (hShared ∅ ∅ hEmpty fun _ hQuantity => hQuantity.elim).1 _ trivial
  rw [insert_empty_eq] at hNames
  have hBefore : ∀ quantity ∈ ({.normal .none 12} : Set GeometricQuantity),
      quantity.ColumnBelowTen := by
    rintro _ rfl
    exact trivial
  have hDialects : ∀ call ∈ [field, normal, field], call.backend.dialect.Available := by
    rw [List.forall_mem_cons, List.forall_mem_cons, List.forall_mem_singleton]
    exact ⟨.cpp none, .calls, .cpp none⟩
  have hColumns : ∀ quantity ∈ field.backend.leafQuantities
      { restriction := .negative, component := [1], derivatives := [0] } (.coefficient ⟨0, 0⟩),
        quantity.ColumnBelowTen := by
    decide +kernel
  have hField : ∀ quantity, field.RefersTo quantity → quantity.ColumnBelowTen :=
    fun quantity hRefers => hColumns quantity ((Backend.refersTo_leaf rfl).mp hRefers)
  have hNormal : ∀ quantity, normal.RefersTo quantity → quantity.ColumnBelowTen := by
    intro quantity hRefers
    rw [List.mem_singleton.mp hRefers]
    exact trivial
  have hCalls : ∀ call ∈ [field, normal, field], ∀ quantity, call.RefersTo quantity →
      quantity.ColumnBelowTen := by
    rw [List.forall_mem_cons, List.forall_mem_cons, List.forall_mem_singleton]
    exact ⟨hField, hNormal, hField⟩
  obtain ⟨hOnce, hSize, hMem⟩ := (hShared names _ hNames hBefore).2 _ hDialects hCalls
  have hRecorded :
      recorded = .ofList ["J1_01", "J1_11", "K1_00", "K1_10", "detJ1", "n_0", "n_12"] := by
    decide +kernel
  refine ⟨hRecorded, hOnce, ?_, fun hQuantity => ?_, fun quantity hColumn hName => ?_⟩
  · have hSeven : recorded.size = 7 := by decide +kernel
    exact hSize.symm.trans hSeven
  · have hListed : "K1_01" ∈ recorded := (hMem _ (by decide)).mpr hQuantity
    rw [hRecorded] at hListed
    exact absurd hListed (by decide)
  · exact hIdentified _ _ hColumn (by decide) (hName.trans (by decide))

end FormLowering
