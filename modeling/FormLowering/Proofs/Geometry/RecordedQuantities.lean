import FormLowering.Proofs.Declarations
import FormLowering.Proofs.Geometry.Quantities
import FormLowering.Proofs.SharedNames

/-!
# Quantities that requests refer to

A request refers to the quantities in the factors of the tables that it asks for, unless
such a table is structurally zero, and to the components of the facet normal.  An expression
refers to what its leaves do, as far as they are evaluated.

The names that a request records are the names of these quantities, whatever the tokens of
the tables are and whether or not the request fails.
-/

namespace FormLowering

open LowerM

/-! ### Quantities of a request -/

/-- The quantities in the factor of a pullback. -/
def Pullback.quantities (component : Nat) (side : Restriction) :
    Pullback → List GeometricQuantity
  | .identity => []
  | .covariant direction => [.entry .inverse direction component side]
  | .contravariant direction =>
    [.determinant side, .entry .jacobian direction component side]

/-- The quantities in the factors of the chain rule. -/
def chainRuleQuantities (directions tuple : List Nat) (side : Restriction) :
    List GeometricQuantity :=
  (directions.zip tuple).map fun pair => .entry .inverse pair.2 pair.1 side

/-- The quantities in the factors that a table is multiplied with. -/
def factorQuantities (place : ComponentPlace) (context : LoweringContext)
    (pair : List Nat × Contributor) : List GeometricQuantity :=
  pair.2.pullback.quantities place.component context.restriction ++
    chainRuleQuantities context.derivatives pair.1 context.restriction

namespace Backend

/-- The quantities in the code of a basis: those of the tables that are asked for and are
not structurally zero. -/
def basisQuantities (backend : Backend) (table : TableRequest → Entry) (component : Nat)
    (place : ComponentPlace) (tuples : List (List Nat)) (context : LoweringContext) :
    List GeometricQuantity :=
  match backend.dimensions.contributors component place with
  | .error _ => []
  | .ok contributors =>
    (tableOrder tuples contributors).flatMap fun pair =>
      (table (backend.dimensions.tableRequest context pair.1 pair.2)).toList.flatMap fun _ =>
        factorQuantities place context pair

/-- The quantities in the code of the component of an element that the context selects. -/
def elementQuantities (backend : Backend) (element : Nat) (table : TableRequest → Entry)
    (context : LoweringContext) : List GeometricQuantity :=
  match backend.elements.selected element context with
  | .error _ => []
  | .ok (component, place) =>
    backend.basisQuantities table component place
      (directionTuples backend.dimensions.topological context.derivatives.length) context

/-- The component of the facet normal that the context selects. -/
def normalQuantities (context : LoweringContext) : List GeometricQuantity :=
  match context.component with
  | [component] => [.normal context.restriction component]
  | _ => []

/-- The table of an argument, without its key. -/
def argumentTable (backend : Backend) (argument : Argument) (request : TableRequest) : Entry :=
  (backend.elements.argument argument request).code

/-- The quantities in the code of a leaf. -/
def leafQuantities (backend : Backend) (context : LoweringContext) :
    Expr → List GeometricQuantity
  | .argument basis =>
    backend.elementQuantities basis.element (backend.argumentTable basis) context
  | .coefficient field =>
    backend.elementQuantities field.element (backend.elements.coefficient field) context
  | .facetNormal => if context.derivatives.isEmpty then normalQuantities context else []
  | _ => []

/-- Whether one of the leaves that are evaluated with an expression refers to a quantity. -/
def RefersTo (backend : Backend) (expr : Expr) (context : LoweringContext)
    (quantity : GeometricQuantity) : Prop :=
  ∃ leaf inner, backend.Evaluates expr context leaf inner ∧
    quantity ∈ backend.leafQuantities inner leaf

end Backend

/-- Whether a request refers to a quantity. -/
def LoweringRequest.RefersTo (backend : Backend) (quantity : GeometricQuantity) :
    LoweringRequest → Prop
  | .expression expr context => backend.RefersTo expr context quantity
  | .power base exponent context => backend.RefersTo (.power base exponent) context quantity
  | .facetNormal context => quantity ∈ Backend.normalQuantities context
  | .argument basis component place tuples context =>
    quantity ∈ backend.basisQuantities (backend.argumentTable basis) component place tuples context
  | .coefficient field component place tuples context =>
    quantity ∈ backend.basisQuantities (backend.elements.coefficient field) component place tuples
      context

/-- Whether a call refers to a quantity. -/
def LoweringCall.RefersTo (call : LoweringCall) (quantity : GeometricQuantity) : Prop :=
  call.request.RefersTo call.backend quantity

/-! ### Tables -/

namespace Backend

section Tables

variable {backend : Backend} {component : Nat} {place : ComponentPlace} {tuples : List (List Nat)}
  {context : LoweringContext} {name : Token}

/-- The tables of all contributors are asked for, unless the mapping has none. -/
theorem records_tables {β γ : Type} {table : TableRequest → Entry}
    (contribution : List Nat × Contributor → LowerM β) (combine : List β → γ)
    (hContribution : ∀ pair, Completes (contribution pair) (fun _ => True)
      (((table (backend.dimensions.tableRequest context pair.1 pair.2)).toList.flatMap fun _ =>
        factorQuantities place context pair).map GeometricQuantity.name)) :
    LowerM.Records (do
      let contributors ← LowerM.ofExcept (backend.dimensions.contributors component place)
      let contributions ← (tableOrder tuples contributors).mapM contribution
      return combine contributions) name ↔
        name ∈ (backend.basisQuantities table component place tuples context).map
          GeometricQuantity.name := by
  unfold basisQuantities
  cases backend.dimensions.contributors component place with
  | error fault => exact iff_of_false (((Fails.throw _).bind _).not_records name) List.not_mem_nil
  | ok contributors =>
      have hTables : Completes ((tableOrder tuples contributors).mapM contribution >>=
          fun contributions => pure (combine contributions)) (fun _ => True)
            ((tableOrder tuples contributors).flatMap _) :=
        (Completes.mapM_names fun pair _ => hContribution pair).bind_pure fun _ _ => trivial
      rw [List.map_flatMap]
      exact hTables.records_iff

variable (hAvailable : backend.dialect.Available)

include hAvailable

theorem applyPullback_records (pullback : Pullback) (component : Nat) (side : Restriction)
    (basis : Token) :
    Completes (backend.applyPullback pullback component side basis) (fun _ => True)
      ((pullback.quantities component side).map GeometricQuantity.name) := by
  unfold applyPullback
  simp only [hAvailable.jacobian_eq, hAvailable.determinant_eq]
  cases pullback with
  | identity => exact .pure trivial
  | covariant direction => exact .record_bind (.pure trivial)
  | contravariant direction => exact .record_bind (.record_bind (.pure trivial))

theorem chainRule_records (basis : Option Token) (directions tuple : List Nat)
    (side : Restriction) :
    Completes (backend.chainRule basis directions tuple side) (fun _ => True)
      ((chainRuleQuantities directions tuple side).map GeometricQuantity.name) := by
  unfold chainRule
  rw [chainRuleQuantities, List.map_map, List.map_eq_flatMap, hAvailable.jacobian_eq]
  exact (Completes.mapM_names fun _ _ => .record trivial).bind_pure fun _ _ => trivial

theorem basisTerms_records (place : ComponentPlace) (context : LoweringContext)
    (pair : List Nat × Contributor) (table : Entry) :
    Completes (backend.basisTerms place context pair.1 pair.2 table) (fun _ => True)
      ((table.toList.flatMap fun _ => factorQuantities place context pair).map
        GeometricQuantity.name) := by
  unfold basisTerms
  rw [List.map_flatMap]
  refine .mapM_names fun basis _ => ?_
  rw [factorQuantities, List.map_append]
  exact (applyPullback_records hAvailable _ _ _ basis).bind fun pulled _ =>
    chainRule_records hAvailable (some pulled) _ _ _

theorem records_argumentCode {argument : Argument} :
    (backend.argumentCode argument component place tuples context).Records name ↔
      name ∈ (backend.basisQuantities (backend.argumentTable argument) component place tuples
        context).map GeometricQuantity.name :=
  records_tables _ _ fun pair =>
    (basisTerms_records hAvailable place context pair _).bind_pure fun _ _ => trivial

theorem records_coefficientCode {coefficient : Coefficient} :
    (backend.coefficientCode coefficient component place tuples context).Records name ↔
      name ∈ (backend.basisQuantities (backend.elements.coefficient coefficient) component place
        tuples context).map GeometricQuantity.name :=
  records_tables _ _ fun pair => basisTerms_records hAvailable place context pair _

theorem records_normalCode :
    (backend.normalCode context).Records name ↔
      name ∈ (normalQuantities context).map GeometricQuantity.name := by
  unfold normalCode normalQuantities
  rw [hAvailable.normal_eq]
  match context.component with
  | [] => exact iff_of_false ((Fails.throw _).not_records name) List.not_mem_nil
  | [component] =>
    have hComponent : Completes (LowerM.record (normalName context.restriction component) >>=
        fun token => pure (TensorCode.scalar (some token))) (fun _ => True)
          [normalName context.restriction component] := .record_bind (.pure trivial)
    exact hComponent.records_iff
  | _ :: _ :: _ => exact iff_of_false ((Fails.throw _).not_records name) List.not_mem_nil

end Tables

end Backend

/-! ### Leaves and expressions -/

namespace Backend

variable {backend : Backend} {context : LoweringContext} {name : Token}

/-- What is done with the component of an element that the context selects. -/
theorem records_element {element : Nat} {table : TableRequest → Entry}
    (next : Nat → ComponentPlace → LowerM TensorCode)
    (hNext : ∀ component place, (next component place).Records name ↔
      name ∈ (backend.basisQuantities table component place
        (directionTuples backend.dimensions.topological context.derivatives.length) context).map
          GeometricQuantity.name) :
    LowerM.Records (do
      let (component, place) ← LowerM.ofExcept (backend.elements.selected element context)
      next component place) name ↔
        name ∈ (backend.elementQuantities element table context).map GeometricQuantity.name := by
  unfold elementQuantities
  cases backend.elements.selected element context with
  | error fault => exact iff_of_false (((Fails.throw _).bind _).not_records name) List.not_mem_nil
  | ok found => exact hNext found.1 found.2

variable (hAvailable : backend.dialect.Available)

include hAvailable

/-- A leaf records the names of the quantities in its code. -/
theorem records_leaf {leaf : Expr} (hLeaf : leaf.refersToGeometry = true) :
    (backend.lower leaf context).Records name ↔
      name ∈ (backend.leafQuantities context leaf).map GeometricQuantity.name := by
  cases leaf with
  | argument basis =>
      rw [lower, records_within]
      exact records_element (fun component place => backend.argumentCode basis component place _ _)
        fun _ _ => records_argumentCode hAvailable
  | coefficient field =>
      rw [lower, records_within]
      refine records_element (fun component place => do
        return .scalar (← backend.coefficientCode field component place _ _)) fun _ _ => ?_
      exact ((backend.coefficientCode_writeOnly _ _ _ _ _).records_bind_pure _).trans
        (records_coefficientCode hAvailable)
  | facetNormal =>
      rw [lower, records_within, constantLeaf, leafQuantities]
      split
      · exact records_normalCode hAvailable
      · exact iff_of_false not_records_pure List.not_mem_nil
  | _ => contradiction

/-- An expression records the names of the quantities that it refers to. -/
theorem records_iff_refersTo {expr : Expr} :
    (backend.lower expr context).Records name ↔
      ∃ quantity, backend.RefersTo expr context quantity ∧ quantity.name = name := by
  constructor
  · intro hRecords
    obtain ⟨leaf, inner, hLeaf, hGeometry, hOwn⟩ := exists_leaf_of_records hRecords
    obtain ⟨quantity, hQuantity, hName⟩ :=
      List.mem_map.mp ((records_leaf hAvailable hGeometry).mp hOwn)
    exact ⟨quantity, ⟨leaf, inner, hLeaf, hQuantity⟩, hName⟩
  · rintro ⟨quantity, ⟨leaf, inner, hLeaf, hQuantity⟩, hName⟩
    have hGeometry : leaf.refersToGeometry = true := by
      cases leaf <;> first | rfl | exact absurd hQuantity List.not_mem_nil
    exact hLeaf.records
      ((records_leaf hAvailable hGeometry).mpr (List.mem_map.mpr ⟨quantity, hQuantity, hName⟩))

omit hAvailable

/-- A leaf evaluates nothing but itself. -/
theorem refersTo_leaf {leaf : Expr} (hLeaf : leaf.refersToGeometry = true)
    {quantity : GeometricQuantity} :
    backend.RefersTo leaf context quantity ↔ quantity ∈ backend.leafQuantities context leaf := by
  constructor
  · rintro ⟨part, inner, hPart, hQuantity⟩
    cases hPart with
    | self expr context => exact hQuantity
    | @operand operation => cases operation <;> contradiction
    | base => contradiction
    | exponent => contradiction
    | @modified modifier => cases modifier <;> contradiction
  · intro hQuantity
    exact ⟨leaf, context, .self leaf context, hQuantity⟩

end Backend

/-! ### Requests -/

/-- A request records the names of the quantities that it refers to. -/
theorem LoweringRequest.records_answer {backend : Backend} (hAvailable : backend.dialect.Available)
    (request : LoweringRequest) {name : Token} :
    (request.answer backend).Records name ↔
      ∃ quantity, request.RefersTo backend quantity ∧ quantity.name = name := by
  cases request with
  | expression expr context =>
      exact ((backend.lower_writeOnly expr context).records_bind_pure _).trans
        (Backend.records_iff_refersTo hAvailable)
  | power base exponent context =>
      have hNode : (backend.lower (.power base exponent) context).Records name ↔
          (backend.lowerPower base exponent context).Records name := by
        rw [backend.lower_power, records_within]
      exact ((backend.lowerPower_writeOnly base exponent context).records_bind_pure _).trans
        (hNode.symm.trans (Backend.records_iff_refersTo hAvailable))
  | facetNormal context =>
      exact ((backend.normalCode_writeOnly context).records_bind_pure _).trans
        ((Backend.records_normalCode hAvailable).trans List.mem_map)
  | argument basis component place tuples context =>
      exact ((backend.argumentCode_writeOnly _ _ _ _ _).records_bind_pure _).trans
        ((Backend.records_argumentCode hAvailable).trans List.mem_map)
  | coefficient field component place tuples context =>
      exact ((backend.coefficientCode_writeOnly _ _ _ _ _).records_bind_pure _).trans
        ((Backend.records_coefficientCode hAvailable).trans List.mem_map)

/-- The names that calls leave on a set, in terms of the quantities that they refer to. -/
theorem mem_runCalls_iff_refersTo {calls : List LoweringCall} {names : GeometryNames}
    (hAvailable : ∀ call ∈ calls, call.backend.dialect.Available) {name : Token} :
    name ∈ (runCalls calls names).2 ↔
      name ∈ names ∨ ∃ quantity, (∃ call ∈ calls, call.RefersTo quantity) ∧
        quantity.name = name := by
  rw [mem_runCalls]
  refine or_congr_right ⟨?_, ?_⟩
  · rintro ⟨call, hCall, hName⟩
    obtain ⟨quantity, hRefers, hQuantity⟩ :=
      (call.request.records_answer (hAvailable call hCall)).mp hName
    exact ⟨quantity, ⟨call, hCall, hRefers⟩, hQuantity⟩
  · rintro ⟨quantity, ⟨call, hCall, hRefers⟩, hQuantity⟩
    exact ⟨call, hCall,
      (call.request.records_answer (hAvailable call hCall)).mpr ⟨quantity, hRefers, hQuantity⟩⟩

end FormLowering
