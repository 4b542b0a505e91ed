import FormLowering.Proofs.Number.NaturalRanks
import FormLowering.Proofs.Semantics.Choices
import FormLowering.Proofs.Traversal.Nodes
import Mathlib.Data.List.Sort

/-!
# Keys of expressions

Which keys the code of an expression has can be read off the expression: an argument
has its number for its only key, sums unite keys, products concatenate them, and
everything that is no tensor has the empty key.  Which of them are live depends on
the context as well, since tables may be structurally zero and leaves may be
differentiated away.

The keys of an expression are its terms, once it is multiplied out, without the order
of their factors: each lists the numbers of the arguments that are factors of one term.
-/

namespace FormLowering

/-! ### Sorted keys -/

namespace Key

theorem insertIndex_eq_orderedInsert (index : Nat) (key : Key) :
    insertIndex index key = key.orderedInsert (· ≤ ·) index := by
  induction key with
  | nil => rfl
  | cons first rest ih => rw [insertIndex, List.orderedInsert, ih]

theorem sorted_eq_insertionSort (key : Key) : sorted key = key.insertionSort (· ≤ ·) := by
  unfold sorted
  induction key with
  | nil => rfl
  | cons index rest ih =>
      rw [List.foldr_cons, ih, insertIndex_eq_orderedInsert, List.insertionSort_cons]

theorem sorted_perm (key : Key) : (sorted key).Perm key := by
  rw [sorted_eq_insertionSort]
  exact List.perm_insertionSort _ _

theorem pairwise_sorted (key : Key) : (sorted key).Pairwise (· ≤ ·) := by
  rw [sorted_eq_insertionSort]
  exact List.pairwise_insertionSort _ _

/-- Keys with the same indices are sorted alike. -/
theorem sorted_eq_of_perm {left right : Key} (hPerm : left.Perm right) :
    sorted left = sorted right :=
  ((sorted_perm left).trans (hPerm.trans (sorted_perm right).symm)).eq_of_pairwise
    (fun _ _ _ _ => Nat.le_antisymm) (pairwise_sorted left) (pairwise_sorted right)

/-- Sorting parts first makes no difference. -/
theorem sorted_flatten_map (keys : List Key) :
    sorted (keys.map sorted).flatten = sorted keys.flatten := by
  apply sorted_eq_of_perm
  induction keys with
  | nil => exact .refl _
  | cons key rest ih =>
      rw [List.map_cons, List.flatten_cons, List.flatten_cons]
      exact (sorted_perm key).append ih

/-- The union of sets of keys. -/
def unions (sets : List (SortedSet Key)) : SortedSet Key :=
  sets.foldr (· ∪ ·) ∅

theorem mem_unions {sets : List (SortedSet Key)} {key : Key} :
    key ∈ unions sets ↔ ∃ set ∈ sets, key ∈ set := by
  induction sets with
  | nil => simp [unions, SortedSet.not_mem_empty]
  | cons set rest ih =>
      unfold unions at ih ⊢
      rw [List.foldr_cons, SortedSet.mem_union, ih]
      simp

/-- The sorted concatenations of one key of each set. -/
def products (sets : List (SortedSet Key)) : SortedSet Key :=
  .ofList ((choices (sets.map (·.elements))).map fun keys => sorted keys.flatten)

theorem mem_products {sets : List (SortedSet Key)} {key : Key} :
    key ∈ products sets ↔
      ∃ keys, List.Forall₂ (fun (set : SortedSet Key) key => key ∈ set) sets keys ∧
        sorted keys.flatten = key := by
  rw [products, SortedSet.mem_ofList, List.mem_map]
  refine exists_congr fun keys => and_congr_left' ?_
  rw [mem_choices, List.forall₂_map_right_iff]
  exact ⟨List.Forall₂.flip, List.Forall₂.flip⟩

theorem exists_mem_products {sets : List (SortedSet Key)} (hSets : ∀ set ∈ sets, ∃ key, key ∈ set) :
    ∃ key, key ∈ products sets := by
  have hChosen : ∃ keys, List.Forall₂ (fun (set : SortedSet Key) key => key ∈ set) sets keys := by
    induction sets with
    | nil => exact ⟨[], .nil⟩
    | cons set rest ih =>
        rw [List.forall_mem_cons] at hSets
        obtain ⟨⟨key, hKey⟩, hRest⟩ := hSets
        obtain ⟨keys, hKeys⟩ := ih hRest
        exact ⟨key :: keys, .cons hKey hKeys⟩
  obtain ⟨keys, hKeys⟩ := hChosen
  exact ⟨_, mem_products.mpr ⟨keys, hKeys, rfl⟩⟩

/-- The set with a single key. -/
def only (key : Key) : SortedSet Key :=
  .ofList [key]

@[simp]
theorem mem_only {key other : Key} : other ∈ only key ↔ other = key := by
  rw [only, SortedSet.mem_ofList, List.mem_singleton]

end Key

/-! ### Keys -/

namespace Expr

mutual

/-- The keys of an expression. -/
def keys : Expr → SortedSet Key
  | .sum operands => Key.unions (allKeys operands)
  | .product operands => Key.products (allKeys operands)
  | .division operands => (allKeys operands).headD ∅
  | .indexed operand _ => keys operand
  | .restricted operand _ => keys operand
  | .derivative operand _ => keys operand
  | .argument basis => Key.only [basis.number]
  | .power _ _ => Key.only []
  | .abs _ => Key.only []
  | .elementary _ _ => Key.only []
  | .coefficient _ => Key.only []
  | .facetNormal => Key.only []
  | .integer _ => Key.only []
  | .real _ => Key.only []
  | .zero => Key.only []
  | .symbol _ => Key.only []

/-- The keys of each operand. -/
def allKeys : List Expr → List (SortedSet Key)
  | [] => []
  | operand :: rest => keys operand :: allKeys rest

end

mutual

/-- The terms of an expression that is multiplied out, each as the numbers of the
arguments that are its factors. -/
def argumentTerms : Expr → List (List Nat)
  | .sum operands => (allArgumentTerms operands).flatten
  | .product operands => (choices (allArgumentTerms operands)).map List.flatten
  | .division operands => (allArgumentTerms operands).headD []
  | .indexed operand _ => argumentTerms operand
  | .restricted operand _ => argumentTerms operand
  | .derivative operand _ => argumentTerms operand
  | .argument basis => [[basis.number]]
  | .power _ _ => [[]]
  | .abs _ => [[]]
  | .elementary _ _ => [[]]
  | .coefficient _ => [[]]
  | .facetNormal => [[]]
  | .integer _ => [[]]
  | .real _ => [[]]
  | .zero => [[]]
  | .symbol _ => [[]]

/-- The terms of each operand. -/
def allArgumentTerms : List Expr → List (List (List Nat))
  | [] => []
  | operand :: rest => argumentTerms operand :: allArgumentTerms rest

end

theorem allKeys_eq_map (operands : List Expr) : allKeys operands = operands.map keys := by
  induction operands with
  | nil => rfl
  | cons operand rest ih => rw [allKeys, ih, List.map_cons]

theorem allArgumentTerms_eq_map (operands : List Expr) :
    allArgumentTerms operands = operands.map argumentTerms := by
  induction operands with
  | nil => rfl
  | cons operand rest ih => rw [allArgumentTerms, ih, List.map_cons]

/-! ### Keys are terms -/

/-- A choice of keys is a choice of terms. -/
theorem forall₂_keys_iff {operands : List Expr}
    (hKeys : ∀ operand ∈ operands, ∀ {key},
      key ∈ operand.keys ↔ ∃ term ∈ operand.argumentTerms, Key.sorted term = key)
    {chosen : List Key} :
    List.Forall₂ (fun (operand : Expr) key => key ∈ operand.keys) operands chosen ↔
      ∃ terms, List.Forall₂ (fun (operand : Expr) term => term ∈ operand.argumentTerms) operands
        terms ∧ terms.map Key.sorted = chosen := by
  induction operands generalizing chosen with
  | nil => simp [eq_comm]
  | cons operand rest ih =>
      rw [List.forall_mem_cons] at hKeys
      rw [List.forall₂_cons_left_iff]
      constructor
      · rintro ⟨key, keys, hKey, hRest, rfl⟩
        obtain ⟨term, hTerm, rfl⟩ := hKeys.1.mp hKey
        obtain ⟨terms, hTerms, rfl⟩ := (ih hKeys.2).mp hRest
        exact ⟨term :: terms, .cons hTerm hTerms, rfl⟩
      · rintro ⟨_, _ | ⟨hTerm, hTerms⟩, rfl⟩
        exact ⟨_, _, hKeys.1.mpr ⟨_, hTerm, rfl⟩, (ih hKeys.2).mpr ⟨_, hTerms, rfl⟩, rfl⟩

/-- The keys of an expression are its terms, sorted. -/
theorem mem_keys_iff {expr : Expr} {key : Key} :
    key ∈ expr.keys ↔ ∃ term ∈ expr.argumentTerms, Key.sorted term = key := by
  induction expr using node_induction generalizing key with
  | operation operation operands ih =>
      cases operation with
      | sum =>
          show key ∈ Key.unions (allKeys operands) ↔
            ∃ term ∈ (allArgumentTerms operands).flatten, Key.sorted term = key
          simp only [allKeys_eq_map, allArgumentTerms_eq_map, Key.mem_unions, List.mem_map,
            List.mem_flatten, exists_exists_and_eq_and]
          constructor
          · rintro ⟨operand, hOperand, hKey⟩
            obtain ⟨term, hTerm, rfl⟩ := (ih operand hOperand).mp hKey
            exact ⟨term, ⟨operand, hOperand, hTerm⟩, rfl⟩
          · rintro ⟨term, ⟨operand, hOperand, hTerm⟩, rfl⟩
            exact ⟨operand, hOperand, (ih operand hOperand).mpr ⟨term, hTerm, rfl⟩⟩
      | product =>
          show key ∈ Key.products (allKeys operands) ↔
            ∃ term ∈ (choices (allArgumentTerms operands)).map List.flatten, Key.sorted term = key
          simp only [allKeys_eq_map, allArgumentTerms_eq_map, Key.mem_products, List.mem_map,
            mem_choices, List.forall₂_map_left_iff, List.forall₂_map_right_iff,
            forall₂_keys_iff ih, exists_exists_and_eq_and]
          constructor
          · rintro ⟨terms, hTerms, rfl⟩
            exact ⟨terms, hTerms.flip, (Key.sorted_flatten_map terms).symm⟩
          · rintro ⟨terms, hTerms, rfl⟩
            exact ⟨terms, hTerms.flip, Key.sorted_flatten_map terms⟩
      | division =>
          show key ∈ (allKeys operands).headD ∅ ↔
            ∃ term ∈ (allArgumentTerms operands).headD [], Key.sorted term = key
          cases operands with
          | nil => simp [allKeys, allArgumentTerms, SortedSet.not_mem_empty]
          | cons numerator rest => exact ih numerator List.mem_cons_self
      | abs => simp [Operation.node, keys, argumentTerms, Key.sorted, eq_comm]
      | elementary function => simp [Operation.node, keys, argumentTerms, Key.sorted, eq_comm]
  | power base exponent _ _ => simp [keys, argumentTerms, Key.sorted, eq_comm]
  | modifier modifier operand ih => cases modifier <;> exact ih
  | argument basis => simp [keys, argumentTerms, Key.sorted, Key.insertIndex, eq_comm]
  | coefficient field => simp [keys, argumentTerms, Key.sorted, eq_comm]
  | constant leaf => cases leaf <;> simp [Constant.expr, keys, argumentTerms, Key.sorted, eq_comm]

/-- Whether an expression that is a sum has operands. -/
def SumHasOperands : Expr → Prop
  | .sum operands => operands ≠ []
  | _ => True

/-- Whether an expression is no argument. -/
def NoArgument : Expr → Prop
  | .argument _ => False
  | _ => True

theorem eq_nil_of_mem_argumentTerms {expr : Expr} (hExpr : expr.Every NoArgument)
    {term : List Nat} (hTerm : term ∈ expr.argumentTerms) : term = [] := by
  induction expr using node_induction generalizing term with
  | operation operation operands ih =>
      have hOperands := (every_operation.mp hExpr).2
      cases operation with
      | sum =>
          have hMem : term ∈ (allArgumentTerms operands).flatten := hTerm
          rw [allArgumentTerms_eq_map, List.mem_flatten] at hMem
          obtain ⟨_, hTerms, hMem⟩ := hMem
          obtain ⟨operand, hOperand, rfl⟩ := List.mem_map.mp hTerms
          exact ih operand hOperand (hOperands operand hOperand) hMem
      | product =>
          have hMem : term ∈ (choices (allArgumentTerms operands)).map List.flatten := hTerm
          rw [allArgumentTerms_eq_map, List.mem_map] at hMem
          obtain ⟨terms, hTerms, rfl⟩ := hMem
          rw [mem_choices, List.forall₂_map_right_iff] at hTerms
          -- No factor of the term comes from any operand.
          refine List.flatten_eq_nil_iff.mpr fun part hPart => ?_
          obtain ⟨operand, hOperand, hIn⟩ := exists_of_mem_left hTerms hPart
          exact ih operand hOperand (hOperands operand hOperand) hIn
      | division =>
          cases operands with
          | nil => exact absurd hTerm List.not_mem_nil
          | cons numerator rest =>
              exact ih numerator List.mem_cons_self (hOperands numerator List.mem_cons_self) hTerm
      | abs => exact List.mem_singleton.mp hTerm
      | elementary function => exact List.mem_singleton.mp hTerm
  | power base exponent _ _ => exact List.mem_singleton.mp hTerm
  | modifier modifier operand ih =>
      have hOperand := (every_modifier.mp hExpr).2
      cases modifier <;> exact ih hOperand hTerm
  | argument basis => exact absurd hExpr id
  | coefficient field => exact List.mem_singleton.mp hTerm
  | constant leaf => cases leaf <;> exact List.mem_singleton.mp hTerm

/-- Without arguments there is no key but the empty one. -/
theorem eq_nil_of_mem_keys {expr : Expr} (hExpr : expr.Every NoArgument) {key : Key}
    (hKey : key ∈ expr.keys) : key = [] := by
  obtain ⟨term, hTerm, rfl⟩ := mem_keys_iff.mp hKey
  rw [eq_nil_of_mem_argumentTerms hExpr hTerm]
  rfl

end Expr

/-! ### Live keys -/

/-- The set with a key that is live on a condition. -/
def Key.onlyIf (live : Bool) (key : Key) : SortedSet Key :=
  if live then Key.only key else ∅

@[simp]
theorem Key.mem_onlyIf {live : Bool} {key other : Key} :
    other ∈ Key.onlyIf live key ↔ other = key ∧ live := by
  unfold Key.onlyIf
  split <;> simp_all [SortedSet.not_mem_empty]

/-- The tables that lowering asks for at a basis function or a coefficient. -/
def BasisTables.requested (tables : BasisTables) (dimensions : CellDimensions) (element : Nat)
    (table : TableRequest → Entry) (context : LoweringContext) : List Entry :=
  match tables.selected element context with
  | .error _ => []
  | .ok (component, place) =>
    match dimensions.contributors component place with
    | .error _ => []
    | .ok contributors =>
      (Backend.tableOrder (directionTuples dimensions.topological context.derivatives.length)
        contributors).map fun pair => table (dimensions.tableRequest context pair.1 pair.2)

namespace Expr

/-- Whether an expression is a literal that is zero. -/
def isZeroLiteral : Expr → Bool
  | .integer value => value == 0
  | .real value => value.isZero
  | _ => false

variable (tables : BasisTables) (dimensions : CellDimensions)

mutual

/-- The keys of an expression under which there is a token. -/
def liveKeys : Expr → LoweringContext → SortedSet Key
  | .sum operands, context => Key.unions (allLiveKeys operands context)
  | .product operands, context => Key.products (allLiveKeys operands context)
  | .division operands, context => (allLiveKeys operands context).headD ∅
  | .power base exponent, context =>
    Key.onlyIf (decide ([] ∈ liveKeys base context) || exponent.isZeroLiteral) []
  | .abs operands, context => (allLiveKeys operands context).headD ∅
  | .elementary _ _, _ => Key.only []
  | .indexed operand component, context => liveKeys operand (context.select component)
  | .restricted operand restriction, context => liveKeys operand (context.restrict restriction)
  | .derivative operand direction, context => liveKeys operand (context.differentiate direction)
  | .argument basis, context =>
    Key.onlyIf ((tables.requested dimensions basis.element
      (fun request => (tables.argument basis request).code) context).any Option.isSome)
      [basis.number]
  | .coefficient field, context =>
    Key.onlyIf ((tables.requested dimensions field.element (tables.coefficient field)
      context).any Option.isSome) []
  | .facetNormal, context => Key.onlyIf context.derivatives.isEmpty []
  | .integer value, context => Key.onlyIf (context.derivatives.isEmpty && value != 0) []
  | .real value, context => Key.onlyIf (context.derivatives.isEmpty && !value.isZero) []
  | .zero, _ => ∅
  | .symbol _, context => Key.onlyIf context.derivatives.isEmpty []

/-- The live keys of each operand. -/
def allLiveKeys : List Expr → LoweringContext → List (SortedSet Key)
  | [], _ => []
  | operand :: rest, context => liveKeys operand context :: allLiveKeys rest context

end

theorem allLiveKeys_eq_map (operands : List Expr) (context : LoweringContext) :
    allLiveKeys tables dimensions operands context =
      operands.map fun operand => liveKeys tables dimensions operand context := by
  induction operands with
  | nil => rfl
  | cons operand rest ih => rw [allLiveKeys, ih, List.map_cons]

end Expr

end FormLowering
