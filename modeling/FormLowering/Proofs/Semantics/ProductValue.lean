import FormLowering.Proofs.Semantics.Choices
import FormLowering.Proofs.Semantics.ValueAt
import Mathlib.Algebra.BigOperators.Finprod
import Mathlib.Tactic.Ring

/-!
# Products as sums over choices of keys

A product of functions of the key adds up, under each key, the products of the
values under every choice of one key for each factor whose concatenation,
sorted, is that key (`productAt`).  The code forms only choices of keys that are
present, and only among the factors that are not scalar.  Both leave out nothing
but zeros.
-/

namespace FormLowering

/-! ### Setting scalars aside -/

/-- A map that has keys is a scalar or a tensor. -/
theorem SortedMap.scalar_or_tensor {β : Type} {operand : SortedMap Key β}
    (hNonempty : operand.entries ≠ []) :
    (operand.isTensor = true ∧ operand.asScalar? = none) ∨
      ∃ entry, operand.isTensor = false ∧ operand.asScalar? = some entry ∧
        operand.entries = [([], entry)] := by
  unfold isTensor asScalar?
  match operand.entries, hNonempty with
  | [([], entry)], _ => exact .inr ⟨entry, rfl, rfl, rfl⟩
  | [(_ :: _, _)], _ => exact .inl ⟨rfl, rfl⟩
  | (key, _) :: _ :: _, _ =>
    cases key <;> exact .inl ⟨rfl, rfl⟩

namespace TensorValue

variable {V : Type} [CommSemiring V]

/-- A sum over the choices of one entry of each operand, of a weight that depends
on the concatenated keys and the product of the values. -/
def choiceSum (operands : List (TensorValue V)) (weight : Key → V → V) : V :=
  ((choices (operands.map (·.entries))).map fun chosen =>
    weight (chosen.flatMap Prod.fst) (chosen.map fun entry => entry.2.getD 0).prod).sum

theorem choiceSum_nil (weight : Key → V → V) : choiceSum [] weight = weight [] 1 := by
  simp [choiceSum, choices]

theorem choiceSum_cons (operand : TensorValue V) (rest : List (TensorValue V))
    (weight : Key → V → V) :
    choiceSum (operand :: rest) weight =
      (operand.entries.map fun entry =>
        choiceSum rest fun key value => weight (entry.1 ++ key) (entry.2.getD 0 * value)).sum := by
  unfold choiceSum
  rw [List.map_cons, choices]
  induction operand.entries with
  | nil => rfl
  | cons entry entries ih =>
      rw [List.flatMap_cons, List.map_append, List.sum_append, ih, List.map_cons, List.sum_cons,
        List.map_map]
      rfl

/-- Choices among all operands are choices among the tensors, times the scalars. -/
theorem choiceSum_tensors {operands : List (TensorValue V)}
    (hNonempty : ∀ operand ∈ operands, operand.entries ≠ []) (weight : Key → V → V) :
    choiceSum operands weight =
      choiceSum (operands.filter SortedMap.isTensor) fun key value =>
        weight key
          (value * ((operands.filterMap SortedMap.asScalar?).map (·.getD 0)).prod) := by
  induction operands generalizing weight with
  | nil => simp [choiceSum_nil]
  | cons operand rest ih =>
      have hRest := ih fun other hMem => hNonempty other (List.mem_cons_of_mem _ hMem)
      rcases SortedMap.scalar_or_tensor (hNonempty operand List.mem_cons_self) with
        ⟨hTensor, hScalar⟩ | ⟨entry, hTensor, hScalar, hEntries⟩
      · -- A tensor stays among the choices.
        rw [List.filter_cons_of_pos hTensor, List.filterMap_cons_none hScalar, choiceSum_cons,
          choiceSum_cons]
        congr 1
        refine List.map_congr_left fun entry _ => ?_
        rw [hRest]
        simp only [mul_assoc]
      · -- A scalar has one entry, under the empty key, and can be taken out.
        have hFalse : ¬operand.isTensor = true := by simp [hTensor]
        rw [List.filter_cons_of_neg hFalse, List.filterMap_cons_some hScalar, choiceSum_cons,
          hEntries, List.map_singleton, List.sum_singleton, hRest, List.map_cons, List.prod_cons]
        simp only [List.nil_append, mul_left_comm]

theorem getD_productEntry (factors : List (Option V)) :
    (productEntry factors).getD 0 = (factors.map (·.getD 0)).prod := by
  induction factors with
  | nil => rfl
  | cons factor rest ih =>
      cases factor with
      | none => simp [productEntry]
      | some value =>
          rw [productEntry, List.map_cons, List.prod_cons, ← ih]
          cases productEntry rest <;> simp

/-- The value of a product under a key, as a sum over the choices of entries. -/
theorem valueAt_product {operands : List (TensorValue V)}
    (hNonempty : ∀ operand ∈ operands, operand.entries ≠ []) (key : Key) :
    (product operands).valueAt key =
      choiceSum operands fun chosen value => if Key.sorted chosen = key then value else 0 := by
  rw [choiceSum_tensors hNonempty]
  simp only [product]
  generalize operands.filterMap SortedMap.asScalar? = scalars
  generalize operands.filter SortedMap.isTensor = tensors
  split
  · rename_i hNone
    rw [List.isEmpty_iff.mp hNone, choiceSum_nil, valueAt_scalar, getD_productEntry, one_mul]
    have hSorted : Key.sorted [] = [] := rfl
    rw [hSorted]
    simp only [eq_comm]
  · rename_i hSome
    rw [valueAt_gather]
    unfold productContributions entryChoices choiceSum
    rw [if_neg hSome, List.map_map, List.map_map]
    congr 1
    refine List.map_congr_left fun chosen _ => ?_
    simp only [Function.comp_apply, sum_toList, getD_productEntry, List.map_append, List.prod_append,
      List.map_map]
    rfl

/-! ### Choices of keys -/

/-- The choices of one key for each of several factors whose concatenation,
sorted, is the given key. -/
def keyChoices (count : Nat) (key : Key) : Set (List Key) :=
  {keys | keys.length = count ∧ Key.sorted keys.flatten = key}

/-- The product of functions of the key. -/
noncomputable def productAt (factors : List (Key → V)) (key : Key) : V :=
  ∑ᶠ keys ∈ keyChoices factors.length key,
    (List.zipWith (fun factor chosen => factor chosen) factors keys).prod

theorem valueAt_of_mem {operand : TensorValue V} {key : Key} {entry : Option V}
    (hMem : (key, entry) ∈ operand.entries) : operand.valueAt key = entry.getD 0 := by
  have hGet : operand.get? key = some entry := SortedMap.get?_of_mem hMem
  rw [valueAt, hGet]
  rfl

theorem mem_keys_of_valueAt_ne_zero {operand : TensorValue V} {key : Key}
    (hValue : operand.valueAt key ≠ 0) : key ∈ operand.keys := by
  by_contra hAbsent
  apply hValue
  rw [valueAt_eq_sum]
  apply List.sum_eq_zero
  intro value hMem
  obtain ⟨entry, hEntry, rfl⟩ := List.mem_map.mp hMem
  have hKey : entry.1 ≠ key := by
    rintro rfl
    exact hAbsent (List.mem_map_of_mem hEntry)
  rw [entryAt, if_neg hKey]

/-- The product of chosen entries is the product of the values under their keys. -/
theorem prod_chosen {operands : List (TensorValue V)} {chosen : List (Key × Option V)}
    (hChosen : List.Forall₂ (· ∈ ·) chosen (operands.map (·.entries))) :
    (chosen.map fun entry => entry.2.getD 0).prod =
      (List.zipWith (fun factor key => factor key) (operands.map valueAt)
        (chosen.map Prod.fst)).prod := by
  induction operands generalizing chosen with
  | nil =>
      cases hChosen
      rfl
  | cons operand rest ih =>
      rw [List.map_cons] at hChosen
      cases hChosen with
      | cons hEntry hRest =>
          rw [List.map_cons, List.prod_cons, ih hRest, List.map_cons, List.map_cons,
            List.zipWith_cons_cons, List.prod_cons, valueAt_of_mem hEntry]

/-- A choice of keys with a nonzero product is a choice of present keys. -/
theorem forall₂_mem_keys {operands : List (TensorValue V)} {keys : List Key}
    (hLength : keys.length = operands.length)
    (hProduct : (List.zipWith (fun factor key => factor key) (operands.map valueAt) keys).prod ≠ 0) :
    List.Forall₂ (· ∈ ·) keys (operands.map SortedMap.keys) := by
  induction operands generalizing keys with
  | nil =>
      rw [List.length_nil, List.length_eq_zero_iff] at hLength
      subst hLength
      exact .nil
  | cons operand rest ih =>
      cases keys with
      | nil => simp at hLength
      | cons key keys =>
          rw [List.map_cons, List.zipWith_cons_cons, List.prod_cons] at hProduct
          refine .cons (mem_keys_of_valueAt_ne_zero (left_ne_zero_of_mul hProduct)) ?_
          exact ih (Nat.succ.inj hLength) (right_ne_zero_of_mul hProduct)

/-- Choices of entries are as good as all choices of keys. -/
theorem choiceSum_eq_productAt (operands : List (TensorValue V)) (key : Key) :
    choiceSum operands (fun chosen value => if Key.sorted chosen = key then value else 0) =
      productAt (operands.map valueAt) key := by
  have hKeys : (operands.map (·.entries)).map (List.map Prod.fst) =
      operands.map SortedMap.keys := by
    rw [List.map_map]
    rfl
  have hNodup : (choices (operands.map SortedMap.keys)).Nodup := by
    refine nodup_choices fun keys hMem => ?_
    obtain ⟨operand, -, rfl⟩ := List.mem_map.mp hMem
    exact operand.nodup_keys
  -- What a choice of keys adds under the given key.
  let weight (keys : List Key) : V :=
    if Key.sorted keys.flatten = key then
      (List.zipWith (fun factor chosen => factor chosen) (operands.map valueAt) keys).prod
    else 0
  have hChosen : ∀ chosen ∈ choices (operands.map (·.entries)),
      (if Key.sorted (chosen.flatMap Prod.fst) = key then
        (chosen.map fun entry => entry.2.getD 0).prod else 0) = weight (chosen.map Prod.fst) := by
    intro chosen hMem
    rw [prod_chosen (mem_choices.mp hMem), List.flatMap_def]
  calc choiceSum operands (fun chosen value => if Key.sorted chosen = key then value else 0)
      = ((choices (operands.map SortedMap.keys)).map weight).sum := by
        rw [← hKeys, map_choices, List.map_map, choiceSum, List.map_congr_left hChosen]
        rfl
    _ = ∑ keys ∈ (choices (operands.map SortedMap.keys)).toFinset, weight keys :=
        (List.sum_toFinset weight hNodup).symm
    _ = productAt (operands.map valueAt) key := by
        rw [productAt, finsum_mem_def, finsum_eq_sum_of_support_subset]
        · refine Finset.sum_congr rfl fun keys hMem => ?_
          have hLength : keys.length = operands.length := by
            have hForall := mem_choices.mp (List.mem_toFinset.mp hMem)
            rw [hForall.length_eq, List.length_map]
          simp only [weight, keyChoices, Set.indicator, Set.mem_ofPred_eq, List.length_map, hLength,
            true_and]
        · -- Choices with absent keys add nothing.
          intro keys hSupport
          have hMem : keys ∈ keyChoices (operands.map valueAt).length key :=
            Set.mem_of_indicator_ne_zero hSupport
          rw [Function.mem_support, Set.indicator_of_mem hMem] at hSupport
          rw [List.coe_toFinset]
          exact mem_choices.mpr (forall₂_mem_keys (by simpa using hMem.1) hSupport)

end TensorValue

end FormLowering
