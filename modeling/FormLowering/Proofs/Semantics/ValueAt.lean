import FormLowering.Proofs.Semantics.Evaluation
import Mathlib.Algebra.BigOperators.Ring.List

/-!
# Tensor values as functions of the key

Read as a function, a tensor value is zero under absent keys and symbolic zeros.
Sums are then pointwise, and a product under a key adds up the choices of one
entry of each factor whose keys make that key.  Scalar factors are set aside by
the code, which changes neither the choices nor their products.
-/

namespace FormLowering

theorem SortedMap.gather_ne_nil {β : Type} {contributions : List (Key × List β)}
    (hSome : contributions ≠ []) : (gather contributions).entries ≠ [] := by
  obtain ⟨entry, rest, rfl⟩ := List.exists_cons_of_ne_nil hSome
  have hUpdate : ∀ (map : SortedMap Key (List β)) (key : Key) change,
      (map.update key change).entries ≠ [] := by
    intro map key change
    simp only [update]
    cases map.entries with
    | nil => exact List.cons_ne_nil _ _
    | cons first others =>
        rw [updateEntries]
        split
        · exact List.cons_ne_nil _ _
        · split <;> exact List.cons_ne_nil _ _
  -- Every further contribution is an update as well.
  have hFold : ∀ map : SortedMap Key (List β), map.entries ≠ [] →
      (rest.foldl
        (fun map entry => map.update entry.1 fun earlier => earlier.getD [] ++ entry.2)
        map).entries ≠ [] := by
    induction rest with
    | nil => exact fun map hMap => hMap
    | cons next rest ih => exact fun map _ => ih (List.cons_ne_nil _ _) _ (hUpdate _ _ _)
  exact hFold _ (hUpdate _ _ _)

namespace TensorValue

variable {V : Type} [CommSemiring V]

/-- The value under a key.  Absent keys and symbolic zeros have the value zero. -/
def valueAt (map : TensorValue V) (key : Key) : V :=
  ((map.get? key).getD none).getD 0

/-- The value of an entry at a key other than its own is zero. -/
def entryAt (key : Key) (entry : Key × Option V) : V :=
  if entry.1 = key then entry.2.getD 0 else 0

theorem valueAt_scalar (entry : Option V) (key : Key) :
    (scalar entry).valueAt key = if key = [] then entry.getD 0 else 0 := by
  unfold valueAt scalar SortedMap.singleton SortedMap.get?
  rw [SortedMap.lookup_cons_ite]
  split <;> rfl

/-- Keys are unique, so the value under a key is a sum over all entries. -/
theorem valueAt_eq_sum (map : TensorValue V) (key : Key) :
    map.valueAt key = (map.entries.map (entryAt key)).sum := by
  have hIncreasing := map.increasing
  unfold valueAt SortedMap.get?
  generalize map.entries = entries at hIncreasing ⊢
  induction entries with
  | nil => rfl
  | cons entry rest ih =>
      obtain ⟨other, value⟩ := entry
      rw [List.map_cons, List.pairwise_cons] at hIncreasing
      rw [SortedMap.lookup_cons_ite, List.map_cons, List.sum_cons, ← ih hIncreasing.2]
      by_cases hKey : key = other
      · -- Further keys are larger, so none of them is this one.
        subst hKey
        rw [if_pos rfl, SortedMap.lookup_eq_none_of_lt hIncreasing.1]
        simp [entryAt]
      · simp [entryAt, if_neg hKey, Ne.symm hKey]

theorem getD_total (terms : List V) : (total terms).getD 0 = terms.sum := by
  unfold total
  split
  · rename_i hEmpty
    rw [List.isEmpty_iff.mp hEmpty]
    rfl
  · rfl

theorem sum_getD_gather (contributions : List (Key × List V)) (key : Key) :
    (((SortedMap.gather contributions).get? key).getD []).sum =
      (contributions.map fun entry => if entry.1 = key then entry.2.sum else 0).sum := by
  -- What has been gathered so far adds to what is still to come.
  have hFold : ∀ map : SortedMap Key (List V),
      (((contributions.foldl
          (fun map entry => map.update entry.1 fun earlier => earlier.getD [] ++ entry.2)
          map).get? key).getD []).sum =
        ((map.get? key).getD []).sum +
          (contributions.map fun entry => if entry.1 = key then entry.2.sum else 0).sum := by
    induction contributions with
    | nil => simp
    | cons entry rest ih =>
        intro map
        rw [List.foldl_cons, ih, SortedMap.get?_update, List.map_cons, List.sum_cons]
        by_cases hKey : key = entry.1
        · simp [hKey, add_assoc]
        · simp [hKey, Ne.symm hKey]
  have hEmpty : ((SortedMap.empty : SortedMap Key (List V)).get? key).getD [] = [] := rfl
  have hGathered := hFold SortedMap.empty
  rw [hEmpty, List.sum_nil, zero_add] at hGathered
  exact hGathered

/-- Gathered terms add up under each key. -/
theorem valueAt_gather (contributions : List (Key × List V)) (key : Key) :
    valueAt ((SortedMap.gather contributions).mapValues total) key =
      (contributions.map fun entry => if entry.1 = key then entry.2.sum else 0).sum := by
  rw [← sum_getD_gather]
  unfold valueAt
  rw [SortedMap.get?_mapValues]
  cases (SortedMap.gather contributions).get? key with
  | none => rfl
  | some terms => exact getD_total terms

theorem sum_toList (entry : Option V) : entry.toList.sum = entry.getD 0 := by
  cases entry <;> simp

/-- Sums of tensor values are pointwise. -/
theorem valueAt_sum (operands : List (TensorValue V)) (key : Key) :
    (sum operands).valueAt key = (operands.map fun operand => operand.valueAt key).sum := by
  unfold sum
  rw [valueAt_gather]
  unfold TensorCode.sumContributions
  induction operands with
  | nil => rfl
  | cons operand rest ih =>
      rw [List.flatMap_cons, List.map_append, List.sum_append, ih, List.map_cons, List.sum_cons,
        valueAt_eq_sum, List.map_map]
      congr 2
      refine List.map_congr_left fun entry _ => ?_
      simp only [Function.comp_apply, entryAt, sum_toList]

end TensorValue

end FormLowering
