import FormLowering.Proofs.Semantics.Choices
import Mathlib.Algebra.BigOperators.Ring.List
import Mathlib.Algebra.Order.Ring.Nat

/-!
# Choices of entries

A product of tensors runs over all ways to choose one entry of each of them.  The choices
are told apart by the tuples of their keys, since the keys of a tensor are different, and
they are listed in the lexicographic order of these tuples.  A choice contributes to the
concatenation of its keys.
-/

namespace FormLowering

section Choices

variable {β : Type}

/-- The tuples of chosen keys are the choices of one key of each tensor. -/
theorem map_keys_choices (operands : List (SortedMap Key β)) :
    (choices (operands.map (·.entries))).map (List.map Prod.fst) =
      choices (operands.map (·.keys)) := by
  rw [← map_choices, List.map_map]
  rfl

/-- The choices are in the order of their keys, where the keys of the last tensor vary
fastest. -/
theorem pairwise_keys_choices (operands : List (SortedMap Key β)) :
    ((choices (operands.map (·.entries))).map (List.map Prod.fst)).Pairwise (· < ·) := by
  rw [map_keys_choices]
  refine pairwise_choices fun keys hKeys => ?_
  obtain ⟨operand, -, rfl⟩ := List.mem_map.mp hKeys
  exact operand.increasing

theorem length_entryChoices {operands : List (SortedMap Key β)} (hSome : operands ≠ []) :
    (entryChoices operands).length = (operands.map fun operand => operand.entries.length).prod := by
  rw [entryChoices, if_neg (by simpa using hSome), List.length_map, length_choices, List.map_map]
  rfl

/-- Every choice of one entry of each tensor is listed once, in the lexicographic order of the
tuples of keys, under the concatenation of its keys and with its values in the order of the
tensors.  The number of choices is the product of the sizes of the tensors, so there is none if
a tensor has no entries.  Without tensors there is none either. -/
theorem entryChoices_enumerates (operands : List (SortedMap Key β)) :
    (operands ≠ [] → ∃ chosen : List (List (Key × β)),
      entryChoices operands =
        chosen.map (fun entries => ((entries.map Prod.fst).flatten, entries.map Prod.snd)) ∧
      (∀ entries, entries ∈ chosen ↔
        List.Forall₂ (fun entry operand => entry ∈ operand.entries) entries operands) ∧
      chosen.Nodup ∧
      (chosen.map (List.map Prod.fst)).Pairwise (· < ·) ∧
      (entryChoices operands).length =
        (operands.map fun operand => operand.entries.length).prod) ∧
    ((∃ operand ∈ operands, operand.entries = []) → entryChoices operands = []) ∧
    entryChoices ([] : List (SortedMap Key β)) = [] := by
  refine ⟨fun hSome => ?_, ?_, rfl⟩
  · refine ⟨choices (operands.map (·.entries)), ?_, fun entries => ?_, ?_,
      pairwise_keys_choices operands, length_entryChoices hSome⟩
    · rw [entryChoices, if_neg (by simpa using hSome)]
      simp only [List.flatMap_def]
    · rw [mem_choices, List.forall₂_map_right_iff]
    · refine nodup_choices fun entries hEntries => ?_
      obtain ⟨operand, -, rfl⟩ := List.mem_map.mp hEntries
      exact operand.nodup_keys.of_map
  · rintro ⟨operand, hMem, hNone⟩
    have hZero : 0 ∈ operands.map fun operand => operand.entries.length :=
      List.mem_map.mpr ⟨operand, hMem, List.length_eq_zero_iff.mpr hNone⟩
    rw [← List.length_eq_zero_iff, length_entryChoices (List.ne_nil_of_mem hMem)]
    exact List.prod_eq_zero hZero

/-- Two components of one tensor with two of another and a scalar, and with a tensor without
components. -/
theorem entryChoices_enumerates_two_tensors :
    let left : TensorCode := .ofList [([1], none), ([0], some "A")]
    let right : TensorCode := .ofList [([2, 0], some "C"), ([1], some "B")]
    let operands := [left, right, TensorCode.scalar (some "S")]
    operands ≠ [] ∧
    entryChoices operands =
      [([0, 1], [some "A", some "B", some "S"]), ([0, 2, 0], [some "A", some "C", some "S"]),
       ([1, 1], [none, some "B", some "S"]), ([1, 2, 0], [none, some "C", some "S"])] ∧
    (entryChoices operands).length = 2 * (2 * 1) ∧
    (∃ operand ∈ [left, .empty], operand.entries = []) ∧ entryChoices [left, .empty] = [] := by
  intro left right operands
  have hSome : operands ≠ [] := List.cons_ne_nil _ _
  have hNone : ∃ operand ∈ [left, .empty], operand.entries = [] := ⟨.empty, by simp, rfl⟩
  obtain ⟨_, -, -, -, -, hLength⟩ := (entryChoices_enumerates operands).1 hSome
  exact ⟨hSome, by decide +kernel, hLength, hNone, (entryChoices_enumerates _).2.1 hNone⟩

end Choices

end FormLowering
