import FormLowering.Element.Catalog
import FormLowering.Proofs.Calculus.ChainRule
import FormLowering.Proofs.Semantics.Choices
import Mathlib.Algebra.BigOperators.Group.Finset.Basic

/-!
# Tuples of directions and derivative counts

The chain rule runs over tuples of reference directions, while tables are asked
for by the number of derivatives in each direction.  Every tuple takes as many
derivatives as the order says, and the derivative along it is the one with its
counts.
-/

namespace FormLowering

open MvPolynomial

/-- The number of derivatives that a tuple takes in each direction. -/
def tupleCounts (dimension : Nat) (tuple : List Nat) : List Nat :=
  (List.range dimension).map fun direction => tuple.count direction

theorem directionCounts_eq (dimension : Nat) (tuple : List Nat) :
    directionCounts dimension tuple = canonicalCounts (tupleCounts dimension tuple) :=
  rfl

theorem tupleCounts_length (dimension : Nat) (tuple : List Nat) :
    (tupleCounts dimension tuple).length = dimension := by
  simp [tupleCounts]

theorem getD_tupleCounts {dimension : Nat} (tuple : List Nat) (direction : Fin dimension) :
    (tupleCounts dimension tuple).getD direction.val 0 = tuple.count direction.val := by
  simp [tupleCounts]

/-- Tuples of directions are tuples of numbers below the dimension. -/
theorem directionTuples_eq_map (dimension order : Nat) :
    directionTuples dimension order =
      (choices (List.replicate order (List.finRange dimension))).map (List.map Fin.val) := by
  rw [directionTuples, ← map_choices, List.map_replicate, List.map_coe_finRange_eq_range]

theorem mem_directionTuples {dimension order : Nat} {tuple : List Nat} :
    tuple ∈ directionTuples dimension order ↔
      tuple.length = order ∧ ∀ direction ∈ tuple, direction < dimension := by
  rw [directionTuples, mem_choices]
  constructor
  · intro hTuple
    refine ⟨by simpa using hTuple.length_eq, fun direction hMem => ?_⟩
    induction order generalizing tuple with
    | zero =>
        cases hTuple
        contradiction
    | succ order ih =>
        rw [List.replicate_succ] at hTuple
        cases hTuple with
        | cons hFirst hRest =>
            rcases List.mem_cons.mp hMem with rfl | hMem
            · exact List.mem_range.mp hFirst
            · exact ih hRest hMem
  · rintro ⟨rfl, hDirections⟩
    induction tuple with
    | nil => exact .nil
    | cons direction rest ih =>
        rw [List.forall_mem_cons] at hDirections
        exact .cons (List.mem_range.mpr hDirections.1) (ih hDirections.2)

/-- A tuple of directions takes as many derivatives as it has directions. -/
theorem sum_tupleCounts {dimension order : Nat} {tuple : List Nat}
    (hTuple : tuple ∈ directionTuples dimension order) : (tupleCounts dimension tuple).sum = order := by
  obtain ⟨hLength, hDirections⟩ := mem_directionTuples.mp hTuple
  -- All directions of the tuple are below the dimension, so none is left out.
  have hSum : ∑ direction ∈ Finset.range dimension, (tuple : Multiset Nat).count direction =
      Multiset.card (tuple : Multiset Nat) :=
    Multiset.sum_count_eq_card fun direction hMem => Finset.mem_range.mpr (hDirections direction hMem)
  rw [Multiset.coe_card, hLength] at hSum
  simpa [Finset.sum, Multiset.range, tupleCounts] using hSum

variable {F : Type} [Field F] {m n : Nat}

/-- The derivative along a tuple is the one with its counts. -/
theorem partialDerivative_tupleCounts (tuple : List (Fin n)) (p : MvPolynomial (Fin n) F) :
    partialDerivative (tupleCounts n (tuple.map Fin.val)) p = iteratedDerivative tuple p := by
  refine partialDerivative_of_counts (fun direction => ?_) p
  rw [getD_tupleCounts]
  exact List.count_map_of_injective tuple Fin.val Fin.val_injective direction

/-- The value of a physical derivative, from the reference derivatives by their counts. -/
theorem eval_iteratedDerivative (K : Nat → Nat → F) (b : Fin n → F) (x : Fin m → F)
    (directions : List (Fin m)) (p : MvPolynomial (Fin n) F) :
    eval x (iteratedDerivative directions (pulledBack K b p)) =
      ((directionTuples n directions.length).map fun tuple =>
        chainWeight K (directions.map Fin.val) tuple *
          eval (referencePoint K b x) (partialDerivative (tupleCounts n tuple) p)).sum := by
  rw [iteratedDerivative_pulledBack, directionTuples_eq_map, map_list_sum, List.map_map,
    List.map_map]
  refine congrArg List.sum (List.map_congr_left fun tuple _ => ?_)
  simp only [Function.comp_apply, map_mul, eval_C, eval_pulledBack, partialDerivative_tupleCounts]

end FormLowering
