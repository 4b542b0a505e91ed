import FormLowering.Proofs.Calculus.DirectionTuples
import Mathlib.Data.Nat.Factorial.Basic
import Mathlib.Algebra.BigOperators.Ring.List
import Mathlib.Algebra.BigOperators.Ring.Finset

/-!
# Derivative counts of tuples

The chain rule runs over all tuples of reference directions, and tables are told apart by
their derivative counts alone.  So a mixed derivative is met as often as its counts can be
arranged into a tuple, which is the multinomial coefficient of the counts.

The proof is by induction on the order.  A tuple begins with one of the directions, and what
is behind it takes one derivative less in this direction.
-/

namespace FormLowering

open Nat (factorial)

/-- Tuples of one more direction begin with any direction, and go on with any tuple. -/
theorem directionTuples_succ (dimension order : Nat) :
    directionTuples dimension (order + 1) =
      (List.range dimension).flatMap fun direction =>
        (directionTuples dimension order).map (direction :: ·) :=
  rfl

/-- The order of the directions of a tuple does not matter for its counts. -/
theorem directionCounts_perm (dimension : Nat) {left right : List Nat} (hPerm : left.Perm right) :
    directionCounts dimension left = directionCounts dimension right := by
  simp only [directionCounts, hPerm.count_eq]

/-- A tuple of some directions takes a derivative, so its counts are not left out. -/
theorem directionCounts_of_mem {dimension order : Nat} {tuple : List Nat} (hOrder : order ≠ 0)
    (hTuple : tuple ∈ directionTuples dimension order) :
    directionCounts dimension tuple = tupleCounts dimension tuple := by
  refine if_neg fun hZero => hOrder ?_
  rw [← sum_tupleCounts hTuple]
  exact List.sum_eq_zero fun count hMem => of_decide_eq_true (List.all_eq_true.mp hZero count hMem)

section Multiplicity

variable {dimension order direction : Nat} {counts : Nat → Nat}

/-- The number of tuples that take the given number of derivatives in each direction. -/
def countTuples (dimension order : Nat) (counts : Nat → Nat) : Nat :=
  (directionTuples dimension order).countP fun tuple =>
    tupleCounts dimension tuple = (List.range dimension).map counts

theorem tupleCounts_eq_iff {tuple : List Nat} :
    tupleCounts dimension tuple = (List.range dimension).map counts ↔
      ∀ direction < dimension, tuple.count direction = counts direction := by
  simp [tupleCounts]

/-- What is behind the first direction of a tuple takes one derivative less in it. -/
theorem tupleCounts_cons_iff {rest : List Nat} {fewer : Nat} (hCount : counts direction = fewer + 1) :
    tupleCounts dimension (direction :: rest) = (List.range dimension).map counts ↔
      tupleCounts dimension rest =
        (List.range dimension).map (Function.update counts direction fewer) := by
  rw [tupleCounts_eq_iff, tupleCounts_eq_iff]
  refine forall₂_congr fun other _ => ?_
  by_cases hSame : other = direction
  · subst hSame
    rw [List.count_cons_self, Function.update_self, hCount, Nat.add_right_cancel_iff]
  · rw [List.count_cons_of_ne (Ne.symm hSame), Function.update_of_ne hSame]

/-- A count that is one less has a factorial that is smaller by the count. -/
theorem prod_factorial_update {fewer : Nat} (hDirection : direction < dimension)
    (hCount : counts direction = fewer + 1) :
    ∏ other ∈ Finset.range dimension, (counts other).factorial =
      counts direction *
        ∏ other ∈ Finset.range dimension, (Function.update counts direction fewer other).factorial := by
  have hMem := Finset.mem_range.mpr hDirection
  have hUpdate : ∀ other, (Function.update counts direction fewer other).factorial =
      Function.update (fun other => (counts other).factorial) direction fewer.factorial other :=
    fun other => Function.apply_update (fun _ => factorial) counts direction fewer other
  simp only [hUpdate]
  rw [Finset.prod_update_of_mem hMem, Finset.prod_eq_mul_prod_sdiff_singleton_of_mem hMem, hCount,
    Nat.factorial_succ, mul_assoc]

theorem sum_update {fewer : Nat} (hDirection : direction < dimension)
    (hCount : counts direction = fewer + 1) :
    ∑ other ∈ Finset.range dimension, counts other =
      ∑ other ∈ Finset.range dimension, Function.update counts direction fewer other + 1 := by
  have hMem := Finset.mem_range.mpr hDirection
  rw [Finset.sum_update_of_mem hMem, Finset.sum_eq_add_sum_sdiff_singleton_of_mem hMem counts, hCount,
    Nat.add_right_comm]

/-- The tuples with given counts that begin with a direction, by those that are behind it. -/
theorem countP_cons_mul_prod (hDirection : direction < dimension)
    (hSum : ∑ other ∈ Finset.range dimension, counts other = order + 1)
    (hRest : ∀ counts : Nat → Nat, ∑ other ∈ Finset.range dimension, counts other = order →
      countTuples dimension order counts * ∏ other ∈ Finset.range dimension, (counts other).factorial =
        order.factorial) :
    ((directionTuples dimension order).countP fun rest =>
        tupleCounts dimension (direction :: rest) = (List.range dimension).map counts) *
      ∏ other ∈ Finset.range dimension, (counts other).factorial =
        counts direction * order.factorial := by
  cases hCount : counts direction with
  | zero =>
      -- A tuple that begins with a direction takes a derivative in it.
      rw [Nat.zero_mul, Nat.mul_eq_zero]
      refine .inl (List.countP_eq_zero.mpr fun rest _ hCounts => ?_)
      have hFirst := tupleCounts_eq_iff.mp (of_decide_eq_true hCounts) direction hDirection
      rw [List.count_cons_self, hCount] at hFirst
      contradiction
  | succ fewer =>
      have hFewer : ∑ other ∈ Finset.range dimension, Function.update counts direction fewer other =
          order := by
        rw [sum_update hDirection hCount] at hSum
        exact Nat.add_right_cancel hSum
      simp only [tupleCounts_cons_iff hCount]
      rw [prod_factorial_update hDirection hCount, hCount, Nat.mul_left_comm]
      exact congrArg _ (hRest _ hFewer)

/-- There are as many tuples with given counts as the multinomial coefficient of the counts
says. -/
theorem countTuples_mul_prod
    (hSum : ∑ direction ∈ Finset.range dimension, counts direction = order) :
    countTuples dimension order counts *
      ∏ direction ∈ Finset.range dimension, (counts direction).factorial = order.factorial := by
  induction order generalizing counts with
  | zero =>
      have hZero : ∀ direction < dimension, counts direction = 0 := by
        simpa [Finset.sum_eq_zero_iff] using hSum
      have hNone : tupleCounts dimension [] = (List.range dimension).map counts :=
        tupleCounts_eq_iff.mpr fun direction hDirection => (hZero direction hDirection).symm
      have hOnly : countTuples dimension 0 counts = 1 := by
        simp [countTuples, directionTuples, choices, hNone]
      rw [hOnly, Nat.one_mul]
      refine Finset.prod_eq_one fun direction hDirection => ?_
      rw [hZero direction (Finset.mem_range.mp hDirection), Nat.factorial_zero]
  | succ order ih =>
      have hFirst : countTuples dimension (order + 1) counts =
          ∑ direction ∈ Finset.range dimension, (directionTuples dimension order).countP fun rest =>
            tupleCounts dimension (direction :: rest) = (List.range dimension).map counts := by
        rw [countTuples, directionTuples_succ, List.countP_flatMap]
        simp only [Function.comp_def, List.countP_map]
        rfl
      calc countTuples dimension (order + 1) counts *
            ∏ direction ∈ Finset.range dimension, (counts direction).factorial
          = ∑ direction ∈ Finset.range dimension, counts direction * order.factorial := by
            rw [hFirst, Finset.sum_mul]
            exact Finset.sum_congr rfl fun direction hDirection =>
              countP_cons_mul_prod (Finset.mem_range.mp hDirection) hSum fun _ hRest => ih hRest
        _ = (order + 1).factorial := by rw [← Finset.sum_mul, hSum, Nat.factorial_succ]

end Multiplicity

theorem map_getD_range {dimension : Nat} {counts : List Nat} (hLength : counts.length = dimension) :
    (List.range dimension).map (counts.getD · 0) = counts := by
  subst hLength
  exact List.ext_getElem (by simp) fun index _ hIndex => by simp [hIndex]

/-- The same for counts as they are given to tables. -/
theorem countP_directionCounts_mul_prod {dimension order : Nat} (hOrder : order ≠ 0)
    {counts : List Nat} (hLength : counts.length = dimension) (hSum : counts.sum = order) :
    ((directionTuples dimension order).countP fun tuple => directionCounts dimension tuple = counts) *
      (counts.map factorial).prod = order.factorial := by
  have hList := map_getD_range hLength
  have hTotal : ∑ direction ∈ Finset.range dimension, counts.getD direction 0 = order := by
    rw [← hSum, ← congrArg List.sum hList]
    rfl
  have hProd : ∏ direction ∈ Finset.range dimension, (counts.getD direction 0).factorial =
      (counts.map factorial).prod := by
    rw [← congrArg (fun list => (list.map factorial).prod) hList, List.map_map]
    rfl
  rw [← countTuples_mul_prod hTotal, hProd, countTuples, hList]
  refine congrArg (· * _) (List.countP_congr fun tuple hTuple => ?_)
  rw [directionCounts_of_mem hOrder hTuple]

/-- Every tuple of directions is listed once, in lexicographic order.  The derivative counts of
a tuple have one place for each direction and add up to the order, and every vector of such
counts belongs to as many tuples as its multinomial coefficient says.  The counts do not depend
on the order of the directions. -/
theorem directionTuples_multinomial (dimension order : Nat) :
    (∀ tuple, tuple ∈ directionTuples dimension order ↔
      tuple.length = order ∧ ∀ direction ∈ tuple, direction < dimension) ∧
    (directionTuples dimension order).Nodup ∧
    (directionTuples dimension order).Pairwise (· < ·) ∧
    (directionTuples dimension order).length = dimension ^ order ∧
    directionTuples dimension 0 = [[]] ∧
    (order ≠ 0 →
      (∀ tuple ∈ directionTuples dimension order,
        (directionCounts dimension tuple).length = dimension ∧
          (directionCounts dimension tuple).sum = order) ∧
      ∀ counts : List Nat, counts.length = dimension → counts.sum = order →
        ((directionTuples dimension order).countP fun tuple =>
            directionCounts dimension tuple = counts) =
          order.factorial / (counts.map factorial).prod ∧
        (counts.map factorial).prod ∣ order.factorial) ∧
    (∀ left right : List Nat, left.Perm right →
      directionCounts dimension left = directionCounts dimension right) := by
  have hRange : ∀ options ∈ List.replicate order (List.range dimension),
      options = List.range dimension := fun _ hOptions => List.eq_of_mem_replicate hOptions
  refine ⟨fun tuple => mem_directionTuples, nodup_choices ?_, pairwise_choices ?_, ?_, rfl,
    fun hOrder => ⟨fun tuple hTuple => ?_, fun counts hLength hSum => ?_⟩,
    fun left right => directionCounts_perm dimension⟩
  · intro options hOptions
    rw [hRange options hOptions]
    exact List.nodup_range
  · intro options hOptions
    rw [hRange options hOptions]
    exact List.pairwise_lt_range
  · rw [directionTuples, length_choices, List.map_replicate, List.prod_replicate, List.length_range]
  · rw [directionCounts_of_mem hOrder hTuple]
    exact ⟨tupleCounts_length dimension tuple, sum_tupleCounts hTuple⟩
  · have hMultiple := countP_directionCounts_mul_prod hOrder hLength hSum
    have hDvd : (counts.map factorial).prod ∣ order.factorial := Dvd.intro_left _ hMultiple
    have hPos := Nat.pos_of_dvd_of_pos hDvd order.factorial_pos
    exact ⟨Nat.eq_div_of_mul_eq_left hPos.ne' hMultiple, hDvd⟩

/-- A derivative of order four, twice in the first of three directions and once in the others,
is met twelve times. -/
theorem directionTuples_multinomial_fourth_order :
    (4 ≠ 0 ∧ [2, 1, 1].length = 3 ∧ [2, 1, 1].sum = 4) ∧
    ((directionTuples 3 4).countP fun tuple => directionCounts 3 tuple = [2, 1, 1]) = 12 ∧
    [0, 2, 1, 0] ∈ directionTuples 3 4 ∧ (directionCounts 3 [0, 2, 1, 0]).sum = 4 ∧
    [0, 2, 1, 0].Perm [0, 0, 1, 2] ∧
    directionCounts 3 [0, 2, 1, 0] = directionCounts 3 [0, 0, 1, 2] := by
  obtain ⟨hMem, -, -, -, -, hCounts, hPerm⟩ := directionTuples_multinomial 3 4
  obtain ⟨hSum, hMultiple⟩ := hCounts (by decide)
  have hTuple : [0, 2, 1, 0] ∈ directionTuples 3 4 := (hMem _).mpr (by decide)
  have hArranged : [0, 2, 1, 0].Perm [0, 0, 1, 2] := by decide
  exact ⟨by decide, (hMultiple [2, 1, 1] rfl rfl).1, hTuple, (hSum _ hTuple).2, hArranged,
    hPerm _ _ hArranged⟩

end FormLowering
