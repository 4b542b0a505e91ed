import FormLowering.TensorCode.Arithmetic
import Mathlib.Algebra.BigOperators.Group.List.Basic
import Mathlib.Algebra.Order.BigOperators.Group.List
import Mathlib.Algebra.Order.Ring.Nat
import Mathlib.Data.List.Induction
import Mathlib.Tactic.Abel

/-!
# Counting terms that are written alike

A tally counts every term once, under its first occurrence.  So the terms that it lists
are terms of the sum, and if there is a single one its count is the number of all terms.
-/

namespace FormLowering

section Weights

variable {V : Type} [Semiring V] (weight : Token → V)

theorem sum_countTerm (term : Token) (counts : List (Token × Nat)) :
    ((countTerm term counts).map fun counted => counted.2 * weight counted.1).sum =
      (counts.map fun counted => counted.2 * weight counted.1).sum + weight term := by
  induction counts with
  | nil => simp [countTerm]
  | cons counted rest ih =>
      rw [countTerm]
      split
      · rename_i hSame
        subst hSame
        simp only [List.map_cons, List.sum_cons, Nat.cast_succ, add_mul, one_mul]
        abel
      · simp only [List.map_cons, List.sum_cons, ih, add_assoc]

theorem sum_foldl_countTerm (terms : List Token) (counts : List (Token × Nat)) :
    ((terms.foldl (fun counts term => countTerm term counts) counts).map fun counted =>
        counted.2 * weight counted.1).sum =
      (counts.map fun counted => counted.2 * weight counted.1).sum + (terms.map weight).sum := by
  induction terms generalizing counts with
  | nil => simp
  | cons term rest ih => rw [List.foldl_cons, ih, sum_countTerm, List.map_cons, List.sum_cons, add_assoc]

/-- Counted terms weigh as much as all terms. -/
theorem sum_tally_map (terms : List Token) :
    ((tally terms).map fun counted => counted.2 * weight counted.1).sum = (terms.map weight).sum := by
  rw [tally, sum_foldl_countTerm, List.map_nil, List.sum_nil, zero_add]

end Weights

/-- Every term is counted once. -/
theorem sum_tally (terms : List Token) : ((tally terms).map Prod.snd).sum = terms.length := by
  simpa using sum_tally_map (fun _ => (1 : Nat)) terms

theorem tally_ne_nil {terms : List Token} (hTerms : terms ≠ []) : tally terms ≠ [] := by
  intro hNil
  have hSum := sum_tally terms
  rw [hNil] at hSum
  exact hTerms (List.length_eq_zero_iff.mp hSum.symm)

/-- Terms that are collapsed leave at least one term behind. -/
theorem Dialect.collapse_ne_nil (dialect : Dialect) {terms : List Token} (hTerms : terms ≠ []) :
    dialect.collapse terms ≠ [] := by
  rw [collapse, Ne, List.map_eq_nil_iff]
  exact tally_ne_nil hTerms

/-- Counting a term brings in no other term, and no term that is not counted. -/
theorem forall_mem_countTerm {property : Token → Prop} {term : Token} (hTerm : property term)
    {counts : List (Token × Nat)}
    (hCounts : ∀ counted ∈ counts, property counted.1 ∧ 0 < counted.2) :
    ∀ counted ∈ countTerm term counts, property counted.1 ∧ 0 < counted.2 := by
  induction counts with
  | nil => simpa [countTerm] using hTerm
  | cons first rest ih =>
      rw [List.forall_mem_cons] at hCounts
      rw [countTerm]
      split
      · exact List.forall_mem_cons.mpr ⟨⟨hCounts.1.1, Nat.succ_pos _⟩, hCounts.2⟩
      · exact List.forall_mem_cons.mpr ⟨hCounts.1, ih hCounts.2⟩

/-- The terms of a tally are among the terms, and each is counted. -/
theorem forall_mem_tally {property : Token → Prop} {terms : List Token}
    (hTerms : ∀ term ∈ terms, property term) :
    ∀ counted ∈ tally terms, property counted.1 ∧ 0 < counted.2 := by
  have hFold : ∀ {counts : List (Token × Nat)},
      (∀ counted ∈ counts, property counted.1 ∧ 0 < counted.2) →
        ∀ counted ∈ terms.foldl (fun counts term => countTerm term counts) counts,
          property counted.1 ∧ 0 < counted.2 := by
    induction terms with
    | nil => exact id
    | cons term rest ih =>
        rw [List.forall_mem_cons] at hTerms
        exact fun hCounts => ih hTerms.2 (forall_mem_countTerm hTerms.1 hCounts)
  exact hFold (by simp)

/-- The terms that are counted are among the terms. -/
theorem mem_of_mem_tally {terms : List Token} {counted : Token × Nat}
    (hMem : counted ∈ tally terms) : counted.1 ∈ terms :=
  (forall_mem_tally (fun _ hTerm => hTerm) counted hMem).1

/-- No term is counted more often than there are terms. -/
theorem count_le_of_mem_tally {terms : List Token} {counted : Token × Nat}
    (hMem : counted ∈ tally terms) : counted.2 ≤ terms.length := by
  rw [← sum_tally]
  exact List.le_sum_of_mem (List.mem_map_of_mem hMem)

theorem length_tally_le (terms : List Token) : (tally terms).length ≤ terms.length := by
  rw [← sum_tally, ← List.length_map (f := Prod.snd)]
  refine List.length_le_sum_of_one_le _ fun count hCount => ?_
  obtain ⟨counted, hCounted, rfl⟩ := List.mem_map.mp hCount
  exact (forall_mem_tally (fun _ hTerm => hTerm) counted hCounted).2

/-! ### Occurrences -/

theorem eraseDups_concat (terms : List Token) (term : Token) :
    (terms ++ [term]).eraseDups =
      if term ∈ terms then terms.eraseDups else terms.eraseDups ++ [term] := by
  rw [List.eraseDups_append]
  split <;> rename_i hTerm <;> simp [List.removeAll, hTerm, List.eraseDups_cons]

theorem nodup_eraseDups (terms : List Token) : terms.eraseDups.Nodup := by
  induction terms using List.reverseRecOn with
  | nil => simp
  | append_singleton terms term ih =>
      rw [eraseDups_concat]
      split
      · exact ih
      · rename_i hTerm
        rw [List.nodup_append]
        refine ⟨ih, List.pairwise_singleton _ term, ?_⟩
        rintro other hOther _ hSame rfl
        rw [List.mem_singleton.mp hSame, List.mem_eraseDups] at hOther
        exact hTerm hOther

theorem eraseDups_of_nodup {terms : List Token} (hNodup : terms.Nodup) : terms.eraseDups = terms := by
  induction terms using List.reverseRecOn with
  | nil => simp
  | append_singleton terms term ih =>
      obtain ⟨hTerms, -, hApart⟩ := List.nodup_append.mp hNodup
      have hTerm : term ∉ terms := fun hMem => hApart term hMem term (List.mem_singleton_self term) rfl
      rw [eraseDups_concat, if_neg hTerm, ih hTerms]

/-- Terms are listed in the order of their first occurrence. -/
theorem pairwise_idxOf_eraseDups (terms : List Token) :
    terms.eraseDups.Pairwise fun earlier later => terms.idxOf earlier < terms.idxOf later := by
  induction terms using List.reverseRecOn with
  | nil => simp
  | append_singleton terms term ih =>
      have hOld : terms.eraseDups.Pairwise fun earlier later =>
          (terms ++ [term]).idxOf earlier < (terms ++ [term]).idxOf later := by
        refine ih.imp_of_mem fun hEarlier hLater hBefore => ?_
        rwa [List.idxOf_append_of_mem (List.mem_eraseDups.mp hEarlier),
          List.idxOf_append_of_mem (List.mem_eraseDups.mp hLater)]
      rw [eraseDups_concat]
      split
      · exact hOld
      · rename_i hTerm
        rw [List.pairwise_append]
        refine ⟨hOld, List.pairwise_singleton _ term, fun earlier hEarlier later hLater => ?_⟩
        have hMem : earlier ∈ terms := List.mem_eraseDups.mp hEarlier
        rw [List.mem_singleton.mp hLater, List.idxOf_append_of_mem hMem,
          List.idxOf_append_of_notMem hTerm]
        exact Nat.lt_add_right _ (List.idxOf_lt_length_of_mem hMem)

/-- A term that is listed is counted where it stands. -/
theorem countTerm_of_mem {listed : List Token} {term : Token} (count : Token → Nat)
    (hNodup : listed.Nodup) (hTerm : term ∈ listed) :
    countTerm term (listed.map fun other => (other, count other)) =
      listed.map fun other => (other, count other + if other = term then 1 else 0) := by
  induction listed with
  | nil => cases hTerm
  | cons first rest ih =>
      obtain ⟨hFirst, hRest⟩ := List.nodup_cons.mp hNodup
      rw [List.map_cons, countTerm, List.map_cons]
      by_cases hSame : first = term
      · rw [if_pos hSame, if_pos hSame]
        refine congrArg _ (List.map_congr_left fun other hOther => ?_)
        rw [if_neg (by rintro rfl; exact hFirst (hSame ▸ hOther)), add_zero]
      · rw [if_neg hSame, if_neg hSame, add_zero,
          ih hRest ((List.mem_cons.mp hTerm).resolve_left (Ne.symm hSame))]

/-- A term that is not listed yet is listed last. -/
theorem countTerm_of_not_mem {listed : List Token} {term : Token} (count : Token → Nat)
    (hTerm : term ∉ listed) :
    countTerm term (listed.map fun other => (other, count other)) =
      (listed.map fun other => (other, count other)) ++ [(term, 1)] := by
  induction listed with
  | nil => rfl
  | cons first rest ih =>
      rw [List.mem_cons, not_or] at hTerm
      rw [List.map_cons, countTerm, if_neg (Ne.symm hTerm.1), ih hTerm.2, List.cons_append]

/-- A tally lists the distinct terms in the order of their first occurrence, each with the
number of its occurrences. -/
theorem tally_eq (terms : List Token) :
    tally terms = terms.eraseDups.map fun term => (term, terms.count term) := by
  induction terms using List.reverseRecOn with
  | nil => rfl
  | append_singleton terms term ih =>
      have hCount (other : Token) :
          (terms ++ [term]).count other = terms.count other + if other = term then 1 else 0 := by
        simp [List.count_append, List.count_cons, @eq_comm _ term]
      have hTally : tally (terms ++ [term]) = countTerm term (tally terms) := by
        rw [tally, List.foldl_append]
        rfl
      rw [hTally, ih, eraseDups_concat]
      simp only [hCount]
      split
      · rename_i hTerm
        exact countTerm_of_mem _ (nodup_eraseDups terms) (List.mem_eraseDups.mpr hTerm)
      · rename_i hTerm
        rw [countTerm_of_not_mem _ (mt List.mem_eraseDups.mp hTerm), List.map_append]
        refine congrArg₂ _ (List.map_congr_left fun other hOther => ?_) ?_
        · have hOld : other ∈ terms := List.mem_eraseDups.mp hOther
          rw [if_neg (by rintro rfl; exact hTerm hOld), add_zero]
        · simp [List.count_eq_zero.mpr hTerm]

end FormLowering
