import FormLowering.Proofs.Tokens.Preserved

/-!
# When operations on codes succeed

Adding terms never fails, since terms that are collapsed leave at least one term behind.
So a sum always has a code, and a product has one unless an operand has an empty token.
-/

namespace FormLowering

/-! ### Terms -/

namespace Dialect

variable (dialect : Dialect)

theorem exists_addTerms (terms : List Token) : ∃ entry, dialect.addTerms terms = .ok entry := by
  unfold addTerms
  split
  · rename_i hSeveral
    have hTerms : terms ≠ [] := by
      rintro rfl
      contradiction
    have hCollapsed := dialect.collapse_ne_nil hTerms
    rw [← List.isEmpty_eq_false_iff] at hCollapsed
    simp only [hCollapsed]
    exact ⟨_, rfl⟩
  · exact ⟨_, rfl⟩

theorem exists_properFactors {factors : List Entry} (hFactors : some "" ∉ factors) :
    ∃ proper, dialect.properFactors factors = .ok proper := by
  induction factors with
  | nil => exact ⟨_, rfl⟩
  | cons factor rest ih =>
      rw [List.mem_cons, not_or] at hFactors
      cases factor with
      | none => exact ⟨_, rfl⟩
      | some token =>
          obtain ⟨proper, hProper⟩ := ih hFactors.2
          have hToken : ¬token = "" := fun hEmpty => hFactors.1 (hEmpty ▸ rfl)
          rw [properFactors, if_neg hToken, hProper]
          exact ⟨_, rfl⟩

theorem exists_productEntry {factors : List Entry} (hFactors : some "" ∉ factors) :
    ∃ entry, dialect.productEntry factors = .ok entry := by
  obtain ⟨proper, hProper⟩ := dialect.exists_properFactors hFactors
  unfold productEntry
  rw [hProper]
  match proper with
  | none => exact ⟨_, rfl⟩
  | some [] => exact ⟨_, rfl⟩
  | some (_ :: _) => exact ⟨_, rfl⟩

end Dialect

/-! ### Codes -/

theorem exists_mapM_ok {α β ε : Type} {change : α → Except ε β} {values : List α}
    (hChange : ∀ value ∈ values, ∃ result, change value = .ok result) :
    ∃ results, values.mapM change = .ok results := by
  induction values with
  | nil => exact ⟨[], rfl⟩
  | cons value rest ih =>
      rw [List.forall_mem_cons] at hChange
      obtain ⟨first, hFirst⟩ := hChange.1
      obtain ⟨others, hOthers⟩ := ih hChange.2
      rw [List.mapM_cons, hFirst, hOthers]
      exact ⟨_, rfl⟩

/-- A change that succeeds on all values succeeds on a map. -/
theorem SortedMap.exists_traverse {κ β γ ε : Type} [LT κ] {change : β → Except ε γ}
    (hChange : ∀ value, ∃ result, change value = .ok result) (map : SortedMap κ β) :
    ∃ changed, map.traverse change = .ok changed := by
  have hEntries (entries : List (κ × β)) :
      ∃ changed, traverseEntries change entries = .ok changed := by
    induction entries with
    | nil => exact ⟨_, rfl⟩
    | cons entry rest ih =>
        obtain ⟨first, hFirst⟩ := hChange entry.2
        obtain ⟨others, hOthers⟩ := ih
        rw [traverseEntries, hFirst]
        simp only [bind, Except.bind, hOthers]
        exact ⟨_, rfl⟩
  obtain ⟨changed, hChanged⟩ := hEntries map.entries
  unfold traverse
  rw [hChanged]
  exact ⟨_, rfl⟩

namespace TensorCode

variable (dialect : Dialect)

theorem exists_sum (operands : List TensorCode) : ∃ code, sum dialect operands = .ok code :=
  SortedMap.exists_traverse dialect.exists_addTerms _

theorem exists_product {operands : List TensorCode}
    (hOperands : ∀ operand ∈ operands, operand.AllTokens (· ≠ "")) :
    ∃ code, product dialect operands = .ok code := by
  have hScalars : some "" ∉ operands.filterMap SortedMap.asScalar? := by
    intro hMem
    obtain ⟨operand, hOperand, hScalar⟩ := List.mem_filterMap.mp hMem
    obtain rfl := eq_scalar_of_asScalar? hScalar
    exact hOperands _ hOperand [] "" List.mem_cons_self rfl
  unfold product
  dsimp only
  split
  · obtain ⟨entry, hEntry⟩ := dialect.exists_productEntry hScalars
    rw [hEntry]
    exact ⟨_, rfl⟩
  · have hContributions : ∃ contributions, productContributions dialect
        (operands.filter SortedMap.isTensor) (operands.filterMap SortedMap.asScalar?) =
          .ok contributions := by
      refine exists_mapM_ok fun chosen hChosen => ?_
      have hFactors : some "" ∉ chosen.2 ++ operands.filterMap SortedMap.asScalar? := by
        rw [List.mem_append, not_or]
        refine ⟨fun hMem => ?_, hScalars⟩
        obtain ⟨operand, hOperand, key, hOwn⟩ := exists_of_mem_entryChoices hChosen hMem
        exact hOperands operand (List.mem_of_mem_filter hOperand) key "" hOwn rfl
      obtain ⟨entry, hEntry⟩ := dialect.exists_productEntry hFactors
      rw [hEntry]
      exact ⟨_, rfl⟩
    obtain ⟨contributions, hRun⟩ := hContributions
    rw [hRun]
    exact SortedMap.exists_traverse dialect.exists_addTerms _

end TensorCode

end FormLowering
