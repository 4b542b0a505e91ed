import FormLowering.Proofs.Reading.Dialects
import FormLowering.Proofs.Semantics.Conditions
import FormLowering.Proofs.Semantics.Evaluation
import FormLowering.Proofs.Semantics.Relations
import FormLowering.Proofs.Tokens.Tally
import Mathlib.Tactic.Ring

/-!
# Arithmetic on tensor codes is arithmetic on values

Sums, products and quotients of tensor codes denote those of tensor values.
Three shortcuts of the code have to be accounted for: factors that are written
like one are left out, equal terms are counted and multiplied by their number,
and a divisor that is written like one is not written.
-/

namespace FormLowering

variable {V : Type} [CommSemiring V] [Div V] {dialect : Dialect} {I : Interpretation V}

namespace Dialect.Reading

variable (reading : dialect.Reading I)

/-- Whether an entry has a value.  Symbolic zeros correspond to each other. -/
abbrev EntryDenotes : Entry → Option V → Prop :=
  Option.Rel reading.Denotes

/-- Whether a tensor code has the keys of a tensor value, and entries with its
values. -/
abbrev CodeDenotes : TensorCode → TensorValue V → Prop :=
  SortedMap.Related reading.EntryDenotes

variable {reading}

theorem identity : reading.Denotes dialect.identity 1 := by
  have hOne := reading.natural reading.exact_one
  rwa [Nat.cast_one] at hOne

theorem literal_zero : reading.Denotes (dialect.literal .zero) 0 := by
  have hExact : reading.Exact 0 := reading.exact_of_le (Nat.zero_le 1) reading.exact_one
  have hZero := reading.natural hExact
  rwa [Nat.cast_zero] at hZero

/-! ### Equal terms -/

/-- Whether a tally has the given number of terms and the given sum. -/
inductive Tallies (reading : dialect.Reading I) : List (Token × Nat) → Nat → V → Prop
  | nil : Tallies reading [] 0 0
  | cons {term value count rest number sum} : reading.Denotes term value → 0 < count →
      Tallies reading rest number sum →
        Tallies reading ((term, count) :: rest) (count + number) (count * value + sum)

theorem tallies_countTerm {term : Token} {value : V} (hTerm : reading.Denotes term value)
    {counts : List (Token × Nat)} {number : Nat} {sum : V}
    (hCounts : reading.Tallies counts number sum) :
    reading.Tallies (countTerm term counts) (number + 1) (sum + value) := by
  induction hCounts with
  | nil =>
      have hOne : reading.Tallies [(term, 1)] (1 + 0) ((1 : Nat) * value + 0) :=
        .cons hTerm Nat.one_pos .nil
      simpa [countTerm] using hOne
  | @cons other otherValue count rest number sum hOther hCount hRest ih =>
      rw [countTerm]
      split
      · -- A term that is written alike has the same value and is counted.
        rename_i hSame
        subst hSame
        have hValue : otherValue = value := reading.unique hOther hTerm
        subst hValue
        have hMore : reading.Tallies ((other, count + 1) :: rest) (count + 1 + number)
            ((count + 1 : Nat) * otherValue + sum) := .cons hOther (Nat.succ_pos _) hRest
        have hNumber : count + 1 + number = count + number + 1 := by omega
        have hSum : ((count + 1 : Nat) : V) * otherValue + sum =
            count * otherValue + sum + otherValue := by
          push_cast
          ring
        rwa [hNumber, hSum] at hMore
      · -- Any other term is counted further back.
        have hMore := Tallies.cons hOther hCount ih
        rwa [← Nat.add_assoc, ← add_assoc] at hMore

theorem tallies_tally {terms : List Token} {values : List V}
    (hTerms : List.Forall₂ reading.Denotes terms values) :
    reading.Tallies (tally terms) terms.length values.sum := by
  -- The terms counted so far are behind the ones still to be counted.
  have hFold : ∀ (counts : List (Token × Nat)) (number : Nat) (sum : V),
      reading.Tallies counts number sum →
        reading.Tallies (terms.foldl (fun counts term => countTerm term counts) counts)
          (number + terms.length) (sum + values.sum) := by
    induction hTerms with
    | nil =>
        intro counts number sum hCounts
        simpa using hCounts
    | @cons term value terms values hFirst _ ih =>
        intro counts number sum hCounts
        have hRest := ih _ _ _ (tallies_countTerm hFirst hCounts)
        have hNumber : number + 1 + terms.length = number + (terms.length + 1) := by omega
        rwa [hNumber, add_assoc, ← List.sum_cons] at hRest
  simpa [tally] using hFold [] 0 0 .nil

theorem repeated {term : Token} {value : V} {count : Nat} (hTerm : reading.Denotes term value)
    (hCount : 0 < count) (hExact : reading.Exact count) :
    reading.Denotes (dialect.repeated term count) (count * value) := by
  unfold Dialect.repeated
  split
  · have hFactors : List.Forall₂ reading.Denotes [dialect.literal (.ofNat count), term]
        [(count : V), value] := .cons (reading.natural hExact) (.cons hTerm .nil)
    have hProduct := reading.multiply (by simp) hFactors
    simpa using hProduct
  · obtain rfl : count = 1 := by omega
    simpa using hTerm

theorem collapse_tallies {counts : List (Token × Nat)} {number : Nat} {sum : V}
    (hCounts : reading.Tallies counts number sum) (hExact : reading.Exact number) :
    ∃ values, List.Forall₂ reading.Denotes
        (counts.map fun counted => dialect.repeated counted.1 counted.2) values ∧
      values.sum = sum := by
  induction hCounts with
  | nil => exact ⟨[], .nil, rfl⟩
  | @cons term value count rest number sum hTerm hCount _ ih =>
      -- No count exceeds the number of all terms, so every count is exact.
      obtain ⟨values, hValues, hSum⟩ := ih (reading.exact_of_le (Nat.le_add_left _ _) hExact)
      have hFirst := repeated hTerm hCount (reading.exact_of_le (Nat.le_add_right _ _) hExact)
      refine ⟨count * value :: values, .cons hFirst hValues, ?_⟩
      rw [List.sum_cons, hSum]

/-- Collapsed terms have the same sum. -/
theorem collapse {terms : List Token} {values : List V}
    (hTerms : List.Forall₂ reading.Denotes terms values) (hExact : reading.Exact terms.length) :
    ∃ collapsed, List.Forall₂ reading.Denotes (dialect.collapse terms) collapsed ∧
      collapsed.sum = values.sum :=
  collapse_tallies (tallies_tally hTerms) hExact

/-! ### Sums -/

theorem join {terms : List Token} {values : List V}
    (hTerms : List.Forall₂ reading.Denotes terms values) :
    reading.EntryDenotes (dialect.join terms) (TensorValue.total values) := by
  match terms, values, hTerms with
  | [], [], .nil => exact .none
  | [term], [value], .cons hTerm .nil =>
    apply Option.Rel.some
    rwa [List.sum_singleton]
  | first :: second :: rest, _ :: _ :: _, .cons hFirst (.cons hSecond hRest) =>
    exact .some (reading.sum (List.cons_ne_nil _ _) (.cons hFirst (.cons hSecond hRest)))

/-- The sum of the terms of one component denotes the sum of their values. -/
theorem addTerms {terms : List Token} {values : List V}
    (hTerms : List.Forall₂ reading.Denotes terms values) (hExact : reading.Exact terms.length) :
    Agree reading.EntryDenotes (dialect.addTerms terms) (.ok (TensorValue.total values)) := by
  by_cases hSeveral : 1 < terms.length
  · -- Several terms are collapsed, which leaves at least one.
    have hNonempty : terms ≠ [] := by
      rintro rfl
      simp at hSeveral
    obtain ⟨collapsed, hCollapsed, hSum⟩ := collapse hTerms hExact
    have hSome : dialect.collapse terms ≠ [] := dialect.collapse_ne_nil hNonempty
    have hTotal : TensorValue.total collapsed = TensorValue.total values := by
      rw [TensorValue.total_of_ne_nil (ne_nil_of_forall₂ hCollapsed hSome),
        TensorValue.total_of_ne_nil (ne_nil_of_forall₂ hTerms hNonempty), hSum]
    simp only [Dialect.addTerms, if_pos hSeveral, List.isEmpty_iff, hSome, if_false]
    rw [← hTotal]
    exact .ok (join hCollapsed)
  · -- A single term is its own sum, and no terms are symbolic zero.
    rw [Dialect.addTerms, if_neg hSeveral]
    match terms, values, hTerms with
    | [], [], .nil => exact .ok .none
    | [term], [value], .cons hTerm .nil =>
      refine .ok (.some ?_)
      rwa [List.sum_singleton]
    | _ :: _ :: _, _, _ => simp at hSeveral

/-- Adding up what contributes to each component. -/
theorem addContributions {contributions : List (Key × List Token)} {values : List (Key × List V)}
    (hTerms : List.Forall₂ (EntryRelated (List.Forall₂ reading.Denotes)) contributions values)
    (hExact : TermsMeet reading.Exact contributions) :
    Agree reading.CodeDenotes ((SortedMap.gather contributions).traverse dialect.addTerms)
      (.ok ((SortedMap.gather values).mapValues TensorValue.total)) := by
  -- Each key has its terms together with the bound on their number.
  have hGathered := (List.forall₂_and_left _ _).mpr ⟨hExact, SortedMap.Related.gather hTerms⟩
  have hMaps : SortedMap.Related
      (fun terms values => reading.Exact terms.length ∧ List.Forall₂ reading.Denotes terms values)
      (SortedMap.gather contributions) (SortedMap.gather values) :=
    hGathered.imp fun _ _ hEntry => ⟨hEntry.2.1, hEntry.1, hEntry.2.2⟩
  exact hMaps.traverse fun terms values hEntry => addTerms hEntry.2 hEntry.1

theorem sumCode {operands : List TensorCode} {values : List (TensorValue V)}
    (hOperands : List.Forall₂ reading.CodeDenotes operands values)
    (hExact : TermsMeet reading.Exact (TensorCode.sumContributions operands)) :
    Agree reading.CodeDenotes (TensorCode.sum dialect operands) (.ok (TensorValue.sum values)) :=
  addContributions (forall₂_sumContributions hOperands) hExact

/-! ### Products -/

/-- Factors that are left out are ones. -/
theorem properFactors {factors : List Entry} {values : List (Option V)}
    (hFactors : List.Forall₂ reading.EntryDenotes factors values) :
    Agree
      (Option.Rel fun tokens product =>
        ∃ proper, List.Forall₂ reading.Denotes tokens proper ∧ proper.prod = product)
      (dialect.properFactors factors) (.ok (TensorValue.productEntry values)) := by
  induction hFactors with
  | nil => exact .ok (.some ⟨[], .nil, List.prod_nil⟩)
  | @cons factor value factors values hFactor _ ih =>
      cases hFactor with
      | none => exact .ok .none
      | @some token value hToken =>
          rw [Dialect.properFactors, if_neg (reading.ne_empty hToken)]
          refine Agree.bind_ok ih fun others hOthers => ?_
          rw [TensorValue.productEntry]
          generalize TensorValue.productEntry values = product at hOthers ⊢
          cases hOthers with
          | none => exact .ok .none
          | some hProper =>
              obtain ⟨proper, hProper, rfl⟩ := hProper
              refine .ok (.some ?_)
              split
              · -- What is written like one has no other value than one.
                rename_i hOne
                have hValue : value = 1 := reading.unique (hOne ▸ hToken) identity
                exact ⟨proper, hProper, by simp [hValue]⟩
              · exact ⟨value :: proper, .cons hToken hProper, List.prod_cons⟩

theorem productEntry {factors : List Entry} {values : List (Option V)}
    (hFactors : List.Forall₂ reading.EntryDenotes factors values) :
    Agree reading.EntryDenotes (dialect.productEntry factors)
      (.ok (TensorValue.productEntry values)) := by
  refine Agree.bind_ok (properFactors hFactors) fun tokens hTokens => ?_
  generalize TensorValue.productEntry values = product at hTokens ⊢
  cases hTokens with
  | none => exact .ok .none
  | some hProper =>
      obtain ⟨proper, hProper, rfl⟩ := hProper
      cases hProper with
      | nil =>
          -- All factors were ones, and one of them is written after all.
          refine .ok (.some ?_)
          rw [List.prod_nil]
          exact identity
      | cons hFirst hRest =>
          refine .ok (.some ?_)
          exact reading.multiply (List.cons_ne_nil _ _) (.cons hFirst hRest)

theorem productContributions {tensors : List TensorCode} {values : List (TensorValue V)}
    {scalars : List Entry} {scalarValues : List (Option V)}
    (hTensors : List.Forall₂ reading.CodeDenotes tensors values)
    (hScalars : List.Forall₂ reading.EntryDenotes scalars scalarValues) :
    Agree (List.Forall₂ (EntryRelated (List.Forall₂ reading.Denotes)))
      (TensorCode.productContributions dialect tensors scalars)
      (.ok (TensorValue.productContributions values scalarValues)) := by
  refine Agree.mapM_ok (forall₂_entryChoices hTensors) fun chosen chosen' hChosen => ?_
  have hFactors := List.rel_append hChosen.2 hScalars
  refine Agree.bind_ok (productEntry hFactors) fun product hProduct => ?_
  exact .ok ⟨congrArg Key.sorted hChosen.1, forall₂_toList hProduct⟩

theorem productCode {operands : List TensorCode} {values : List (TensorValue V)}
    (hOperands : List.Forall₂ reading.CodeDenotes operands values)
    (hExact : ∀ contributions,
      TensorCode.productContributions dialect (operands.filter SortedMap.isTensor)
          (operands.filterMap SortedMap.asScalar?) = .ok contributions →
        TermsMeet reading.Exact contributions) :
    Agree reading.CodeDenotes (TensorCode.product dialect operands)
      (.ok (TensorValue.product values)) := by
  have hTensors := forall₂_filter_isTensor hOperands
  have hScalars := forall₂_filterMap_asScalar? hOperands
  simp only [TensorCode.product, TensorValue.product, isEmpty_eq_of_forall₂ hTensors]
  split
  · -- Without tensors there is one component, the product of the scalars.
    refine Agree.bind_ok (productEntry hScalars) fun entry hEntry => ?_
    exact .ok (SortedMap.Related.singleton [] hEntry)
  · obtain ⟨contributions, hContributions, hTerms⟩ := (productContributions hTensors hScalars).ok_of_ok
    rw [hContributions]
    exact addContributions hTerms (hExact contributions hContributions)

/-! ### Quotients and functions -/

theorem divisionCode {operands : List TensorCode} {values : List (TensorValue V)}
    (hOperands : List.Forall₂ reading.CodeDenotes operands values) :
    Agree reading.CodeDenotes (TensorCode.division dialect operands)
      (TensorValue.division values) := by
  match operands, values, hOperands with
  | [], [], .nil => exact .error
  | [_], [_], .cons _ .nil => exact .error
  | [numerator, denominator], [value, other], .cons hNumerator (.cons hDenominator .nil) =>
    have hScalar := hDenominator.asScalar?
    simp only [TensorCode.division, TensorValue.division]
    generalize denominator.asScalar? = divisor at hScalar ⊢
    generalize other.asScalar? = divisorValue at hScalar ⊢
    cases hScalar with
    | none => exact .error
    | some hDivisor =>
        cases hDivisor with
        | none => exact .error
        | @some divisor divisorValue hDivisor =>
            refine .ok ?_
            refine hNumerator.mapValues fun entry entryValue hEntry => ?_
            cases hEntry with
            | none => exact .none
            | @some token tokenValue hToken =>
                refine .some ?_
                split
                · -- A divisor that is written like one is one.
                  rename_i hOne
                  have hValue : divisorValue = 1 := reading.unique (hOne ▸ hDivisor) identity
                  show reading.Denotes token (tokenValue / divisorValue)
                  rwa [hValue, reading.div_one]
                · exact reading.divide hToken hDivisor
  | _ :: _ :: _ :: operands, _ :: _ :: _ :: values, .cons _ (.cons _ (.cons _ hRest)) =>
    simp only [TensorCode.division, TensorValue.division, List.length_cons, hRest.length_eq]
    exact .error

theorem onlyScalar (node : String) {operands : List TensorCode} {values : List (TensorValue V)}
    (hOperands : List.Forall₂ reading.CodeDenotes operands values) :
    Agree reading.EntryDenotes (TensorCode.onlyScalar node operands)
      (TensorCode.onlyScalar node values) := by
  match operands, values, hOperands with
  | [], [], .nil => exact .error
  | [operand], [value], .cons hOperand .nil =>
    have hScalar := hOperand.asScalar?
    simp only [TensorCode.onlyScalar]
    generalize operand.asScalar? = entry at hScalar ⊢
    generalize value.asScalar? = entryValue at hScalar ⊢
    cases hScalar with
    | none => exact .error
    | some hEntry => exact .ok hEntry
  | _ :: _ :: operands, _ :: _ :: values, .cons _ (.cons _ hRest) =>
    simp only [TensorCode.onlyScalar, List.length_cons, hRest.length_eq]
    exact .error

theorem absCode {operands : List TensorCode} {values : List (TensorValue V)}
    (hOperands : List.Forall₂ reading.CodeDenotes operands values) :
    Agree reading.CodeDenotes (TensorCode.abs dialect operands) (I.abs values) := by
  refine Agree.bind (onlyScalar "Abs" hOperands) fun entry value hEntry => ?_
  refine .ok (SortedMap.Related.singleton [] ?_)
  cases hEntry with
  | none => exact .none
  | some hToken => exact .some (reading.absolute hToken)

theorem functionCode (function : ElementaryFunction) {operands : List TensorCode}
    {values : List (TensorValue V)} (hOperands : List.Forall₂ reading.CodeDenotes operands values) :
    Agree reading.CodeDenotes (TensorCode.applyFunction dialect function operands)
      (I.applyFunction function values) := by
  refine Agree.bind (onlyScalar function.name hOperands) fun entry value hEntry => ?_
  refine .ok (SortedMap.Related.singleton [] (.some ?_))
  cases hEntry with
  | none => exact reading.elementary function literal_zero
  | some hToken => exact reading.elementary function hToken

end Dialect.Reading

end FormLowering
