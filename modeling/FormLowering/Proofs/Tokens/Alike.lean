import FormLowering.Proofs.Semantics.Relations
import FormLowering.Proofs.Support.Faults
import FormLowering.Proofs.Tokens.Mentions
import FormLowering.Proofs.Traversal.Congruence

/-!
# Tokens that lowering cannot tell apart

Lowering asks of a token whether it is empty and whether it is the literal one, and of
the terms of a sum whether they are written alike.  A token with a character that no
literal has is neither empty nor a literal.  Names, tables and whatever the operations of
an available dialect write are such tokens, however many terms were collapsed.

So tokens that are the same, or both no literals, are *alike*: no operation goes a
different way for one than for the other, and what it writes is alike again.
-/

namespace FormLowering

/-! ### Tokens that are no literals -/

/-- Whether a token has a character that no literal has. -/
def IsNonLiteral (token : Token) : Prop :=
  ¬Binary64.LiteralText token.toList

namespace IsNonLiteral

instance (token : Token) : Decidable (IsNonLiteral token) :=
  inferInstanceAs (Decidable (¬_))

theorem append_left {left : Token} (hLeft : IsNonLiteral left) (right : Token) :
    IsNonLiteral (left ++ right) := by
  intro hText
  rw [String.toList_append] at hText
  exact hLeft (hText.of_subset (List.subset_append_left _ _))

theorem append_right (left : Token) {right : Token} (hRight : IsNonLiteral right) :
    IsNonLiteral (left ++ right) := by
  intro hText
  rw [String.toList_append] at hText
  exact hRight (hText.of_subset (List.subset_append_right _ _))

theorem ne_empty {token : Token} (hToken : IsNonLiteral token) : token ≠ "" := by
  rintro rfl
  exact hToken fun _ hMem => nomatch hMem

theorem ne_literal {token : Token} (hToken : IsNonLiteral token) {dialect : Dialect}
    (hAvailable : dialect.Available) (value : Binary64) : token ≠ dialect.literal value := by
  rintro rfl
  cases hAvailable with
  | calls => exact hToken (.shortestText value)
  | cpp precision => exact hToken (Dialect.literalText_cppLiteral precision value)

theorem call (name : String) (arguments : List Token) :
    IsNonLiteral (Dialect.call name arguments) :=
  append_right _ (by decide)

theorem cppPower (base exponent : Token) : IsNonLiteral (Dialect.cppPower base exponent) :=
  append_right _ (by decide)

end IsNonLiteral

namespace Dialect.Available

variable {dialect : Dialect}

theorem multiply_singleton (hAvailable : dialect.Available) (token : Token) :
    dialect.multiply [token] = token := by
  cases hAvailable with
  | calls => rfl
  | cpp precision =>
      show "*".intercalate [token] = token
      exact String.intercalate_singleton

theorem nonLiteral_multiply (hAvailable : dialect.Available) (first second : Token)
    (rest : List Token) : IsNonLiteral (dialect.multiply (first :: second :: rest)) := by
  cases hAvailable with
  | calls => exact .call _ _
  | cpp precision =>
      show IsNonLiteral ("*".intercalate (first :: second :: rest))
      rw [String.intercalate_cons_cons]
      exact (IsNonLiteral.append_right first (by decide)).append_left _

theorem nonLiteral_group (hAvailable : dialect.Available) (token : Token) :
    IsNonLiteral (dialect.group token) := by
  cases hAvailable with
  | calls => exact .call _ _
  | cpp precision => exact .append_right _ (by decide)

theorem nonLiteral_divide (hAvailable : dialect.Available) (numerator denominator : Token) :
    IsNonLiteral (dialect.divide numerator denominator) := by
  cases hAvailable with
  | calls => exact .call _ _
  | cpp precision => exact (IsNonLiteral.append_right numerator (by decide)).append_left _

theorem nonLiteral_power (hAvailable : dialect.Available) (base : Token) (exponent : Int) :
    IsNonLiteral (dialect.power base exponent) := by
  cases hAvailable with
  | calls => exact .call _ _
  | cpp precision => exact .cppPower _ _

theorem nonLiteral_generalPower (hAvailable : dialect.Available) (base exponent : Token) :
    IsNonLiteral (dialect.generalPower base exponent) := by
  cases hAvailable with
  | calls => exact .call _ _
  | cpp precision => exact .cppPower _ _

theorem nonLiteral_absolute (hAvailable : dialect.Available) (token : Token) :
    IsNonLiteral (dialect.absolute token) := by
  cases hAvailable with
  | calls => exact .call _ _
  | cpp precision => exact .append_right _ (by decide)

theorem nonLiteral_elementary (hAvailable : dialect.Available) (function : ElementaryFunction)
    (token : Token) : IsNonLiteral (dialect.elementary function token) := by
  cases hAvailable with
  | calls => exact .call _ _
  | cpp precision => exact .append_right _ (by decide)

theorem nonLiteral_reciprocal (hAvailable : dialect.Available) (token : Token) :
    IsNonLiteral (dialect.reciprocal token) := by
  cases hAvailable with
  | calls => exact .call _ _
  | cpp precision => exact .append_right _ (by decide)

/-- The sum of several terms is a group, or a multiple of the only term that they are. -/
theorem addTerms_several (hAvailable : dialect.Available) {terms : List Token}
    (hSeveral : 1 < terms.length) :
    ∃ token, dialect.addTerms terms = .ok (some token) ∧ IsNonLiteral token := by
  have hTerms : terms ≠ [] := by
    rintro rfl
    contradiction
  unfold Dialect.addTerms Dialect.collapse
  rw [if_pos hSeveral]
  have hCounts := sum_tally terms
  match hTally : tally terms with
  | [] => exact absurd hTally (tally_ne_nil hTerms)
  | [(term, count)] =>
    obtain rfl : count = terms.length := by simpa [hTally] using hCounts
    have hRepeated : IsNonLiteral (dialect.repeated term terms.length) := by
      rw [Dialect.repeated, if_pos hSeveral]
      exact hAvailable.nonLiteral_multiply _ _ _
    exact ⟨_, rfl, hRepeated⟩
  | _ :: _ :: _ => exact ⟨_, rfl, hAvailable.nonLiteral_group _⟩

end Dialect.Available

/-! ### Tokens that are alike -/

/-- Whether tokens are the same, or neither is a literal. -/
def Alike (token token' : Token) : Prop :=
  token = token' ∨ IsNonLiteral token ∧ IsNonLiteral token'

namespace Alike

variable {token token' : Token}

theorem refl (token : Token) : Alike token token :=
  .inl rfl

theorem nonLiteral (hToken : IsNonLiteral token) (hToken' : IsNonLiteral token') :
    Alike token token' :=
  .inr ⟨hToken, hToken'⟩

theorem eq_empty_iff (hTokens : Alike token token') : token = "" ↔ token' = "" := by
  rcases hTokens with rfl | ⟨hToken, hToken'⟩
  · exact Iff.rfl
  · exact iff_of_false hToken.ne_empty hToken'.ne_empty

theorem eq_identity_iff (hTokens : Alike token token') {dialect : Dialect}
    (hAvailable : dialect.Available) : token = dialect.identity ↔ token' = dialect.identity := by
  rcases hTokens with rfl | ⟨hToken, hToken'⟩
  · exact Iff.rfl
  · exact iff_of_false (hToken.ne_literal hAvailable _) (hToken'.ne_literal hAvailable _)

end Alike

namespace Dialect.Available

variable {dialect : Dialect}

theorem alike_multiply (hAvailable : dialect.Available) {tokens tokens' : List Token}
    (hNonempty : tokens ≠ []) (hTokens : List.Forall₂ Alike tokens tokens') :
    Alike (dialect.multiply tokens) (dialect.multiply tokens') := by
  match tokens, tokens', hTokens with
  | [token], [token'], .cons hToken .nil =>
    rwa [hAvailable.multiply_singleton, hAvailable.multiply_singleton]
  | _ :: _ :: _, _ :: _ :: _, .cons _ (.cons _ _) =>
    exact .nonLiteral (hAvailable.nonLiteral_multiply _ _ _) (hAvailable.nonLiteral_multiply _ _ _)

theorem alike_addTerms (hAvailable : dialect.Available) {terms terms' : List Token}
    (hTerms : List.Forall₂ Alike terms terms') :
    Agree (Option.Rel Alike) (dialect.addTerms terms) (dialect.addTerms terms') := by
  match terms, terms', hTerms with
  | [], [], .nil => exact .ok .none
  | [_], [_], .cons hTerm .nil => exact .ok (.some hTerm)
  | first :: second :: rest, first' :: second' :: rest', .cons _ (.cons _ _) =>
    have hSeveral (first second : Token) (rest : List Token) :
        1 < (first :: second :: rest).length := Nat.succ_lt_succ (Nat.succ_pos _)
    obtain ⟨token, hRun, hToken⟩ := hAvailable.addTerms_several (hSeveral first second rest)
    obtain ⟨token', hRun', hToken'⟩ := hAvailable.addTerms_several (hSeveral first' second' rest')
    rw [hRun, hRun']
    exact .ok (.some (.nonLiteral hToken hToken'))

theorem alike_properFactors (hAvailable : dialect.Available) {factors factors' : List Entry}
    (hFactors : List.Forall₂ (Option.Rel Alike) factors factors') :
    Agree (Option.Rel (List.Forall₂ Alike)) (dialect.properFactors factors)
      (dialect.properFactors factors') := by
  induction hFactors with
  | nil => exact .ok (.some .nil)
  | @cons factor factor' rest rest' hFactor _ ih =>
      cases hFactor with
      | none => exact .ok .none
      | @some token token' hTokens =>
          rw [Dialect.properFactors, Dialect.properFactors]
          by_cases hEmpty : token = ""
          · rw [if_pos hEmpty, if_pos (hTokens.eq_empty_iff.mp hEmpty)]
            exact .error
          · rw [if_neg hEmpty, if_neg (hEmpty ∘ hTokens.eq_empty_iff.mpr)]
            refine Agree.bind ih fun others others' hOthers => .ok ?_
            cases hOthers with
            | none => exact .none
            | some hOthers =>
                -- A factor one is left out on both sides.
                refine .some ?_
                simp only [hTokens.eq_identity_iff hAvailable]
                split
                · exact hOthers
                · exact .cons hTokens hOthers

theorem alike_productEntry (hAvailable : dialect.Available) {factors factors' : List Entry}
    (hFactors : List.Forall₂ (Option.Rel Alike) factors factors') :
    Agree (Option.Rel Alike) (dialect.productEntry factors) (dialect.productEntry factors') := by
  refine Agree.bind (hAvailable.alike_properFactors hFactors) fun proper proper' hProper => ?_
  match proper, proper', hProper with
  | none, none, .none => exact .ok .none
  | some [], some [], .some .nil => exact .ok (.some (.refl _))
  | some (_ :: _), some (_ :: _), .some (.cons hFirst hRest) =>
    exact .ok (.some (hAvailable.alike_multiply (List.cons_ne_nil _ _) (.cons hFirst hRest)))

/-! ### Codes -/

variable {codes codes' : List TensorCode}

theorem alike_sum (hAvailable : dialect.Available)
    (hCodes : List.Forall₂ (TensorCode.Related Alike) codes codes') :
    Agree (TensorCode.Related Alike) (TensorCode.sum dialect codes)
      (TensorCode.sum dialect codes') :=
  (SortedMap.Related.gather (forall₂_sumContributions hCodes)).traverse_both
    fun _ _ => hAvailable.alike_addTerms

theorem alike_product (hAvailable : dialect.Available)
    (hCodes : List.Forall₂ (TensorCode.Related Alike) codes codes') :
    Agree (TensorCode.Related Alike) (TensorCode.product dialect codes)
      (TensorCode.product dialect codes') := by
  have hTensors := forall₂_filter_isTensor hCodes
  have hScalars := forall₂_filterMap_asScalar? hCodes
  unfold TensorCode.product
  simp only [isEmpty_eq_of_forall₂ hTensors]
  split
  · exact Agree.bind (hAvailable.alike_productEntry hScalars) fun _ _ hEntries =>
      .ok (SortedMap.Related.singleton [] hEntries)
  · have hContributions : Agree (List.Forall₂ (EntryRelated (List.Forall₂ Alike)))
        (TensorCode.productContributions dialect (codes.filter SortedMap.isTensor)
          (codes.filterMap SortedMap.asScalar?))
        (TensorCode.productContributions dialect (codes'.filter SortedMap.isTensor)
          (codes'.filterMap SortedMap.asScalar?)) := by
      refine Agree.mapM (forall₂_entryChoices hTensors) fun chosen chosen' hChosen => ?_
      refine Agree.bind (hAvailable.alike_productEntry (List.rel_append hChosen.2 hScalars))
        fun _ _ hEntries => .ok ⟨congrArg Key.sorted hChosen.1, forall₂_toList hEntries⟩
    exact Agree.bind hContributions fun _ _ hEntries =>
      (SortedMap.Related.gather hEntries).traverse_both fun _ _ => hAvailable.alike_addTerms

theorem alike_division (hAvailable : dialect.Available)
    (hCodes : List.Forall₂ (TensorCode.Related Alike) codes codes') :
    Agree (TensorCode.Related Alike) (TensorCode.division dialect codes)
      (TensorCode.division dialect codes') := by
  match codes, codes', hCodes with
  | [], [], .nil => exact .error
  | [_], [_], .cons _ .nil => exact .error
  | [numerator, denominator], [numerator', denominator'], .cons hNumerator (.cons hDenominator .nil) =>
    have hDivisor := hDenominator.asScalar?
    simp only [TensorCode.division]
    generalize denominator.asScalar? = divisor at hDivisor ⊢
    generalize denominator'.asScalar? = divisor' at hDivisor ⊢
    cases hDivisor with
    | none => exact .error
    | some hDivisor =>
        cases hDivisor with
        | none => exact .error
        | some hTokens =>
            refine .ok (hNumerator.mapValues fun entry entry' hEntries => ?_)
            cases hEntries with
            | none => exact .none
            | some hValues =>
                simp only [Option.map_some, hTokens.eq_identity_iff hAvailable]
                split
                · exact .some hValues
                · exact .some (.nonLiteral (hAvailable.nonLiteral_divide _ _)
                    (hAvailable.nonLiteral_divide _ _))
  | _ :: _ :: _ :: _, _ :: _ :: _ :: _, .cons _ (.cons _ (.cons _ hRest)) =>
    unfold TensorCode.division
    simp only [List.length_cons, hRest.length_eq]
    exact .error

theorem alike_onlyScalar (node : String)
    (hCodes : List.Forall₂ (TensorCode.Related Alike) codes codes') :
    Agree (Option.Rel Alike) (TensorCode.onlyScalar node codes)
      (TensorCode.onlyScalar node codes') := by
  match codes, codes', hCodes with
  | [], [], .nil => exact .error
  | [operand], [operand'], .cons hOperand .nil =>
    have hScalar := hOperand.asScalar?
    simp only [TensorCode.onlyScalar]
    generalize operand.asScalar? = entry at hScalar ⊢
    generalize operand'.asScalar? = entry' at hScalar ⊢
    cases hScalar with
    | none => exact .error
    | some hEntries => exact .ok hEntries
  | _ :: _ :: _, _ :: _ :: _, .cons _ (.cons _ hRest) =>
    unfold TensorCode.onlyScalar
    simp only [List.length_cons, hRest.length_eq]
    exact .error

/-- Operations fail alike on codes with tokens that are alike, or make such codes. -/
theorem alike_combine (hAvailable : dialect.Available) (operation : Operation)
    (hCodes : List.Forall₂ (TensorCode.Related Alike) codes codes') :
    Agree (TensorCode.Related Alike) (operation.combine dialect codes)
      (operation.combine dialect codes') := by
  cases operation with
  | sum => exact hAvailable.alike_sum hCodes
  | product => exact hAvailable.alike_product hCodes
  | division => exact hAvailable.alike_division hCodes
  | abs =>
      refine Agree.bind (alike_onlyScalar "Abs" hCodes) fun _ _ hEntries => .ok ?_
      refine SortedMap.Related.singleton [] ?_
      cases hEntries with
      | none => exact .none
      | some _ => exact .some (.nonLiteral (hAvailable.nonLiteral_absolute _)
          (hAvailable.nonLiteral_absolute _))
  | elementary function =>
      exact Agree.bind (alike_onlyScalar function.name hCodes) fun _ _ _ =>
        .ok (SortedMap.Related.singleton [] (.some (.nonLiteral
          (hAvailable.nonLiteral_elementary function _)
          (hAvailable.nonLiteral_elementary function _))))

end Dialect.Available

end FormLowering
