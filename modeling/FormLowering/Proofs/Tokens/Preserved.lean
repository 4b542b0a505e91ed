import FormLowering.Proofs.Support.Arithmetic
import FormLowering.Proofs.Tokens.Tally
import FormLowering.Proofs.Traversal.Outcomes

/-!
# Properties of all tokens of a code

A property of tokens that every operation of a dialect preserves holds of all tokens of
the code of a node, if it holds of all tokens of the codes of its operands.  Merging keys,
collapsing equal terms and leaving out ones bring in no tokens but literals.
-/

namespace FormLowering

open LowerM

/-- Whether all tokens of a code have a property. -/
def TensorCode.AllTokens (property : Token → Prop) (code : TensorCode) : Prop :=
  ∀ key token, (key, some token) ∈ code.entries → property token

namespace TensorCode.AllTokens

variable {property : Token → Prop}

theorem mono {weaker : Token → Prop} {code : TensorCode} (hCode : code.AllTokens property)
    (hWeaker : ∀ token, property token → weaker token) : code.AllTokens weaker :=
  fun key token hMem => hWeaker token (hCode key token hMem)

theorem scalar {entry : Entry} (hEntry : ∀ token, entry = some token → property token) :
    (TensorCode.scalar entry).AllTokens property := by
  intro key token hMem
  obtain ⟨-, hToken⟩ : key = [] ∧ some token = entry := by
    simpa [TensorCode.scalar, SortedMap.singleton] using hMem
  exact hEntry token hToken.symm

end TensorCode.AllTokens

/-- Whether a property of tokens is preserved by the operations of a dialect. -/
structure Dialect.Preserves (dialect : Dialect) (property : Token → Prop) : Prop where
  literal : ∀ value, property (dialect.literal value)
  multiply : ∀ {tokens}, tokens ≠ [] → (∀ token ∈ tokens, property token) →
    property (dialect.multiply tokens)
  sum : ∀ {tokens}, tokens ≠ [] → (∀ token ∈ tokens, property token) →
    property (dialect.group (dialect.add tokens))
  divide : ∀ {numerator denominator}, property numerator → property denominator →
    property (dialect.divide numerator (dialect.group denominator))
  power : ∀ {base} exponent, property base → property (dialect.power base exponent)
  generalPower : ∀ {base exponent}, property base → property exponent →
    property (dialect.generalPower base exponent)
  absolute : ∀ {token}, property token → property (dialect.absolute token)
  elementary : ∀ function {token}, property token → property (dialect.elementary function token)

/-- A value that is chosen stands in an entry of one of the operands. -/
theorem exists_of_mem_entryChoices {operands : List TensorCode} {chosen : Key × List Entry}
    (hChosen : chosen ∈ entryChoices operands) {value : Entry} (hValue : value ∈ chosen.2) :
    ∃ operand ∈ operands, ∃ key, (key, value) ∈ operand.entries := by
  unfold entryChoices at hChosen
  split at hChosen
  · cases hChosen
  · obtain ⟨entries, hEntries, rfl⟩ := List.mem_map.mp hChosen
    rw [mem_choices, List.forall₂_map_right_iff] at hEntries
    obtain ⟨⟨key, _⟩, hFactor, rfl⟩ := List.mem_map.mp hValue
    obtain ⟨operand, hOperand, hOwn⟩ := exists_of_mem_left hEntries hFactor
    exact ⟨operand, hOperand, key, hOwn⟩

namespace Dialect.Preserves

variable {dialect : Dialect} {property : Token → Prop}

/-! ### Sums -/

theorem join (hPreserves : dialect.Preserves property) {terms : List Token}
    (hTerms : ∀ term ∈ terms, property term) {token : Token}
    (hToken : dialect.join terms = some token) : property token := by
  match terms with
  | [] => cases hToken
  | [_] =>
    cases hToken
    exact hTerms _ List.mem_cons_self
  | first :: second :: rest =>
    cases hToken
    exact hPreserves.sum (List.cons_ne_nil _ _) hTerms

theorem collapse (hPreserves : dialect.Preserves property) {terms : List Token}
    (hTerms : ∀ term ∈ terms, property term) : ∀ term ∈ dialect.collapse terms, property term := by
  intro term hMem
  obtain ⟨counted, hCounted, rfl⟩ := List.mem_map.mp hMem
  have hTerm : property counted.1 := hTerms _ (mem_of_mem_tally hCounted)
  unfold Dialect.repeated
  split
  · refine hPreserves.multiply (List.cons_ne_nil _ _) ?_
    simpa using ⟨hPreserves.literal _, hTerm⟩
  · exact hTerm

theorem addTerms (hPreserves : dialect.Preserves property) {terms : List Token}
    (hTerms : ∀ term ∈ terms, property term) {token : Token}
    (hToken : dialect.addTerms terms = .ok (some token)) : property token := by
  unfold Dialect.addTerms at hToken
  split at hToken
  · simp only at hToken
    split at hToken
    · contradiction
    · have hJoin : dialect.join (dialect.collapse terms) = some token := Except.ok.inj hToken
      exact hPreserves.join (hPreserves.collapse hTerms) hJoin
  · have hHead : terms.head? = some token := Except.ok.inj hToken
    exact hTerms token (List.mem_of_head? hHead)

theorem gather (hPreserves : dialect.Preserves property) {contributions : List (Key × List Token)}
    (hTerms : ∀ contribution ∈ contributions, ∀ term ∈ contribution.2, property term)
    {code : TensorCode}
    (hCode : (SortedMap.gather contributions).traverse dialect.addTerms = .ok code) :
    code.AllTokens property := by
  intro key token hMem
  obtain ⟨terms, hGathered, hSum⟩ :=
    (SortedMap.related_of_traverse hCode).symm.exists_of_mem_left hMem
  refine hPreserves.addTerms (fun term hTerm => ?_) hSum
  obtain ⟨part, hPart, hIn⟩ := (SortedMap.mem_gathered hGathered).mp hTerm
  exact hTerms _ hPart term hIn

/-! ### Products -/

theorem productEntry (hPreserves : dialect.Preserves property) {factors : List Entry}
    (hFactors : ∀ token, some token ∈ factors → property token) {token : Token}
    (hProduct : dialect.productEntry factors = .ok (some token)) : property token := by
  obtain ⟨tokens, rfl, rfl⟩ := productEntry_eq_some hProduct
  split
  · exact hPreserves.literal .one
  · refine hPreserves.multiply ‹_› fun token hMem => hFactors token ?_
    exact List.mem_map_of_mem (List.mem_of_mem_filter hMem)

theorem product (hPreserves : dialect.Preserves property) {operands : List TensorCode}
    (hOperands : ∀ operand ∈ operands, operand.AllTokens property) {code : TensorCode}
    (hCode : TensorCode.product dialect operands = .ok code) : code.AllTokens property := by
  have hScalars : ∀ token, some token ∈ operands.filterMap SortedMap.asScalar? → property token := by
    intro token hMem
    obtain ⟨operand, hOperand, hScalar⟩ := List.mem_filterMap.mp hMem
    obtain rfl := TensorCode.eq_scalar_of_asScalar? hScalar
    exact hOperands _ hOperand [] token List.mem_cons_self
  simp only [TensorCode.product] at hCode
  split at hCode
  · obtain ⟨entry, hEntry, hCode⟩ := exists_of_bind_ok hCode
    cases hCode
    intro key token hMem
    obtain ⟨rfl, rfl⟩ : key = [] ∧ some token = entry := by
      simpa [TensorCode.scalar, SortedMap.singleton] using hMem
    exact hPreserves.productEntry hScalars hEntry
  · obtain ⟨contributions, hContributions, hCode⟩ := exists_of_bind_ok hCode
    refine hPreserves.gather (fun contribution hMem term hTerm => ?_) hCode
    obtain ⟨chosen, hChosen, hRun⟩ := exists_of_mem_right (forall₂_of_mapM_ok hContributions) hMem
    obtain ⟨entry, hEntry, hRun⟩ := exists_of_bind_ok hRun
    cases hRun
    have hEntryToken : entry = some term := by simpa using hTerm
    subst hEntryToken
    refine hPreserves.productEntry (fun token hFactor => ?_) hEntry
    rcases List.mem_append.mp hFactor with hIn | hIn
    · obtain ⟨operand, hOperand, key, hOwn⟩ := exists_of_mem_entryChoices hChosen hIn
      exact hOperands operand (List.mem_of_mem_filter hOperand) key token hOwn
    · exact hScalars token hIn

/-! ### Nodes -/

theorem division (hPreserves : dialect.Preserves property) {operands : List TensorCode}
    (hOperands : ∀ operand ∈ operands, operand.AllTokens property) {code : TensorCode}
    (hCode : TensorCode.division dialect operands = .ok code) : code.AllTokens property := by
  unfold TensorCode.division at hCode
  split at hCode
  · rename_i numerator denominator
    rw [List.forall_mem_cons, List.forall_mem_singleton] at hOperands
    split at hCode
    · contradiction
    · contradiction
    · rename_i divisor hDivisor
      cases hCode
      have hOwn : property divisor := by
        rw [TensorCode.eq_scalar_of_asScalar? hDivisor] at hOperands
        exact hOperands.2 [] divisor List.mem_cons_self
      intro key token hMem
      obtain ⟨⟨_, entry⟩, hEntry, hToken⟩ := List.mem_map.mp hMem
      obtain ⟨rfl, hQuotient⟩ := Prod.mk.inj hToken
      obtain ⟨value, rfl, rfl⟩ := Option.map_eq_some_iff.mp hQuotient
      split
      · exact hOperands.1 _ value hEntry
      · exact hPreserves.divide (hOperands.1 _ value hEntry) hOwn
  · contradiction

/-- Operations on codes preserve what operations on tokens do. -/
theorem combine (hPreserves : dialect.Preserves property) (operation : Operation)
    {codes : List TensorCode} (hCodes : ∀ code ∈ codes, code.AllTokens property) {code : TensorCode}
    (hCode : operation.combine dialect codes = .ok code) : code.AllTokens property := by
  cases operation with
  | sum =>
      refine hPreserves.gather (fun contribution hMem term hTerm => ?_) hCode
      obtain ⟨operand, hOperand, entry, hEntry, hTerms⟩ := TensorCode.mem_sumContributions.mp hMem
      have hToken : entry = some term := by simpa [← hTerms] using hTerm
      exact hCodes operand hOperand _ term (hToken ▸ hEntry)
  | product => exact hPreserves.product hCodes hCode
  | division => exact hPreserves.division hCodes hCode
  | abs =>
      obtain ⟨entry, rfl, rfl⟩ := TensorCode.abs_eq_ok hCode
      refine .scalar fun token hToken => ?_
      obtain ⟨operand, rfl, rfl⟩ := Option.map_eq_some_iff.mp hToken
      exact hPreserves.absolute (hCodes _ List.mem_cons_self [] operand List.mem_cons_self)
  | elementary function =>
      obtain ⟨entry, rfl, rfl⟩ := TensorCode.applyFunction_eq_ok hCode
      refine .scalar fun token hToken => ?_
      cases hToken
      apply hPreserves.elementary
      cases entry with
      | none => exact hPreserves.literal .zero
      | some operand => exact hCodes _ List.mem_cons_self [] operand List.mem_cons_self

variable {backend : Backend} {context : LoweringContext}

/-- So does a power, whose exponent counts only if it is lowered. -/
theorem power_node (hPreserves : backend.dialect.Preserves property) {base exponent : Expr}
    (hBase : ∀ {code}, (backend.lower base context).Returns code → code.AllTokens property)
    (hExponent : ∀ {baseCode token code}, (backend.lower base context).Returns baseCode →
      baseCode.asScalar? = some (some token) → exponent.exponentForm = .function →
        (backend.lower exponent context).Returns code → code.AllTokens property)
    {code : TensorCode} (hReturns : (backend.lower (.power base exponent) context).Returns code) :
    code.AllTokens property := by
  obtain ⟨baseCode, entry, power, hBaseCode, hScalar, rfl, hPower⟩ :=
    Backend.returns_power hReturns
  have hIdentity : property backend.dialect.identity := hPreserves.literal .one
  refine .scalar ?_
  rintro token rfl
  cases entry with
  | none =>
      -- A power of symbolic zero is one, if it is a token.
      have hOne : token = backend.dialect.identity := by
        have hZero : exponent.exponentForm.powerOfZero backend.dialect.identity =
            .ok (some token) := hPower
        unfold ExponentForm.powerOfZero at hZero
        split at hZero <;> cases hZero
        rfl
      rwa [hOne]
  | some base =>
      obtain ⟨result, hResult, hPower⟩ := hPower
      cases hResult
      have hOwn : property base := by
        have hAll := hBase hBaseCode
        rw [TensorCode.eq_scalar_of_asScalar? hScalar] at hAll
        exact hAll [] base List.mem_cons_self
      rcases Backend.returns_powerOf hPower with ⟨value, -, rfl⟩ | ⟨value, -, rfl⟩ |
        ⟨hForm, exponentCode, exponentEntry, hExponentCode, hEntry, rfl⟩
      · exact hPreserves.power value hOwn
      · exact hPreserves.generalPower hOwn (hPreserves.literal value)
      · cases exponentEntry with
        | none => exact hIdentity
        | some power =>
            have hAll := hExponent hBaseCode hScalar hForm hExponentCode
            rw [TensorCode.eq_scalar_of_asScalar? hEntry] at hAll
            exact hPreserves.generalPower hOwn (hAll [] power List.mem_cons_self)

end Dialect.Preserves

end FormLowering
