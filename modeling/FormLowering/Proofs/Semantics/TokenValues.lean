import FormLowering.Proofs.Semantics.ProductValue
import FormLowering.Proofs.Semantics.TensorArithmetic
import FormLowering.Proofs.Support.Arithmetic
import FormLowering.Proofs.Tokens.Preserved

/-!
# Values of the tokens of a product

A dialect need not be read for its products to make sense.  It is enough that every token
has a value, and that the tokens which a product is made of have the right ones: the
operands are multiplied one token each, products that are written alike are counted, and
what meets under a key is added up.  Nothing is asked of any other token.

A reading gives such values, as long as no count is too large for it.
-/

namespace FormLowering

variable {V : Type} [CommSemiring V]

/-- The value of an entry, if every token has a value.  Symbolic zero has the value zero. -/
def Entry.value (value : Token → V) (entry : Entry) : V :=
  (entry.map value).getD 0

/-! ### The tokens involved -/

namespace TensorCode

/-- Whether there is a token of each operand. -/
def Selects (operands : List TensorCode) (tokens : List Token) : Prop :=
  List.Forall₂ (fun operand token => ∃ key, (key, some token) ∈ operand.entries) operands tokens

/-- The number of ways to choose an entry of each operand. -/
def choiceCount (operands : List TensorCode) : Nat :=
  (operands.map (·.size)).prod

end TensorCode

namespace Dialect

variable (dialect : Dialect) (operands : List TensorCode)

/-- Whether tokens are the factors of a product: a token of each operand, in any order and
without the literal ones. -/
def Factors (factors : List Token) : Prop :=
  ∃ tokens, TensorCode.Selects operands tokens ∧
    factors.Perm (tokens.filter (· ≠ dialect.identity))

/-- Whether a token is the product of a token of each operand. -/
def IsProduct (token : Token) : Prop :=
  ∃ factors, dialect.Factors operands factors ∧
    token = if factors = [] then dialect.identity else dialect.multiply factors

/-- Whether a token is a term of the product of the operands: a product of tokens that
occurs a number of times. -/
def IsTerm (token : Token) : Prop :=
  ∃ product count, dialect.IsProduct operands product ∧ 0 < count ∧
    count ≤ TensorCode.choiceCount operands ∧ token = dialect.repeated product count

/-- Whether the operations that a product of the operands is made of mean what they are
named for, and counts mean themselves.  Sums are only written in groups. -/
structure Interprets (value : Token → V) : Prop where
  one : value dialect.identity = 1
  multiply : ∀ {factors}, dialect.Factors operands factors → factors ≠ [] →
    value (dialect.multiply factors) = (factors.map value).prod
  count : ∀ {count : Nat}, 1 < count → count ≤ TensorCode.choiceCount operands →
    value (dialect.literal (.ofNat count)) = count
  counted : ∀ {count product}, 1 < count → count ≤ TensorCode.choiceCount operands →
    dialect.IsProduct operands product →
      value (dialect.multiply [dialect.literal (.ofNat count), product]) =
        value (dialect.literal (.ofNat count)) * value product
  sum : ∀ {terms}, 1 < terms.length → terms.length ≤ TensorCode.choiceCount operands →
    (∀ term ∈ terms, dialect.IsTerm operands term) →
      value (dialect.group (dialect.add terms)) = (terms.map value).sum

end Dialect

/-! ### Products of entries -/

namespace Dialect

variable {dialect : Dialect} {value : Token → V}

/-- Literal ones can be left out of a product. -/
theorem prod_filter_identity (hOne : value dialect.identity = 1) (tokens : List Token) :
    ((tokens.filter (· ≠ dialect.identity)).map value).prod = (tokens.map value).prod := by
  induction tokens with
  | nil => rfl
  | cons token rest ih =>
      by_cases hToken : token = dialect.identity
      · subst hToken
        simpa [hOne] using ih
      · simpa [hToken] using congrArg (value token * ·) ih

/-- The value of a product of entries is the product of their values. -/
theorem value_productEntry {factors : List Entry} {entry : Entry}
    (hOne : value dialect.identity = 1)
    (hMultiply : ∀ {tokens : List Token}, factors = tokens.map some →
      tokens.filter (· ≠ dialect.identity) ≠ [] →
        value (dialect.multiply (tokens.filter (· ≠ dialect.identity))) =
          ((tokens.filter (· ≠ dialect.identity)).map value).prod)
    (hProduct : dialect.productEntry factors = .ok entry) :
    entry.value value = (factors.map (Entry.value value)).prod := by
  cases entry with
  | none =>
      -- A symbolic zero among the factors has the value zero.
      have hZero : none ∈ factors := by simpa using isSome_productEntry hProduct
      exact (List.prod_eq_zero (List.mem_map.mpr ⟨none, hZero, rfl⟩)).symm
  | some token =>
      obtain ⟨tokens, rfl, rfl⟩ := productEntry_eq_some hProduct
      have hValues : ((tokens.map some).map (Entry.value value)).prod =
          ((tokens.filter (· ≠ dialect.identity)).map value).prod := by
        rw [prod_filter_identity hOne, List.map_map]
        rfl
      rw [hValues]
      split
      · rename_i hNone
        rw [hNone]
        exact hOne
      · exact hMultiply rfl ‹_›

/-! ### Sums of terms -/

theorem value_join {terms : List Token}
    (hSum : 1 < terms.length →
      value (dialect.group (dialect.add terms)) = (terms.map value).sum) :
    Entry.value value (dialect.join terms) = (terms.map value).sum := by
  match terms with
  | [] => rfl
  | [term] => simp [join, Entry.value]
  | first :: second :: rest => exact hSum (by simp)

/-- What products that meet are collapsed to are terms. -/
theorem isTerm_of_mem_collapse {operands : List TensorCode} {terms : List Token}
    (hTerms : ∀ term ∈ terms, dialect.IsProduct operands term)
    (hLength : terms.length ≤ TensorCode.choiceCount operands) :
    ∀ term ∈ dialect.collapse terms, dialect.IsTerm operands term := by
  intro term hTerm
  obtain ⟨counted, hCounted, rfl⟩ := List.mem_map.mp hTerm
  obtain ⟨hProduct, hPositive⟩ := forall_mem_tally hTerms counted hCounted
  exact ⟨counted.1, counted.2, hProduct, hPositive,
    (count_le_of_mem_tally hCounted).trans hLength, rfl⟩

namespace Interprets

variable {operands : List TensorCode} (hValue : dialect.Interprets operands value)
include hValue

theorem value_repeated {product : Token} {count : Nat}
    (hProduct : dialect.IsProduct operands product) (hPositive : 0 < count)
    (hCount : count ≤ TensorCode.choiceCount operands) :
    value (dialect.repeated product count) = count * value product := by
  unfold Dialect.repeated
  split
  · rename_i hSeveral
    rw [hValue.counted hSeveral hCount hProduct, hValue.count hSeveral hCount]
  · obtain rfl : count = 1 := by omega
    rw [Nat.cast_one, one_mul]

variable {terms : List Token} (hTerms : ∀ term ∈ terms, dialect.IsProduct operands term)
  (hLength : terms.length ≤ TensorCode.choiceCount operands)
include hTerms hLength

/-- Collapsed terms are counted rightly. -/
theorem value_collapse :
    ((dialect.collapse terms).map value).sum = (terms.map value).sum := by
  rw [← sum_tally_map value terms, collapse, List.map_map]
  congr 1
  refine List.map_congr_left fun counted hCounted => ?_
  obtain ⟨hProduct, hPositive⟩ := forall_mem_tally hTerms counted hCounted
  exact hValue.value_repeated hProduct hPositive ((count_le_of_mem_tally hCounted).trans hLength)

/-- The value of a sum of products is the sum of their values. -/
theorem value_addTerms {entry : Entry} (hEntry : dialect.addTerms terms = .ok entry) :
    entry.value value = (terms.map value).sum := by
  unfold addTerms at hEntry
  split at hEntry
  · dsimp only at hEntry
    split at hEntry
    · contradiction
    · cases hEntry
      have hShorter : (dialect.collapse terms).length ≤ TensorCode.choiceCount operands := by
        rw [collapse, List.length_map]
        exact (length_tally_le terms).trans hLength
      rw [value_join fun hSeveral =>
        hValue.sum hSeveral hShorter (isTerm_of_mem_collapse hTerms hLength)]
      exact hValue.value_collapse hTerms hLength
  · cases hEntry
    rename_i hFew
    rcases terms with _ | ⟨term, _ | _⟩
    · rfl
    · simp [Entry.value]
    · simp at hFew

end Interprets

end Dialect

/-! ### Choices of entries -/

namespace TensorCode

variable {operands : List TensorCode}

/-- A choice among the tensors is, with the scalars, a token of each operand. -/
theorem exists_selects (hNonempty : ∀ operand ∈ operands, operand.entries ≠ [])
    {chosen : List (Key × Entry)}
    (hChosen : List.Forall₂ (· ∈ ·) chosen ((operands.filter SortedMap.isTensor).map (·.entries)))
    (hTokens : ∀ entry ∈ chosen.map Prod.snd ++ operands.filterMap SortedMap.asScalar?,
      entry.isSome) :
    ∃ tokens, Selects operands tokens ∧
      (tokens.map some).Perm (chosen.map Prod.snd ++ operands.filterMap SortedMap.asScalar?) := by
  induction operands generalizing chosen with
  | nil =>
      cases hChosen
      exact ⟨[], .nil, .refl _⟩
  | cons operand rest ih =>
      rw [List.forall_mem_cons] at hNonempty
      rcases SortedMap.scalar_or_tensor hNonempty.1 with
        ⟨hTensor, hScalar⟩ | ⟨entry, hTensor, hScalar, hEntries⟩
      · rw [List.filter_cons_of_pos hTensor, List.map_cons] at hChosen
        rw [List.filterMap_cons_none hScalar] at hTokens ⊢
        cases hChosen with
        | @cons first others _ _ hFirst hOthers =>
            rw [List.map_cons, List.cons_append, List.forall_mem_cons] at hTokens
            obtain ⟨token, hToken⟩ := Option.isSome_iff_exists.mp hTokens.1
            obtain ⟨tokens, hSelects, hPerm⟩ := ih hNonempty.2 hOthers hTokens.2
            refine ⟨token :: tokens, .cons ⟨first.1, hToken ▸ hFirst⟩ hSelects, ?_⟩
            rw [List.map_cons, List.map_cons, hToken]
            exact hPerm.cons _
      · have hFalse : ¬operand.isTensor = true := by simp [hTensor]
        rw [List.filter_cons_of_neg hFalse] at hChosen
        rw [List.filterMap_cons_some hScalar] at hTokens ⊢
        have hRest : ∀ other ∈ chosen.map Prod.snd ++ rest.filterMap SortedMap.asScalar?,
            other.isSome := fun other hOther => hTokens other (by
          rw [List.mem_append] at hOther ⊢
          exact hOther.imp_right (List.mem_cons_of_mem _))
        obtain ⟨token, rfl⟩ := Option.isSome_iff_exists.mp
          (hTokens entry (List.mem_append_right _ List.mem_cons_self))
        obtain ⟨tokens, hSelects, hPerm⟩ := ih hNonempty.2 hChosen hRest
        refine ⟨token :: tokens, .cons ⟨[], by simp [hEntries]⟩ hSelects, ?_⟩
        exact (hPerm.cons _).trans List.perm_middle.symm

end TensorCode

/-! ### Values from a reading -/

namespace Dialect.Reading

variable [Div V] {dialect : Dialect} {I : Interpretation V} (reading : dialect.Reading I)

open Classical in
/-- The value that a token denotes, or zero if it denotes none. -/
noncomputable def value (token : Token) : V :=
  if hValue : ∃ value, reading.Denotes token value then hValue.choose else 0

variable {reading}

theorem value_eq {token : Token} {value : V} (hValue : reading.Denotes token value) :
    reading.value token = value := by
  have hSome : ∃ value, reading.Denotes token value := ⟨value, hValue⟩
  rw [Reading.value, dif_pos hSome]
  exact reading.unique hSome.choose_spec hValue

/-- Whether a token denotes a value. -/
def IsRead (reading : dialect.Reading I) (token : Token) : Prop :=
  ∃ value, reading.Denotes token value

theorem IsRead.denotes {token : Token} (hToken : reading.IsRead token) :
    reading.Denotes token (reading.value token) := by
  obtain ⟨value, hValue⟩ := hToken
  rwa [value_eq hValue]

theorem forall₂_denotes {tokens : List Token} (hTokens : ∀ token ∈ tokens, reading.IsRead token) :
    List.Forall₂ reading.Denotes tokens (tokens.map reading.value) := by
  rw [List.forall₂_map_right_iff, List.forall₂_same]
  exact fun token hToken => (hTokens token hToken).denotes

variable {operands : List TensorCode}
  (hOperands : ∀ operand ∈ operands, operand.AllTokens reading.IsRead)
include hOperands

theorem isRead_of_factors {factors : List Token} (hFactors : dialect.Factors operands factors) :
    ∀ factor ∈ factors, reading.IsRead factor := by
  obtain ⟨tokens, hSelects, hPerm⟩ := hFactors
  intro factor hFactor
  have hToken : factor ∈ tokens := List.mem_of_mem_filter (hPerm.mem_iff.mp hFactor)
  obtain ⟨operand, hOperand, key, hEntry⟩ := exists_of_mem_right hSelects hToken
  exact hOperands operand hOperand key factor hEntry

theorem isRead_of_isProduct {product : Token} (hProduct : dialect.IsProduct operands product) :
    reading.IsRead product := by
  obtain ⟨factors, hFactors, rfl⟩ := hProduct
  split
  · exact ⟨1, identity⟩
  · exact ⟨_, reading.multiply ‹_› (forall₂_denotes (isRead_of_factors hOperands hFactors))⟩

theorem isRead_of_isTerm (hExact : reading.Exact (TensorCode.choiceCount operands)) {term : Token}
    (hTerm : dialect.IsTerm operands term) : reading.IsRead term := by
  obtain ⟨product, count, hProduct, hPositive, hCount, rfl⟩ := hTerm
  exact ⟨_, repeated (isRead_of_isProduct hOperands hProduct).denotes hPositive
    (reading.exact_of_le hCount hExact)⟩

/-- The values that a reading gives to tokens are right for the products of operands that
can be read, if no count is too large. -/
theorem interprets (hExact : reading.Exact (TensorCode.choiceCount operands)) :
    dialect.Interprets operands reading.value where
  one := value_eq identity
  multiply hFactors hNonempty :=
    value_eq (reading.multiply hNonempty (forall₂_denotes (isRead_of_factors hOperands hFactors)))
  count _ hCount := value_eq (reading.natural (reading.exact_of_le hCount hExact))
  counted := by
    intro count product _ hCount hProduct
    have hNumber := reading.natural (reading.exact_of_le hCount hExact)
    have hFactors : List.Forall₂ reading.Denotes [dialect.literal (.ofNat count), product]
        [(count : V), reading.value product] :=
      .cons hNumber (.cons (isRead_of_isProduct hOperands hProduct).denotes .nil)
    rw [value_eq (reading.multiply (by simp) hFactors), value_eq hNumber]
    simp
  sum := by
    intro terms hSeveral _ hTerms
    have hNonempty : terms ≠ [] := by
      rintro rfl
      simp at hSeveral
    exact value_eq (reading.sum hNonempty
      (forall₂_denotes fun term hTerm => isRead_of_isTerm hOperands hExact (hTerms term hTerm)))

end Dialect.Reading

end FormLowering
