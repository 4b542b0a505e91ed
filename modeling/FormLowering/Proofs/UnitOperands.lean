import FormLowering.Proofs.Reading.Nonempty
import FormLowering.Proofs.Support.Faults
import FormLowering.Proofs.Support.Arithmetic

/-!
# Operands that make no difference

A literal one is no factor of a product, wherever it stands among the operands, and a
symbolic zero adds nothing to a component that is there anyway.  So both leave no trace in
the code, and none in what fails.  The scalars of a product are its last factors, so their
places among the tensors make no difference either.
-/

namespace FormLowering

/-! ### Interleavings -/

/-- Whether a list consists of two others, each in its own order. -/
inductive Interleaves {α : Type} : List α → List α → List α → Prop where
  | nil : Interleaves [] [] []
  | left (value : α) {lefts rights all : List α} (hRest : Interleaves lefts rights all) :
      Interleaves (value :: lefts) rights (value :: all)
  | right (value : α) {lefts rights all : List α} (hRest : Interleaves lefts rights all) :
      Interleaves lefts (value :: rights) (value :: all)

namespace Interleaves

variable {α β : Type} {lefts rights all : List α}

theorem eq_left (hAll : Interleaves lefts [] all) : all = lefts := by
  generalize hNone : [] = rights at hAll
  induction hAll with
  | nil => rfl
  | left value _ ih => rw [ih hNone]
  | right => contradiction

theorem swap (hAll : Interleaves lefts rights all) : Interleaves rights lefts all := by
  induction hAll with
  | nil => exact .nil
  | left value _ ih => exact .right value ih
  | right value _ ih => exact .left value ih

theorem mem_iff (hAll : Interleaves lefts rights all) {value : α} :
    value ∈ all ↔ value ∈ lefts ∨ value ∈ rights := by
  induction hAll with
  | nil => simp
  | left first _ ih => rw [List.mem_cons, List.mem_cons, ih, or_assoc]
  | right first _ ih => rw [List.mem_cons, List.mem_cons, ih, or_left_comm]

theorem append_left (front : List α) (hAll : Interleaves lefts rights all) :
    Interleaves (front ++ lefts) rights (front ++ all) := by
  induction front with
  | nil => exact hAll
  | cons value rest ih => exact .left value ih

theorem filterMap (change : α → Option β) (hAll : Interleaves lefts rights all) :
    Interleaves (lefts.filterMap change) (rights.filterMap change) (all.filterMap change) := by
  induction hAll with
  | nil => exact .nil
  | left value _ ih =>
      cases hValue : change value with
      | none => simpa [hValue] using ih
      | some result => simpa [hValue] using ih.left result
  | right value _ ih =>
      cases hValue : change value with
      | none => simpa [hValue] using ih
      | some result => simpa [hValue] using ih.right result

theorem filter (picked : α → Bool) (hAll : Interleaves lefts rights all) :
    Interleaves (lefts.filter picked) (rights.filter picked) (all.filter picked) := by
  rw [← List.filterMap_eq_filter]
  exact hAll.filterMap _

/-- If nothing is picked out of one list, all is picked out of the other one. -/
theorem filter_eq_left {picked : α → Bool} (hPicked : ∀ value ∈ rights, picked value = false)
    (hAll : Interleaves lefts rights all) : all.filter picked = lefts.filter picked := by
  have hFilter := hAll.filter picked
  have hNone : rights.filter picked = [] :=
    List.filter_eq_nil_iff.mpr fun value hMem => by simp [hPicked value hMem]
  rw [hNone] at hFilter
  exact hFilter.eq_left

end Interleaves

/-! ### Factors -/

namespace Dialect

variable {dialect : Dialect} {factors ones padded : List Entry}

/-- Literal ones among the factors make no difference, not even to what fails. -/
theorem properFactors_interleaves (hIdentity : dialect.identity ≠ "")
    (hOnes : ∀ one ∈ ones, one = some dialect.identity)
    (hPadded : Interleaves factors ones padded) :
    dialect.properFactors padded = dialect.properFactors factors := by
  induction hPadded with
  | nil => rfl
  | left factor _ ih =>
      cases factor with
      | none => rfl
      | some token => rw [properFactors, properFactors, ih hOnes]
  | right one _ ih =>
      rw [List.forall_mem_cons] at hOnes
      rw [hOnes.1, properFactors, if_neg hIdentity, ih hOnes.2]
      simp

theorem productEntry_interleaves (hIdentity : dialect.identity ≠ "")
    (hOnes : ∀ one ∈ ones, one = some dialect.identity)
    (hPadded : Interleaves factors ones padded) :
    dialect.productEntry padded = dialect.productEntry factors := by
  rw [productEntry, properFactors_interleaves hIdentity hOnes hPadded, productEntry]

end Dialect

namespace TensorCode

variable {dialect : Dialect}

/-! ### Products -/

/-- A product depends on its tensors and on the products with its scalars. -/
theorem product_congr {left right : List TensorCode}
    (hTensors : left.filter SortedMap.isTensor = right.filter SortedMap.isTensor)
    (hScalars : ∀ chosen, dialect.productEntry (chosen ++ left.filterMap SortedMap.asScalar?) =
      dialect.productEntry (chosen ++ right.filterMap SortedMap.asScalar?)) :
    product dialect left = product dialect right := by
  have hAlone := hScalars []
  rw [List.nil_append, List.nil_append] at hAlone
  simp only [product, productContributions, hTensors, hScalars, hAlone]

/-- Literal ones among the operands make no difference to a product. -/
theorem product_interleaves_ones (hIdentity : dialect.identity ≠ "")
    {operands ones padded : List TensorCode}
    (hOnes : ∀ one ∈ ones, one = scalar (some dialect.identity))
    (hPadded : Interleaves operands ones padded) :
    product dialect padded = product dialect operands := by
  have hNoTensor : ∀ one ∈ ones, one.isTensor = false := by
    intro one hOne
    rw [hOnes one hOne]
    rfl
  have hLiterals : ∀ one ∈ ones.filterMap SortedMap.asScalar?, one = some dialect.identity := by
    intro one hMem
    obtain ⟨code, hCode, hScalar⟩ := List.mem_filterMap.mp hMem
    rw [hOnes code hCode] at hScalar
    exact (Option.some.inj hScalar).symm
  refine product_congr (hPadded.filter_eq_left hNoTensor) fun chosen => ?_
  exact Dialect.productEntry_interleaves hIdentity hLiterals
    ((hPadded.filterMap SortedMap.asScalar?).append_left chosen)

/-- A product does not depend on the places of the scalars among the tensors. -/
theorem product_interleaves_scalars {scalars tensors left right : List TensorCode}
    (hScalars : ∀ operand ∈ scalars, operand.isTensor = false)
    (hTensors : ∀ operand ∈ tensors, operand.asScalar? = none)
    (hLeft : Interleaves scalars tensors left) (hRight : Interleaves scalars tensors right) :
    product dialect left = product dialect right := by
  have hNone : tensors.filterMap SortedMap.asScalar? = [] :=
    List.filterMap_eq_nil_iff.mpr hTensors
  have hValues {all : List TensorCode} (hAll : Interleaves scalars tensors all) :
      all.filterMap SortedMap.asScalar? = scalars.filterMap SortedMap.asScalar? := by
    have hMapped := hAll.filterMap SortedMap.asScalar?
    rw [hNone] at hMapped
    exact hMapped.eq_left
  refine product_congr ?_ fun chosen => by rw [hValues hLeft, hValues hRight]
  rw [hLeft.swap.filter_eq_left hScalars, hRight.swap.filter_eq_left hScalars]

/-! ### Sums -/

theorem mem_keys_sumContributions {operands : List TensorCode} {key : Key} :
    key ∈ (sumContributions operands).map Prod.fst ↔ ∃ operand ∈ operands, key ∈ operand.keys := by
  simp [sumContributions, SortedMap.mem_keys_iff]

/-- Symbolic zeros contribute no terms. -/
theorem terms_interleaves_zeros {operands zeros padded : List TensorCode} (key : Key)
    (hZeros : ∀ code ∈ zeros, ∀ entry ∈ code.entries, entry.2 = none)
    (hPadded : Interleaves operands zeros padded) :
    (((sumContributions padded).filter fun entry => entry.1 = key).map Prod.snd).flatten =
      (((sumContributions operands).filter fun entry => entry.1 = key).map Prod.snd).flatten := by
  induction hPadded with
  | nil => rfl
  | left operand _ ih =>
      simp only [sumContributions, List.flatMap_cons, List.filter_append, List.map_append,
        List.flatten_append] at ih ⊢
      rw [ih hZeros]
  | right code _ ih =>
      rw [List.forall_mem_cons] at hZeros
      simp only [sumContributions, List.flatMap_cons, List.filter_append, List.map_append,
        List.flatten_append] at ih ⊢
      rw [ih hZeros.2, List.append_left_eq_self, List.flatten_eq_nil_iff]
      intro terms hTerms
      obtain ⟨contribution, hContribution, rfl⟩ := List.mem_map.mp hTerms
      obtain ⟨entry, hEntry, rfl⟩ := List.mem_map.mp (List.mem_of_mem_filter hContribution)
      rw [hZeros.1 entry hEntry]
      rfl

/-- Symbolic zeros under keys that are there make no difference to a sum. -/
theorem sum_interleaves_zeros {operands zeros padded : List TensorCode}
    (hZeros : ∀ code ∈ zeros, ∀ entry ∈ code.entries,
      entry.2 = none ∧ ∃ operand ∈ operands, entry.1 ∈ operand.keys)
    (hPadded : Interleaves operands zeros padded) :
    sum dialect padded = sum dialect operands := by
  have hKeys (key : Key) : key ∈ (sumContributions padded).map Prod.fst ↔
      key ∈ (sumContributions operands).map Prod.fst := by
    rw [mem_keys_sumContributions, mem_keys_sumContributions]
    constructor
    · rintro ⟨code, hCode, hKey⟩
      rcases hPadded.mem_iff.mp hCode with hOperand | hZero
      · exact ⟨code, hOperand, hKey⟩
      · obtain ⟨entry, hEntry, rfl⟩ := List.mem_map.mp hKey
        exact (hZeros code hZero entry hEntry).2
    · rintro ⟨operand, hOperand, hKey⟩
      exact ⟨operand, hPadded.mem_iff.mpr (.inl hOperand), hKey⟩
  have hGather : SortedMap.gather (sumContributions padded) =
      SortedMap.gather (sumContributions operands) := by
    refine SortedMap.gather_congr hKeys fun key => terms_interleaves_zeros key ?_ hPadded
    exact fun code hCode entry hEntry => (hZeros code hCode entry hEntry).1
  rw [sum, hGather, sum]

theorem sum_singleton (code : TensorCode) : sum dialect [code] = .ok code := by
  have hGather : SortedMap.gather (sumContributions [code]) = code.mapValues Option.toList := by
    have hContributions : sumContributions [code] = (code.mapValues Option.toList).entries := by
      simp [sumContributions, SortedMap.mapValues]
    rw [hContributions, SortedMap.gather_entries]
  obtain ⟨result, hSum⟩ := exists_sum dialect [code]
  have hRelated := hSum
  rw [sum, hGather] at hRelated
  have hEntries := SortedMap.related_of_traverse hRelated
  have hTerms (entry : Entry) : dialect.addTerms entry.toList = .ok entry := by
    cases entry <;> rfl
  rw [hSum]
  refine congrArg Except.ok (SortedMap.ext (List.forall₂_eq_eq_eq ▸ List.Forall₂.flip ?_))
  refine (List.forall₂_map_left_iff.mp hEntries).imp ?_
  rintro ⟨key, entry⟩ ⟨other, value⟩ ⟨hKey, hValue⟩
  rw [hTerms] at hValue
  cases hValue
  cases hKey
  rfl

/-! ### Quotients -/

theorem division_identity (numerator : TensorCode) :
    division dialect [numerator, scalar (some dialect.identity)] = .ok numerator := by
  have hSame : (fun entry : Entry => entry.map fun value =>
      if dialect.identity = dialect.identity then value
      else dialect.divide value (dialect.group dialect.identity)) = id := by
    funext entry
    simp
  show Except.ok (numerator.mapValues _) = _
  rw [hSame]
  exact congrArg Except.ok (SortedMap.ext (List.map_id _))

/-- Literal ones among the operands of a product leave its result as it is, code or fault, if
the literal is not empty, which it is in no available dialect.  Another place of the scalars
among the tensors leaves a product as it is, too.  Symbolic zeros under keys that are there
leave a sum as it is, a single code is its own sum, and a quotient by one is the numerator. -/
theorem unit_operands_vanish (dialect : Dialect) :
    (dialect.Available → dialect.identity ≠ "") ∧
    (dialect.identity ≠ "" → ∀ {operands ones padded : List TensorCode},
      (∀ one ∈ ones, one = scalar (some dialect.identity)) → Interleaves operands ones padded →
        product dialect padded = product dialect operands) ∧
    (∀ {scalars tensors left right : List TensorCode},
      (∀ operand ∈ scalars, operand.isTensor = false) →
      (∀ operand ∈ tensors, operand.asScalar? = none) →
      Interleaves scalars tensors left → Interleaves scalars tensors right →
        product dialect left = product dialect right) ∧
    (∀ {operands zeros padded : List TensorCode},
      (∀ code ∈ zeros, ∀ entry ∈ code.entries,
        entry.2 = none ∧ ∃ operand ∈ operands, entry.1 ∈ operand.keys) →
      Interleaves operands zeros padded → sum dialect padded = sum dialect operands) ∧
    (∀ code, sum dialect [code] = .ok code) ∧
    (∀ numerator, division dialect [numerator, scalar (some dialect.identity)] = .ok numerator) :=
  ⟨fun hAvailable => hAvailable.literal_ne_empty .one, product_interleaves_ones,
    product_interleaves_scalars, sum_interleaves_zeros, sum_singleton, division_identity⟩

/-- A vector with a zero component among ones and a scalar. -/
theorem unit_operands_vanish_vector :
    let dialect := Dialect.cpp (some 1)
    let one := scalar (some dialect.identity)
    let factor := scalar (some "A")
    let vector : TensorCode := .ofList [([0], some "v"), ([1], none)]
    let zero : TensorCode := .ofList [([1], none)]
    dialect.Available ∧ Interleaves [factor, vector] [one, one] [one, factor, one, vector] ∧
    product dialect [one, factor, one, vector] = product dialect [factor, vector] ∧
    product dialect [vector, factor] = product dialect [factor, vector] ∧
    product dialect [factor, vector] = .ok (.ofList [([0], some "v*A"), ([1], none)]) ∧
    sum dialect [zero, vector] = sum dialect [vector] ∧ sum dialect [vector] = .ok vector ∧
    division dialect [vector, one] = .ok vector := by
  intro dialect one factor vector zero
  have hOnes : ∀ operand ∈ [one, one], operand = one := by simp
  have hPadded : Interleaves [factor, vector] [one, one] [one, factor, one, vector] :=
    .right one (.left factor (.right one (.left vector .nil)))
  have hZeros : ∀ code ∈ [zero], ∀ entry ∈ code.entries,
      entry.2 = none ∧ ∃ operand ∈ [vector], entry.1 ∈ operand.keys := by decide +kernel
  have hAvailable : dialect.Available := .cpp (some 1)
  obtain ⟨hIdentity, hOne, hMoved, hZero, hSingle, hQuotient⟩ := unit_operands_vanish dialect
  refine ⟨hAvailable, hPadded, hOne (hIdentity hAvailable) hOnes hPadded, ?_, by decide +kernel,
    ?_, hSingle vector, hQuotient vector⟩
  · refine @hMoved [factor] [vector] _ _ ?_ ?_ (.right vector (.left factor .nil))
      (.left factor (.right vector .nil))
    · decide +kernel
    · decide +kernel
  · exact hZero hZeros (.right zero (.left vector .nil))

end TensorCode

end FormLowering
