import FormLowering.Proofs.Reading.DecimalInterpretation
import FormLowering.Proofs.Semantics.TokenValues
import FormLowering.Proofs.Support.Faults
import FormLowering.Proofs.Support.Keys

/-!
# Products of codes

The product of codes with entries has the sorted concatenations of their keys for its
keys.  Several choices of entries can meet under one key.  The entry is symbolic zero if
each of them contains a symbolic zero, and its value is the sum, over these choices, of the
products of the chosen values.  None of this depends on the order of the operands.
-/

namespace FormLowering

theorem SortedMap.isTensor_mapValues {β γ : Type} (change : β → γ) (map : SortedMap Key β) :
    (map.mapValues change).isTensor = map.isTensor := by
  simp only [isTensor, mapValues]
  rcases map.entries with _ | ⟨_, _ | _⟩ <;> rfl

theorem SortedMap.asScalar?_mapValues {β γ : Type} (change : β → γ) (map : SortedMap Key β) :
    (map.mapValues change).asScalar? = map.asScalar?.map change := by
  simp only [asScalar?, mapValues]
  rcases map.entries with _ | ⟨⟨_ | _, _⟩, _ | _⟩ <;> rfl

namespace TensorCode

/-- The choices of one entry of each operand that meet under a key: their keys,
concatenated and sorted, are that key. -/
def choicesAt (operands : List TensorCode) (key : Key) : Set (List (Key × Entry)) :=
  {chosen | List.Forall₂ (fun operand entry => entry ∈ operand.entries) operands chosen ∧
    Key.sorted (chosen.flatMap Prod.fst) = key}

/-- The value under a key, if every token has a value.  It is zero under absent keys and
symbolic zeros. -/
def valueAt {V : Type} [CommSemiring V] (value : Token → V) (code : TensorCode) (key : Key) : V :=
  Entry.value value ((code.get? key).getD none)

variable {dialect : Dialect} {zeros : Prop} {operands : List TensorCode} {code : TensorCode}
  {key : Key}

theorem mem_choicesAt {chosen : List (Key × Entry)} :
    chosen ∈ choicesAt operands key ↔
      chosen ∈ choices (operands.map (·.entries)) ∧ Key.sorted (chosen.flatMap Prod.fst) = key := by
  rw [mem_choices, List.forall₂_map_right_iff]
  exact and_congr_left fun _ => ⟨.flip, .flip⟩

/-! ### Keys -/

/-- A product has the sorted concatenations of the keys of its operands. -/
theorem mem_keys_product (hNonempty : ∀ operand ∈ operands, operand.entries ≠ [])
    (hCode : product dialect operands = .ok code) :
    key ∈ code.keys ↔
      ∃ keys, List.Forall₂ (fun operand own => own ∈ operand.keys) operands keys ∧
        Key.sorted keys.flatten = key := by
  have hKeys : Holds True = fun operand own => own ∈ operand.keys := by
    funext operand own
    exact propext holds_true
  rw [← holds_true, holds_product hNonempty hCode]
  unfold Concatenates
  rw [hKeys]
  constructor
  · rintro ⟨_, ⟨keys, hOwn, rfl⟩, hSorted⟩
    exact ⟨keys, hOwn, hSorted⟩
  · rintro ⟨keys, hOwn, hSorted⟩
    exact ⟨_, ⟨keys, hOwn, rfl⟩, hSorted⟩

/-- A product is live under a key if there is a choice without symbolic zeros. -/
theorem live_product_iff (hNonempty : ∀ operand ∈ operands, operand.entries ≠ [])
    (hCode : product dialect operands = .ok code) :
    code.Holds False key ↔
      ∃ chosen ∈ choicesAt operands key, ∀ entry ∈ chosen, entry.2 ≠ none := by
  rw [holds_product hNonempty hCode]
  unfold Concatenates
  simp only [forall₂_holds_iff, ← mem_choices, mem_choicesAt]
  have hCounts : ∀ {entry : Entry}, entry.Counts False ↔ entry ≠ none := by
    intro entry
    simp [Entry.Counts, Option.isSome_iff_ne_none]
  simp only [hCounts]
  constructor
  · rintro ⟨_, ⟨_, ⟨chosen, hChosen, rfl, hLive⟩, rfl⟩, hSorted⟩
    rw [← List.flatMap_def] at hSorted
    exact ⟨chosen, ⟨hChosen, hSorted⟩, hLive⟩
  · rintro ⟨chosen, ⟨hChosen, hSorted⟩, hLive⟩
    rw [List.flatMap_def] at hSorted
    exact ⟨_, ⟨_, ⟨chosen, hChosen, rfl, hLive⟩, rfl⟩, hSorted⟩

/-- A key holds symbolic zero if it is present and not live. -/
theorem get?_eq_some_none_iff : code.get? key = some none ↔
    key ∈ code.keys ∧ ¬code.Holds False key := by
  constructor
  · intro hZero
    have hMem := SortedMap.mem_of_get? hZero
    refine ⟨SortedMap.mem_keys_iff.mpr ⟨none, hMem⟩, ?_⟩
    rintro ⟨entry, hEntry, hCounts⟩
    rw [SortedMap.get?_of_mem hEntry] at hZero
    cases hZero
    simp [Entry.Counts] at hCounts
  · rintro ⟨hKey, hNone⟩
    obtain ⟨entry, hMem⟩ := SortedMap.mem_keys_iff.mp hKey
    rw [SortedMap.get?_of_mem hMem]
    cases entry with
    | none => rfl
    | some token => exact absurd ⟨_, hMem, .inr rfl⟩ hNone

/-! ### Contributions -/

/-- Every choice contributes its product. -/
theorem forall₂_contributions {tensors : List TensorCode} {scalars : List Entry}
    {contributions : List (Key × List Token)} (hSome : tensors ≠ [])
    (hContributions : productContributions dialect tensors scalars = .ok contributions) :
    List.Forall₂ (fun chosen contribution =>
        List.Forall₂ (· ∈ ·) chosen (tensors.map (·.entries)) ∧
          ∃ entry, dialect.productEntry (chosen.map Prod.snd ++ scalars) = .ok entry ∧
            contribution = (Key.sorted (chosen.flatMap Prod.fst), Option.toList entry))
      (choices (tensors.map (·.entries))) contributions := by
  unfold productContributions entryChoices at hContributions
  rw [if_neg (by simpa using hSome)] at hContributions
  have hRun := forall₂_of_mapM_ok hContributions
  rw [List.forall₂_map_left_iff] at hRun
  refine (List.forall₂_and_left _ _).mpr ⟨fun chosen => mem_choices.mp, hRun.imp ?_⟩
  intro chosen contribution hContribution
  obtain ⟨entry, hEntry, hContribution⟩ := exists_of_bind_ok hContribution
  cases hContribution
  exact ⟨entry, hEntry, rfl⟩

/-! ### Values -/

section Values

variable {V : Type} [CommSemiring V] {value : Token → V}

theorem valueAt_scalar (entry : Entry) :
    valueAt value (scalar entry) key = if key = [] then entry.value value else 0 := by
  unfold valueAt scalar SortedMap.singleton SortedMap.get?
  rw [SortedMap.lookup_cons_ite]
  split <;> rfl

theorem sum_flatten_filter (contributions : List (Key × List Token)) (key : Key) :
    ((((contributions.filter fun entry => entry.1 = key).map Prod.snd).flatten).map value).sum =
      (contributions.map fun entry => if entry.1 = key then (entry.2.map value).sum else 0).sum := by
  induction contributions with
  | nil => rfl
  | cons entry rest ih =>
      rw [List.map_cons, List.sum_cons, ← ih, List.filter_cons]
      by_cases hKey : entry.1 = key <;> simp [hKey]

/-- The terms of each key have a sum, which is its value. -/
theorem valueAt_addTerms {contributions : List (Key × List Token)}
    (hAdd : ∀ {terms entry}, (SortedMap.gather contributions).get? key = some terms →
      dialect.addTerms terms = .ok entry → entry.value value = (terms.map value).sum)
    (hCode : (SortedMap.gather contributions).traverse dialect.addTerms = .ok code) :
    code.valueAt value key =
      (contributions.map fun entry => if entry.1 = key then (entry.2.map value).sum else 0).sum := by
  have hGet := (SortedMap.related_of_traverse hCode).get? key
  rw [← sum_flatten_filter, ← SortedMap.getD_gather, valueAt]
  generalize code.get? key = found at hGet ⊢
  generalize (SortedMap.gather contributions).get? key = gathered at hAdd hGet ⊢
  cases hGet with
  | none => rfl
  | some hEntry => exact hAdd rfl hEntry

/-- Choices of entries have the values of choices of values. -/
theorem choiceSum_values (operands : List TensorCode) (weight : Key → V → V) :
    TensorValue.choiceSum (operands.map fun operand => operand.mapValues (Option.map value)) weight =
      ((choices (operands.map (·.entries))).map fun chosen =>
        weight (chosen.flatMap Prod.fst) (chosen.map fun entry => entry.2.value value).prod).sum := by
  have hEntries : (operands.map fun operand => operand.mapValues (Option.map value)).map (·.entries) =
      (operands.map (·.entries)).map (List.map fun entry => (entry.1, entry.2.map value)) := by
    rw [List.map_map, List.map_map]
    rfl
  rw [TensorValue.choiceSum, hEntries, map_choices, List.map_map]
  congr 1
  refine List.map_congr_left fun chosen _ => ?_
  simp only [Function.comp_apply, List.flatMap_map, List.map_map]
  rfl

/-- A choice without symbolic zeros is multiplied like a token of each operand. -/
theorem factors_of_choice (hNonempty : ∀ operand ∈ operands, operand.entries ≠ [])
    {chosen : List (Key × Entry)}
    (hChosen : List.Forall₂ (· ∈ ·) chosen ((operands.filter SortedMap.isTensor).map (·.entries)))
    {tokens : List Token}
    (hTokens : chosen.map Prod.snd ++ operands.filterMap SortedMap.asScalar? = tokens.map some) :
    dialect.Factors operands (tokens.filter (· ≠ dialect.identity)) := by
  obtain ⟨selected, hSelects, hPerm⟩ := exists_selects hNonempty hChosen (by simp [hTokens])
  rw [hTokens] at hPerm
  have hSame : selected.Perm tokens := by simpa using hPerm.filterMap id
  exact ⟨selected, hSelects, (hSame.filter _).symm⟩

/-- There are no more choices among the tensors than among all operands. -/
theorem length_choices_tensors_le (hNonempty : ∀ operand ∈ operands, operand.entries ≠ []) :
    (choices ((operands.filter SortedMap.isTensor).map (·.entries))).length ≤
      choiceCount operands := by
  rw [length_choices, List.map_map]
  unfold choiceCount
  induction operands with
  | nil => exact le_rfl
  | cons operand rest ih =>
      rw [List.forall_mem_cons] at hNonempty
      have hPositive : 1 ≤ operand.size := List.length_pos_iff.mpr hNonempty.1
      rw [List.filter_cons, List.map_cons, List.prod_cons]
      split
      · rw [List.map_cons, List.prod_cons]
        exact Nat.mul_le_mul le_rfl (ih hNonempty.2)
      · exact (ih hNonempty.2).trans (Nat.le_mul_of_pos_left _ hPositive)

section Product

variable (hNonempty : ∀ operand ∈ operands, operand.entries ≠ [])
include hNonempty

/-- What meets under a key are products of a token of each operand, and no more of them than
there are choices. -/
theorem gathered_products (hSome : operands.filter SortedMap.isTensor ≠ [])
    {contributions : List (Key × List Token)}
    (hContributions : productContributions dialect (operands.filter SortedMap.isTensor)
      (operands.filterMap SortedMap.asScalar?) = .ok contributions)
    {terms : List Token} (hTerms : (SortedMap.gather contributions).get? key = some terms) :
    (∀ term ∈ terms, dialect.IsProduct operands term) ∧ terms.length ≤ choiceCount operands := by
  have hRun := forall₂_contributions hSome hContributions
  constructor
  · intro term hTerm
    obtain ⟨part, hPart, hIn⟩ := (SortedMap.mem_gathered (SortedMap.mem_of_get? hTerms)).mp hTerm
    obtain ⟨chosen, -, hChosen, entry, hEntry, hContribution⟩ := exists_of_mem_right hRun hPart
    cases hContribution
    rw [Option.mem_toList] at hIn
    subst hIn
    obtain ⟨tokens, hTokens, rfl⟩ := Dialect.productEntry_eq_some hEntry
    exact ⟨_, factors_of_choice hNonempty hChosen hTokens, rfl⟩
  · have hFlatten := SortedMap.getD_gather contributions key
    rw [hTerms, Option.getD_some] at hFlatten
    have hAtMostOne : ∀ count ∈ ((contributions.filter fun entry => entry.1 = key).map
        Prod.snd).map List.length, count ≤ 1 := by
      simp only [List.mem_map, List.mem_filter]
      rintro _ ⟨_, ⟨_, ⟨hPart, -⟩, rfl⟩, rfl⟩
      obtain ⟨chosen, -, -, entry, -, rfl⟩ := exists_of_mem_right hRun hPart
      exact Option.length_toList_le
    calc terms.length
        = (((contributions.filter fun entry => entry.1 = key).map Prod.snd).map
            List.length).sum := by rw [hFlatten, List.length_flatten]
      _ ≤ (contributions.filter fun entry => entry.1 = key).length := by
          simpa using List.sum_le_card_nsmul _ _ hAtMostOne
      _ ≤ contributions.length := List.length_filter_le _ _
      _ = (choices ((operands.filter SortedMap.isTensor).map (·.entries))).length :=
          hRun.length_eq.symm
      _ ≤ choiceCount operands := length_choices_tensors_le hNonempty

variable (hValue : dialect.Interprets operands value)
include hValue

/-- The value of the product of a choice, and of the scalars. -/
theorem value_product_of_choice {chosen : List (Key × Entry)} {entry : Entry}
    (hChosen : List.Forall₂ (· ∈ ·) chosen ((operands.filter SortedMap.isTensor).map (·.entries)))
    (hEntry : dialect.productEntry
      (chosen.map Prod.snd ++ operands.filterMap SortedMap.asScalar?) = .ok entry) :
    entry.value value = (chosen.map fun entry => entry.2.value value).prod *
      ((operands.filterMap SortedMap.asScalar?).map (Entry.value value)).prod := by
  rw [Dialect.value_productEntry hValue.one
      (fun hTokens => hValue.multiply (factors_of_choice hNonempty hChosen hTokens)) hEntry,
    List.map_append, List.prod_append, List.map_map]
  rfl

/-- The value of a product is the sum over the choices of entries that meet under the key. -/
theorem valueAt_product (hCode : product dialect operands = .ok code) :
    code.valueAt value key =
      TensorValue.choiceSum (operands.map fun operand => operand.mapValues (Option.map value))
        fun chosen product => if Key.sorted chosen = key then product else 0 := by
  have hNonemptyValues : ∀ operand ∈ operands.map fun operand =>
      operand.mapValues (Option.map value), operand.entries ≠ [] := by
    simpa [SortedMap.mapValues] using hNonempty
  have hTensors : (operands.map fun operand => operand.mapValues (Option.map value)).filter
      SortedMap.isTensor = (operands.filter SortedMap.isTensor).map fun operand =>
        operand.mapValues (Option.map value) := by
    rw [List.filter_map]
    congr 1
    exact List.filter_congr fun operand _ => SortedMap.isTensor_mapValues _ operand
  have hScalars : (operands.map fun operand => operand.mapValues (Option.map value)).filterMap
      SortedMap.asScalar? = (operands.filterMap SortedMap.asScalar?).map (Option.map value) := by
    rw [List.filterMap_map, List.map_filterMap]
    exact List.filterMap_congr fun operand _ => SortedMap.asScalar?_mapValues _ operand
  have hFactor : ((operands.filterMap SortedMap.asScalar?).map (Option.map value)).map (·.getD 0) =
      (operands.filterMap SortedMap.asScalar?).map (Entry.value value) := by
    rw [List.map_map]
    rfl
  rw [TensorValue.choiceSum_tensors hNonemptyValues, hTensors, hScalars, hFactor, choiceSum_values]
  simp only [product] at hCode
  split at hCode
  · -- Without tensors there is one choice, of no entries.
    rename_i hNone
    rw [List.isEmpty_iff] at hNone
    obtain ⟨entry, hEntry, hCode⟩ := exists_of_bind_ok hCode
    cases hCode
    have hChosen : List.Forall₂ (· ∈ ·) ([] : List (Key × Entry))
        ((operands.filter SortedMap.isTensor).map (·.entries)) := by
      rw [hNone]
      exact .nil
    have hSorted : Key.sorted [] = [] := rfl
    rw [valueAt_scalar, value_product_of_choice hNonempty hValue hChosen hEntry, hNone]
    simp only [List.map_nil, choices, List.map_cons, List.flatMap_nil, hSorted, List.sum_singleton,
      eq_comm]
  · rename_i hSome
    rw [List.isEmpty_iff] at hSome
    obtain ⟨contributions, hContributions, hCode⟩ := exists_of_bind_ok hCode
    rw [valueAt_addTerms (fun hTerms hEntry => ?_) hCode]
    · -- Every choice contributes its value under its key.
      congr 1
      rw [← List.forall₂_eq_eq_eq, List.forall₂_map_left_iff, List.forall₂_map_right_iff]
      refine (forall₂_contributions hSome hContributions).flip.imp ?_
      rintro _ chosen ⟨hChosen, entry, hEntry, rfl⟩
      rw [← value_product_of_choice hNonempty hValue hChosen hEntry]
      cases entry <;> simp [Entry.value]
    · obtain ⟨hProducts, hLength⟩ := gathered_products hNonempty hSome hContributions hTerms
      exact hValue.value_addTerms hProducts hLength hEntry

/-- Every choice of entries that meet under the key is counted once. -/
theorem valueAt_product_eq_finsum (hCode : product dialect operands = .ok code) :
    code.valueAt value key =
      ∑ᶠ chosen ∈ choicesAt operands key, (chosen.map fun entry => entry.2.value value).prod := by
  have hNodup : (choices (operands.map (·.entries))).Nodup := by
    refine nodup_choices fun entries hMem => ?_
    obtain ⟨operand, -, rfl⟩ := List.mem_map.mp hMem
    exact List.Nodup.of_map Prod.fst operand.nodup_keys
  have hChoices : choicesAt operands key = ↑((choices (operands.map (·.entries))).toFinset.filter
      fun chosen => Key.sorted (chosen.flatMap Prod.fst) = key) := by
    ext chosen
    simp [mem_choicesAt]
  rw [valueAt_product hNonempty hValue hCode, choiceSum_values, hChoices, finsum_mem_coe_finset,
    Finset.sum_filter, List.sum_toFinset _ hNodup]

end Product

end Values

end TensorCode

/-! ### The order of the operands -/

theorem exists_perm_of_forall₂ {α β : Type} {R : α → β → Prop} {lefts permuted : List α}
    {rights : List β} (hPerm : lefts.Perm permuted) (hLists : List.Forall₂ R lefts rights) :
    ∃ others, List.Forall₂ R permuted others ∧ rights.Perm others := by
  obtain ⟨others, hOthers, hSame⟩ := List.perm_comp_forall₂ hPerm.symm hLists
  exact ⟨others, hOthers, hSame.symm⟩

/-- A sum over choices does not depend on the order of the operands, if it only looks at
the indices of a key. -/
theorem TensorValue.choiceSum_perm {V : Type} [CommSemiring V]
    {operands permuted : List (TensorValue V)} (hPerm : operands.Perm permuted)
    {weight : Key → V → V}
    (hWeight : ∀ {left right : Key} value, left.Perm right → weight left value = weight right value) :
    choiceSum operands weight = choiceSum permuted weight := by
  induction hPerm generalizing weight with
  | nil => rfl
  | cons operand _ ih =>
      rw [choiceSum_cons, choiceSum_cons]
      congr 1
      refine List.map_congr_left fun entry _ => ih ?_
      exact fun value hSame => hWeight _ (hSame.append_left _)
  | swap first second rest =>
      simp only [choiceSum_cons]
      rw [sum_map_comm]
      congr 1
      refine List.map_congr_left fun entry _ => ?_
      congr 1
      refine List.map_congr_left fun other _ => ?_
      congr 1
      funext key value
      rw [mul_left_comm]
      refine hWeight _ ?_
      rw [← List.append_assoc, ← List.append_assoc]
      exact List.perm_append_comm.append_right _
  | trans _ _ ihFirst ihSecond => exact (ihFirst hWeight).trans (ihSecond hWeight)

theorem TensorCode.choiceCount_eq_of_perm {operands permuted : List TensorCode}
    (hPerm : operands.Perm permuted) : choiceCount operands = choiceCount permuted :=
  (hPerm.map _).prod_eq

namespace Dialect

variable {dialect : Dialect} {operands permuted : List TensorCode}
  (hPerm : operands.Perm permuted)
include hPerm

theorem Factors.of_perm {factors : List Token} (hFactors : dialect.Factors operands factors) :
    dialect.Factors permuted factors := by
  obtain ⟨tokens, hSelects, hSame⟩ := hFactors
  obtain ⟨others, hOthers, hTokens⟩ := exists_perm_of_forall₂ hPerm hSelects
  exact ⟨others, hOthers, hSame.trans (hTokens.filter _)⟩

theorem IsProduct.of_perm {product : Token} (hProduct : dialect.IsProduct operands product) :
    dialect.IsProduct permuted product := by
  obtain ⟨factors, hFactors, rfl⟩ := hProduct
  exact ⟨factors, hFactors.of_perm hPerm, rfl⟩

theorem IsTerm.of_perm {term : Token} (hTerm : dialect.IsTerm operands term) :
    dialect.IsTerm permuted term := by
  obtain ⟨product, count, hProduct, hPositive, hCount, rfl⟩ := hTerm
  exact ⟨product, count, hProduct.of_perm hPerm, hPositive,
    TensorCode.choiceCount_eq_of_perm hPerm ▸ hCount, rfl⟩

/-- The tokens involved are the same in every order of the operands. -/
theorem Interprets.of_perm {V : Type} [CommSemiring V] {value : Token → V}
    (hValue : dialect.Interprets operands value) : dialect.Interprets permuted value := by
  have hCounts := TensorCode.choiceCount_eq_of_perm hPerm
  exact {
    one := hValue.one
    multiply := fun hFactors => hValue.multiply (hFactors.of_perm hPerm.symm)
    count := fun hSeveral hCount => hValue.count hSeveral (hCounts ▸ hCount)
    counted := fun hSeveral hCount hProduct =>
      hValue.counted hSeveral (hCounts ▸ hCount) (hProduct.of_perm hPerm.symm)
    sum := fun hSeveral hLength hTerms => hValue.sum hSeveral (hCounts ▸ hLength)
      fun term hTerm => (hTerms term hTerm).of_perm hPerm.symm }

end Dialect

namespace TensorCode

variable {dialect : Dialect} {zeros : Prop} {operands permuted : List TensorCode}
  {code other : TensorCode} {key : Key}

theorem holds_product_of_perm (hPerm : operands.Perm permuted)
    (hNonempty : ∀ operand ∈ operands, operand.entries ≠ [])
    (hCode : product dialect operands = .ok code) (hOther : product dialect permuted = .ok other)
    (hKey : code.Holds zeros key) : other.Holds zeros key := by
  have hNonempty' : ∀ operand ∈ permuted, operand.entries ≠ [] :=
    fun operand hOperand => hNonempty operand (hPerm.mem_iff.mpr hOperand)
  obtain ⟨_, ⟨keys, hKeys, rfl⟩, hSorted⟩ := (holds_product hNonempty hCode).mp hKey
  obtain ⟨others, hOthers, hSame⟩ := exists_perm_of_forall₂ hPerm hKeys
  refine (holds_product hNonempty' hOther).mpr ⟨_, ⟨others, hOthers, rfl⟩, ?_⟩
  rw [← hSorted]
  exact Key.sorted_eq_of_perm hSame.flatten.symm

/-- A product has the same keys and live keys in every order of the operands. -/
theorem holds_product_perm (hPerm : operands.Perm permuted)
    (hNonempty : ∀ operand ∈ operands, operand.entries ≠ [])
    (hCode : product dialect operands = .ok code) (hOther : product dialect permuted = .ok other) :
    other.Holds zeros key ↔ code.Holds zeros key :=
  ⟨holds_product_of_perm hPerm.symm
      (fun operand hOperand => hNonempty operand (hPerm.mem_iff.mpr hOperand)) hOther hCode,
    holds_product_of_perm hPerm hNonempty hCode hOther⟩

theorem keys_product_perm (hPerm : operands.Perm permuted)
    (hNonempty : ∀ operand ∈ operands, operand.entries ≠ [])
    (hCode : product dialect operands = .ok code) (hOther : product dialect permuted = .ok other) :
    other.keys = code.keys :=
  SortedSet.eq_of_mem_iff other.increasing code.increasing fun _ =>
    holds_true.symm.trans ((holds_product_perm hPerm hNonempty hCode hOther).trans holds_true)

theorem valueAt_product_perm {V : Type} [CommSemiring V] {value : Token → V}
    (hPerm : operands.Perm permuted) (hNonempty : ∀ operand ∈ operands, operand.entries ≠ [])
    (hValue : dialect.Interprets operands value)
    (hCode : product dialect operands = .ok code) (hOther : product dialect permuted = .ok other) :
    other.valueAt value key = code.valueAt value key := by
  rw [valueAt_product hNonempty hValue hCode,
    valueAt_product (fun operand hOperand => hNonempty operand (hPerm.mem_iff.mpr hOperand))
      (hValue.of_perm hPerm) hOther]
  refine TensorValue.choiceSum_perm (hPerm.symm.map _) fun value hSame => ?_
  rw [Key.sorted_eq_of_perm hSame]

end TensorCode

open TensorCode

/-- Codes with entries and without empty tokens have a product.  It has the sorted
concatenations of a key of each operand for its keys.  An entry is symbolic zero if every
choice of entries that meets under the key contains a symbolic zero, and its value is the sum,
over all of these choices, of the products of the chosen values.  In another order the
operands have a product with the same keys, symbolic zeros and values. -/
theorem product_of_codes {dialect : Dialect} {operands : List TensorCode}
    (hNonempty : ∀ operand ∈ operands, operand.entries ≠ [])
    (hTokens : ∀ operand ∈ operands, operand.AllTokens (· ≠ "")) :
    ∃ code, TensorCode.product dialect operands = .ok code ∧
      (∀ key, key ∈ code.keys ↔
        ∃ keys, List.Forall₂ (fun operand own => own ∈ operand.keys) operands keys ∧
          Key.sorted keys.flatten = key) ∧
      (∀ key ∈ code.keys, code.get? key = some none ↔
        ∀ chosen ∈ choicesAt operands key, ∃ entry ∈ chosen, entry.2 = none) ∧
      (∀ (V : Type) [CommSemiring V] (value : Token → V), dialect.Interprets operands value →
        ∀ key, code.valueAt value key =
          ∑ᶠ chosen ∈ choicesAt operands key, (chosen.map fun entry => entry.2.value value).prod) ∧
      ∀ permuted, operands.Perm permuted →
        ∃ other, TensorCode.product dialect permuted = .ok other ∧ other.keys = code.keys ∧
          (∀ key, other.get? key = some none ↔ code.get? key = some none) ∧
          ∀ (V : Type) [CommSemiring V] (value : Token → V), dialect.Interprets operands value →
            ∀ key, other.valueAt value key = code.valueAt value key := by
  obtain ⟨code, hCode⟩ := exists_product dialect hTokens
  refine ⟨code, hCode, fun key => mem_keys_product hNonempty hCode, ?_, ?_, ?_⟩
  · intro key hKey
    rw [get?_eq_some_none_iff, and_iff_right hKey, live_product_iff hNonempty hCode]
    push Not
    rfl
  · exact fun V _ value hValue key => valueAt_product_eq_finsum hNonempty hValue hCode
  · intro permuted hPerm
    have hTokens' : ∀ operand ∈ permuted, operand.AllTokens (· ≠ "") :=
      fun operand hOperand => hTokens operand (hPerm.mem_iff.mpr hOperand)
    obtain ⟨other, hOther⟩ := exists_product dialect hTokens'
    refine ⟨other, hOther, keys_product_perm hPerm hNonempty hCode hOther, fun key => ?_, ?_⟩
    · rw [get?_eq_some_none_iff, get?_eq_some_none_iff,
        keys_product_perm hPerm hNonempty hCode hOther,
        holds_product_perm hPerm hNonempty hCode hOther]
    · exact fun V _ value hValue key => valueAt_product_perm hPerm hNonempty hValue hCode hOther

/-- Two tensors and a scalar.  Two of the choices meet under one key, where their products
are written alike and counted. -/
theorem product_of_codes_counted :
    let tensor : TensorCode := .ofList [([1], some "X"), ([0], some "X"), ([2], none)]
    let operands : List TensorCode := [tensor, .scalar (some "XS"), tensor]
    let reading := Dialect.callsReading (Interpretation.withLetter_naturalLiterals
      Interpretation.decimal_naturalLiterals (by decide : 'X'.isDigit = false)
      fun text => if text = "X" then 3 else 5)
    ∃ code, TensorCode.product .calls operands = .ok code ∧
      code.get? [0, 1] = some (some "multiply(2.0, multiply(X, X, XS))") ∧
      code.get? [0, 2] = some none ∧
      code.valueAt reading.value [0, 1] = ∑ᶠ chosen ∈ choicesAt operands [0, 1],
        (chosen.map fun entry => entry.2.value reading.value).prod ∧
      ∃ other, TensorCode.product .calls [.scalar (some "XS"), tensor, tensor] = .ok other ∧
        other.keys = code.keys ∧ other.get? [0, 2] = some none ∧
          other.valueAt reading.value [0, 1] = code.valueAt reading.value [0, 1] := by
  intro tensor operands reading
  have hNonempty : ∀ operand ∈ operands, operand.entries ≠ [] := by
    decide +kernel
  have hRead : ∀ operand ∈ operands, operand.AllTokens reading.IsRead := by
    have hX : reading.IsRead "X" := ⟨_, reading.word (by decide)⟩
    have hS : reading.IsRead "XS" := ⟨_, reading.word (by decide)⟩
    have hTensor : tensor.AllTokens reading.IsRead := by
      have hEntries : tensor.entries = [([0], some "X"), ([1], some "X"), ([2], none)] := by
        decide +kernel
      intro key token hMem
      rw [hEntries] at hMem
      obtain rfl : token = "X" := by grind
      exact hX
    have hScalar : (scalar (some "XS")).AllTokens reading.IsRead :=
      .scalar fun token hToken => Option.some.inj hToken ▸ hS
    simp [operands, hTensor, hScalar]
  have hTokens : ∀ operand ∈ operands, operand.AllTokens (· ≠ "") :=
    fun operand hOperand => (hRead operand hOperand).mono fun token ⟨_, hValue⟩ =>
      reading.ne_empty hValue
  have hValue : Dialect.calls.Interprets operands reading.value :=
    Dialect.Reading.interprets hRead (by decide +kernel : choiceCount operands < 2 ^ 53)
  obtain ⟨code, hCode, -, -, hValues, hOrder⟩ := @product_of_codes .calls operands hNonempty hTokens
  obtain ⟨other, hOther, hKeys, hZeros, hSame⟩ := hOrder [.scalar (some "XS"), tensor, tensor]
    (.swap _ _ _)
  have hEntries : (TensorCode.product .calls operands).toOption.map (fun code =>
      (code.get? [0, 1], code.get? [0, 2])) =
        some (some (some "multiply(2.0, multiply(X, X, XS))"), some none) := by
    decide +kernel
  rw [hCode] at hEntries
  obtain ⟨hFirst, hSecond⟩ := Prod.mk.inj (Option.some.inj hEntries)
  exact ⟨code, hCode, hFirst, hSecond, hValues _ _ hValue _, other, hOther, hKeys,
    (hZeros _).mpr hSecond, hSame _ _ hValue _⟩

end FormLowering
