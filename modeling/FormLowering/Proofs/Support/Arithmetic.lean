import FormLowering.Proofs.Semantics.ProductValue
import FormLowering.Proofs.Semantics.Relations

/-!
# Keys of sums, products and quotients

Two questions about a tensor code are which keys it has, and which of them are
*live*, that is, hold a token.  Whenever an operation on codes succeeds, both are
decided by the keys and live keys of the operands, whatever the dialect.

A key of a product is made of one key of each operand, and it is live if it can be
made of live ones.
-/

namespace FormLowering

/-! ### Entries of maps -/

namespace SortedMap

variable {κ β γ ε : Type} [LT κ]

theorem mem_keys_iff {map : SortedMap κ β} {key : κ} :
    key ∈ map.keys ↔ ∃ value, (key, value) ∈ map.entries := by
  simp [keys]

theorem mem_of_get? [DecidableEq κ] {map : SortedMap κ β} {key : κ} {value : β}
    (hGet : map.get? key = some value) : (key, value) ∈ map.entries := by
  unfold get? at hGet
  generalize map.entries = entries at hGet ⊢
  induction entries with
  | nil => contradiction
  | cons entry rest ih =>
      rw [lookup_cons_ite key entry.1] at hGet
      split at hGet
      · rename_i hKey
        cases hGet
        rw [hKey]
        exact List.mem_cons_self
      · exact List.mem_cons_of_mem _ (ih hGet)

namespace Related

variable {R : β → γ → Prop} {left : SortedMap κ β} {right : SortedMap κ γ} {key : κ}

theorem exists_of_mem_left (hMaps : Related R left right) {value : β}
    (hMem : (key, value) ∈ left.entries) : ∃ other, (key, other) ∈ right.entries ∧ R value other := by
  obtain ⟨⟨_, other⟩, hOther, rfl, hRelated⟩ := FormLowering.exists_of_mem_left hMaps hMem
  exact ⟨other, hOther, hRelated⟩

theorem symm (hMaps : Related R left right) : Related (fun value other => R other value) right left :=
  List.Forall₂.flip (hMaps.imp fun _ _ hEntry => ⟨hEntry.1.symm, hEntry.2⟩)

end Related

/-- What a change of values that succeeds does to each of them. -/
theorem related_of_traverse {change : β → Except ε γ} {map : SortedMap κ β}
    {changed : SortedMap κ γ} (hChanged : map.traverse change = .ok changed) :
    Related (fun value result => change value = .ok result) map changed := by
  have hEntries : ∀ {entries : List (κ × β)} {results},
      traverseEntries change entries = .ok results →
        List.Forall₂ (EntryRelated fun value result => change value = .ok result) entries
          results.val := by
    intro entries
    induction entries with
    | nil =>
        rintro results hResults
        cases hResults
        exact .nil
    | cons entry rest ih =>
        rintro results hResults
        obtain ⟨key, value⟩ := entry
        rw [traverseEntries] at hResults
        obtain ⟨first, hFirst, hResults⟩ := exists_of_bind_ok hResults
        obtain ⟨others, hOthers, hResults⟩ := exists_of_bind_ok hResults
        cases hResults
        exact .cons ⟨rfl, hFirst⟩ (ih hOthers)
  unfold traverse at hChanged
  obtain ⟨results, hResults, hChanged⟩ := exists_of_bind_ok hChanged
  cases hChanged
  exact hEntries hResults

/-! ### Gathered contributions -/

section Gather

variable [LE κ] [DecidableLT κ] [Std.IsLinearOrder κ] [Std.LawfulOrderLT κ] [DecidableEq κ]

/-- Under each key that occurs there are its contributions, in the order given. -/
theorem get?_gather (contributions : List (κ × List β)) (key : κ) :
    (gather contributions).get? key =
      if key ∈ contributions.map Prod.fst then
        some ((contributions.filter fun entry => entry.1 = key).map Prod.snd).flatten
      else none := by
  -- Contributions go behind what has been gathered before.
  have hFold : ∀ map : SortedMap κ (List β),
      (contributions.foldl
          (fun map entry => map.update entry.1 fun earlier => earlier.getD [] ++ entry.2)
          map).get? key =
        if key ∈ contributions.map Prod.fst then
          some ((map.get? key).getD [] ++
            ((contributions.filter fun entry => entry.1 = key).map Prod.snd).flatten)
        else map.get? key := by
    induction contributions with
    | nil => simp
    | cons entry rest ih =>
        intro map
        rw [List.foldl_cons, ih, get?_update]
        by_cases hKey : key = entry.1
        · subst hKey
          by_cases hRest : entry.1 ∈ rest.map Prod.fst
          · simp [hRest]
          · have hNone : rest.filter (fun other => other.1 = entry.1) = [] := by
              refine List.filter_eq_nil_iff.mpr fun other hOther => ?_
              simp only [decide_eq_true_eq]
              exact fun hSame => hRest (hSame ▸ List.mem_map_of_mem hOther)
            simp [hRest, hNone]
        · have hOther : ¬entry.1 = key := fun hSame => hKey hSame.symm
          simp only [List.map_cons, List.mem_cons, hKey, false_or, if_false, List.filter_cons,
            hOther, decide_false, Bool.false_eq_true]
  have hEmpty : (empty : SortedMap κ (List β)).get? key = none := rfl
  have hGathered := hFold empty
  rw [hEmpty, Option.getD_none, List.nil_append] at hGathered
  exact hGathered

/-- Contributions with the same keys and the same terms under each of them are gathered
alike. -/
theorem gather_congr {left right : List (κ × List β)}
    (hKeys : ∀ key, key ∈ left.map Prod.fst ↔ key ∈ right.map Prod.fst)
    (hTerms : ∀ key, ((left.filter fun entry => entry.1 = key).map Prod.snd).flatten =
      ((right.filter fun entry => entry.1 = key).map Prod.snd).flatten) :
    gather left = gather right := by
  refine ext_get? fun key => ?_
  rw [get?_gather, get?_gather]
  exact if_congr (hKeys key) (congrArg some (hTerms key)) rfl

/-- A map is what its entries are gathered to. -/
theorem gather_entries (map : SortedMap κ (List β)) : gather map.entries = map := by
  refine ext_get? fun key => ?_
  have hKeys := map.nodup_keys
  rw [get?_gather, get?]
  unfold keys at hKeys
  generalize map.entries = entries at hKeys
  induction entries with
  | nil => rfl
  | cons entry rest ih =>
      rw [List.map_cons, List.nodup_cons] at hKeys
      rw [lookup_cons_ite key entry.1, ← ih hKeys.2]
      by_cases hKey : key = entry.1
      · have hNone : rest.filter (fun other => other.1 = key) = [] := by
          refine List.filter_eq_nil_iff.mpr fun other hOther hSame => hKeys.1 ?_
          exact hKey ▸ of_decide_eq_true hSame ▸ List.mem_map_of_mem hOther
        simp [hKey, hKey ▸ hNone]
      · have hOther : ¬entry.1 = key := fun hSame => hKey hSame.symm
        rw [List.filter_cons_of_neg (by simpa using hOther)]
        simp only [List.map_cons, List.mem_cons, hKey, false_or, if_false]

theorem getD_gather (contributions : List (κ × List β)) (key : κ) :
    ((gather contributions).get? key).getD [] =
      ((contributions.filter fun entry => entry.1 = key).map Prod.snd).flatten := by
  rw [get?_gather]
  split
  · rfl
  · rename_i hAbsent
    have hNone : contributions.filter (fun entry => entry.1 = key) = [] := by
      refine List.filter_eq_nil_iff.mpr fun entry hEntry hKey => hAbsent ?_
      exact of_decide_eq_true hKey ▸ List.mem_map_of_mem hEntry
    rw [hNone]
    rfl

theorem mem_keys_gather {contributions : List (κ × List β)} {key : κ} :
    key ∈ (gather contributions).keys ↔ ∃ terms, (key, terms) ∈ contributions := by
  rw [mem_keys_iff]
  constructor
  · rintro ⟨value, hMem⟩
    have hGet := get?_of_mem hMem
    rw [get?_gather] at hGet
    split at hGet
    · rename_i hKey
      simpa using hKey
    · cases hGet
  · rintro ⟨terms, hMem⟩
    have hKey : key ∈ contributions.map Prod.fst := List.mem_map_of_mem hMem
    have hGet := get?_gather contributions key
    rw [if_pos hKey] at hGet
    exact ⟨_, mem_of_get? hGet⟩

/-- A gathered term is one of the contributions to its key. -/
theorem mem_gathered {contributions : List (κ × List β)} {key : κ} {terms : List β}
    (hMem : (key, terms) ∈ (gather contributions).entries) {term : β} :
    term ∈ terms ↔ ∃ part, (key, part) ∈ contributions ∧ term ∈ part := by
  have hGet := get?_of_mem hMem
  rw [get?_gather] at hGet
  split at hGet
  · cases hGet
    simp only [List.mem_flatten, List.mem_map, List.mem_filter, decide_eq_true_eq]
    constructor
    · rintro ⟨part, ⟨entry, ⟨hEntry, rfl⟩, rfl⟩, hTerm⟩
      exact ⟨entry.2, hEntry, hTerm⟩
    · rintro ⟨part, hPart, hTerm⟩
      exact ⟨part, ⟨(key, part), ⟨hPart, rfl⟩, rfl⟩, hTerm⟩
  · cases hGet

/-- Gathering loses no terms. -/
theorem exists_mem_gathered {contributions : List (κ × List β)} {term : β} :
    (∃ entry ∈ (gather contributions).entries, term ∈ entry.2) ↔
      ∃ contribution ∈ contributions, term ∈ contribution.2 := by
  constructor
  · rintro ⟨entry, hEntry, hTerm⟩
    obtain ⟨part, hPart, hIn⟩ := (mem_gathered hEntry).mp hTerm
    exact ⟨_, hPart, hIn⟩
  · rintro ⟨⟨key, part⟩, hPart, hIn⟩
    obtain ⟨terms, hGathered⟩ := mem_keys_iff.mp (mem_keys_gather.mpr ⟨part, hPart⟩)
    exact ⟨_, hGathered, (mem_gathered hGathered).mpr ⟨part, hPart, hIn⟩⟩

end Gather

end SortedMap

/-! ### Keys that hold something -/

/-- Whether an entry is a token, or a symbolic zero where these count. -/
def Entry.Counts (zeros : Prop) (entry : Entry) : Prop :=
  zeros ∨ entry.isSome

namespace TensorCode

/-- Whether a code has a token under a key, or a symbolic zero where these count. -/
def Holds (zeros : Prop) (code : TensorCode) (key : Key) : Prop :=
  ∃ entry, (key, entry) ∈ code.entries ∧ Entry.Counts zeros entry

theorem holds_true {code : TensorCode} {key : Key} : code.Holds True key ↔ key ∈ code.keys := by
  simp [Holds, Entry.Counts, SortedMap.mem_keys_iff]

theorem holds_false {code : TensorCode} {key : Key} :
    code.Holds False key ↔ key ∈ code.nonzero.keys := by
  rw [SortedMap.mem_keys_iff]
  simp [Holds, Entry.Counts, nonzero, SortedMap.filterMapValues, Option.isSome_iff_exists]

variable {zeros : Prop}

theorem holds_of_entries {code : TensorCode} {own : Key} {entry : Entry}
    (hEntries : code.entries = [(own, entry)]) {key : Key} :
    code.Holds zeros key ↔ key = own ∧ entry.Counts zeros := by
  simp [Holds, hEntries]

theorem holds_singleton {own key : Key} {entry : Entry} :
    Holds zeros (.singleton own entry) key ↔ key = own ∧ entry.Counts zeros :=
  holds_of_entries rfl

theorem holds_scalar {entry : Entry} {key : Key} :
    (scalar entry).Holds zeros key ↔ key = [] ∧ entry.Counts zeros :=
  holds_singleton

theorem eq_scalar_of_asScalar? {code : TensorCode} {entry : Entry}
    (hScalar : code.asScalar? = some entry) : code = scalar entry := by
  unfold SortedMap.asScalar? at hScalar
  split at hScalar
  · rename_i value hEntries
    cases hScalar
    exact SortedMap.ext hEntries
  · contradiction

end TensorCode

namespace Dialect

variable {dialect : Dialect}

theorem isSome_join {terms : List Token} : (dialect.join terms).isSome ↔ terms ≠ [] := by
  match terms with
  | [] => simp [join]
  | [_] => simp [join]
  | _ :: _ :: _ => simp [join]

/-- A sum of terms that succeeds is symbolic zero only without terms. -/
theorem isSome_addTerms {terms : List Token} {entry : Entry}
    (hSum : dialect.addTerms terms = .ok entry) : entry.isSome ↔ terms ≠ [] := by
  unfold addTerms at hSum
  split at hSum
  · rename_i hSeveral
    have hTerms : terms ≠ [] := by
      rintro rfl
      simp at hSeveral
    simp only [List.isEmpty_iff] at hSum
    split at hSum
    · contradiction
    · rename_i hCollapsed
      cases hSum
      simp [isSome_join, hCollapsed, hTerms]
  · cases hSum
    cases terms <;> simp

/-- Factors that are multiplied are tokens, unless one of them is symbolic zero. -/
theorem isSome_properFactors {factors : List Entry} {proper : Option (List Token)}
    (hFactors : dialect.properFactors factors = .ok proper) :
    proper.isSome ↔ ∀ factor ∈ factors, factor.isSome := by
  induction factors generalizing proper with
  | nil =>
      cases hFactors
      simp
  | cons factor rest ih =>
      cases factor with
      | none =>
          cases hFactors
          simp
      | some token =>
          rw [properFactors] at hFactors
          split at hFactors
          · contradiction
          · obtain ⟨others, hOthers, hFactors⟩ := exists_of_bind_ok hFactors
            cases hFactors
            simp [ih hOthers]

/-- A product that succeeds is symbolic zero only if one of the factors is. -/
theorem isSome_productEntry {factors : List Entry} {entry : Entry}
    (hProduct : dialect.productEntry factors = .ok entry) :
    entry.isSome ↔ ∀ factor ∈ factors, factor.isSome := by
  obtain ⟨proper, hProper, hProduct⟩ := exists_of_bind_ok hProduct
  rw [← isSome_properFactors hProper]
  split at hProduct <;> cases hProduct <;> simp

/-- Proper factors are the tokens without the literal ones, if no factor is symbolic zero. -/
theorem properFactors_eq_some {factors : List Entry} {proper : List Token}
    (hProper : dialect.properFactors factors = .ok (some proper)) :
    ∃ tokens : List Token, factors = tokens.map some ∧
      proper = tokens.filter (· ≠ dialect.identity) := by
  induction factors generalizing proper with
  | nil =>
      cases hProper
      exact ⟨[], rfl, rfl⟩
  | cons factor rest ih =>
      cases factor with
      | none => cases hProper
      | some token =>
          rw [properFactors] at hProper
          split at hProper
          · contradiction
          · obtain ⟨others, hOthers, hProper⟩ := exists_of_bind_ok hProper
            cases others with
            | none => cases hProper
            | some others =>
                obtain ⟨tokens, rfl, rfl⟩ := ih hOthers
                refine ⟨token :: tokens, rfl, ?_⟩
                cases hProper
                by_cases hOne : token = dialect.identity <;> simp [hOne]

/-- The token of a product is made of the tokens of its factors, without the literal ones. -/
theorem productEntry_eq_some {factors : List Entry} {token : Token}
    (hProduct : dialect.productEntry factors = .ok (some token)) :
    ∃ tokens : List Token, factors = tokens.map some ∧
      token = if tokens.filter (· ≠ dialect.identity) = [] then dialect.identity
        else dialect.multiply (tokens.filter (· ≠ dialect.identity)) := by
  obtain ⟨proper, hProper, hProduct⟩ := exists_of_bind_ok hProduct
  split at hProduct
  · cases hProduct
  · cases hProduct
    obtain ⟨tokens, rfl, hFilter⟩ := properFactors_eq_some hProper
    exact ⟨tokens, rfl, (if_pos hFilter.symm).symm⟩
  · rename_i hNonempty
    cases hProduct
    obtain ⟨tokens, rfl, rfl⟩ := properFactors_eq_some hProper
    exact ⟨tokens, rfl, (if_neg hNonempty).symm⟩

end Dialect

namespace TensorCode

variable {dialect : Dialect} {zeros : Prop} {code : TensorCode} {key : Key}

/-! ### Sums -/

theorem holds_addTerms {contributions : List (Key × List Token)}
    (hCode : (SortedMap.gather contributions).traverse dialect.addTerms = .ok code) :
    code.Holds zeros key ↔ ∃ terms, (key, terms) ∈ contributions ∧ (zeros ∨ terms ≠ []) := by
  have hSums := SortedMap.related_of_traverse hCode
  constructor
  · rintro ⟨entry, hMem, hCounts⟩
    obtain ⟨terms, hTerms, hSum⟩ := hSums.symm.exists_of_mem_left hMem
    rcases hCounts with hZeros | hSome
    · obtain ⟨part, hPart⟩ := SortedMap.mem_keys_gather.mp (SortedMap.mem_keys_iff.mpr ⟨_, hTerms⟩)
      exact ⟨part, hPart, .inl hZeros⟩
    · -- A token is a sum of terms, and each of them is from some contribution.
      obtain ⟨term, hTerm⟩ := List.exists_mem_of_ne_nil terms ((dialect.isSome_addTerms hSum).mp hSome)
      obtain ⟨part, hPart, hIn⟩ := (SortedMap.mem_gathered hTerms).mp hTerm
      exact ⟨part, hPart, .inr (List.ne_nil_of_mem hIn)⟩
  · rintro ⟨part, hPart, hCounts⟩
    obtain ⟨terms, hTerms⟩ := SortedMap.mem_keys_iff.mp (SortedMap.mem_keys_gather.mpr ⟨part, hPart⟩)
    obtain ⟨entry, hEntry, hSum⟩ := hSums.exists_of_mem_left hTerms
    refine ⟨entry, hEntry, hCounts.imp_right fun hSome => ?_⟩
    obtain ⟨term, hTerm⟩ := List.exists_mem_of_ne_nil part hSome
    have hIn : term ∈ terms := (SortedMap.mem_gathered hTerms).mpr ⟨part, hPart, hTerm⟩
    exact (dialect.isSome_addTerms hSum).mpr (List.ne_nil_of_mem hIn)

theorem mem_sumContributions {operands : List TensorCode} {terms : List Token} :
    (key, terms) ∈ sumContributions operands ↔
      ∃ operand ∈ operands, ∃ entry : Entry, (key, entry) ∈ operand.entries ∧ entry.toList = terms := by
  simp [sumContributions]

theorem counts_iff {entry : Entry} : entry.Counts zeros ↔ zeros ∨ entry.toList ≠ [] := by
  cases entry <;> simp [Entry.Counts]

/-- A sum has the keys of its operands. -/
theorem holds_sum {operands : List TensorCode} (hCode : sum dialect operands = .ok code) :
    code.Holds zeros key ↔ ∃ operand ∈ operands, operand.Holds zeros key := by
  rw [holds_addTerms hCode]
  simp only [mem_sumContributions]
  constructor
  · rintro ⟨_, ⟨operand, hOperand, entry, hEntry, rfl⟩, hCounts⟩
    exact ⟨operand, hOperand, entry, hEntry, counts_iff.mpr hCounts⟩
  · rintro ⟨operand, hOperand, entry, hEntry, hCounts⟩
    exact ⟨entry.toList, ⟨operand, hOperand, entry, hEntry, rfl⟩, counts_iff.mp hCounts⟩

/-! ### Products -/

/-- Whether a key is the concatenation of one key of each operand. -/
def Concatenates (zeros : Prop) (operands : List TensorCode) (key : Key) : Prop :=
  ∃ keys, List.Forall₂ (Holds zeros) operands keys ∧ keys.flatten = key

theorem concatenates_nil : Concatenates zeros [] key ↔ key = [] := by
  constructor
  · rintro ⟨_, ⟨⟩, rfl⟩
    rfl
  · rintro rfl
    exact ⟨[], .nil, rfl⟩

theorem concatenates_cons {operand : TensorCode} {rest : List TensorCode} :
    Concatenates zeros (operand :: rest) key ↔
      ∃ first others, operand.Holds zeros first ∧ Concatenates zeros rest others ∧
        first ++ others = key := by
  constructor
  · rintro ⟨_, _ | ⟨hFirst, hRest⟩, rfl⟩
    exact ⟨_, _, hFirst, ⟨_, hRest, rfl⟩, rfl⟩
  · rintro ⟨first, _, hFirst, ⟨keys, hRest, rfl⟩, rfl⟩
    exact ⟨first :: keys, .cons hFirst hRest, rfl⟩

/-- Scalars only add the empty key, so they can be set aside. -/
theorem concatenates_tensors {operands : List TensorCode}
    (hNonempty : ∀ operand ∈ operands, operand.entries ≠ []) :
    Concatenates zeros operands key ↔
      Concatenates zeros (operands.filter SortedMap.isTensor) key ∧
        ∀ scalar ∈ operands.filterMap SortedMap.asScalar?, Entry.Counts zeros scalar := by
  induction operands generalizing key with
  | nil => simp [concatenates_nil]
  | cons operand rest ih =>
      rw [List.forall_mem_cons] at hNonempty
      rcases SortedMap.scalar_or_tensor hNonempty.1 with
        ⟨hTensor, hScalar⟩ | ⟨entry, hTensor, hScalar, hEntries⟩
      · rw [List.filter_cons_of_pos hTensor, List.filterMap_cons_none hScalar, concatenates_cons,
          concatenates_cons]
        constructor
        · rintro ⟨first, others, hFirst, hOthers, rfl⟩
          obtain ⟨hTensors, hScalars⟩ := (ih hNonempty.2).mp hOthers
          exact ⟨⟨first, others, hFirst, hTensors, rfl⟩, hScalars⟩
        · rintro ⟨⟨first, others, hFirst, hTensors, rfl⟩, hScalars⟩
          exact ⟨first, others, hFirst, (ih hNonempty.2).mpr ⟨hTensors, hScalars⟩, rfl⟩
      · have hFalse : ¬operand.isTensor = true := by simp [hTensor]
        rw [List.filter_cons_of_neg hFalse, List.filterMap_cons_some hScalar, concatenates_cons,
          List.forall_mem_cons]
        constructor
        · rintro ⟨first, others, hFirst, hOthers, rfl⟩
          obtain ⟨rfl, hEntry⟩ := (holds_of_entries hEntries).mp hFirst
          obtain ⟨hTensors, hScalars⟩ := (ih hNonempty.2).mp hOthers
          exact ⟨hTensors, hEntry, hScalars⟩
        · rintro ⟨hTensors, hEntry, hScalars⟩
          exact ⟨[], key, (holds_of_entries hEntries).mpr ⟨rfl, hEntry⟩,
            (ih hNonempty.2).mpr ⟨hTensors, hScalars⟩, rfl⟩

/-- A choice of keys is a choice of entries under them. -/
theorem forall₂_holds_iff {operands : List TensorCode} {keys : List Key} :
    List.Forall₂ (Holds zeros) operands keys ↔
      ∃ entries, List.Forall₂ (· ∈ ·) entries (operands.map (·.entries)) ∧
        entries.map Prod.fst = keys ∧ ∀ entry ∈ entries, Entry.Counts zeros entry.2 := by
  induction operands generalizing keys with
  | nil => simp [eq_comm]
  | cons operand rest ih =>
      rw [List.forall₂_cons_left_iff]
      constructor
      · rintro ⟨first, others, ⟨entry, hEntry, hCounts⟩, hOthers, rfl⟩
        obtain ⟨entries, hMem, rfl, hAll⟩ := ih.mp hOthers
        exact ⟨(first, entry) :: entries, .cons hEntry hMem, rfl,
          List.forall_mem_cons.mpr ⟨hCounts, hAll⟩⟩
      · rintro ⟨_, _ | ⟨hEntry, hMem⟩, rfl, hAll⟩
        rw [List.forall_mem_cons] at hAll
        exact ⟨_, _, ⟨_, hEntry, hAll.1⟩, ih.mpr ⟨_, hMem, rfl, hAll.2⟩, rfl⟩

theorem concatenates_iff_entryChoices {tensors : List TensorCode} (hSome : tensors ≠ []) :
    Concatenates zeros tensors key ↔
      ∃ chosen ∈ entryChoices tensors, chosen.1 = key ∧
        ∀ entry ∈ chosen.2, Entry.Counts zeros entry := by
  unfold Concatenates entryChoices
  rw [if_neg (by simpa using hSome)]
  simp only [forall₂_holds_iff, List.mem_map, mem_choices]
  constructor
  · rintro ⟨_, ⟨entries, hMem, rfl, hAll⟩, rfl⟩
    exact ⟨_, ⟨entries, hMem, rfl⟩, List.flatMap_def, List.forall_mem_map.mpr hAll⟩
  · rintro ⟨_, ⟨entries, hMem, rfl⟩, rfl, hAll⟩
    exact ⟨_, ⟨entries, hMem, rfl, List.forall_mem_map.mp hAll⟩, List.flatMap_def.symm⟩

/-- A product of entries counts if all of its factors do. -/
theorem counts_productEntry {factors : List Entry} {entry : Entry}
    (hProduct : dialect.productEntry factors = .ok entry) :
    entry.Counts zeros ↔ ∀ factor ∈ factors, factor.Counts zeros := by
  unfold Entry.Counts
  rw [dialect.isSome_productEntry hProduct]
  by_cases hZeros : zeros <;> simp [hZeros]

/-- A key of a product is the sorted concatenation of a key of each operand. -/
theorem holds_product {operands : List TensorCode}
    (hNonempty : ∀ operand ∈ operands, operand.entries ≠ [])
    (hCode : product dialect operands = .ok code) :
    code.Holds zeros key ↔ ∃ chosen, Concatenates zeros operands chosen ∧ Key.sorted chosen = key := by
  simp only [product] at hCode
  split at hCode
  · -- Without tensors there is one component, the product of the scalars.
    rename_i hNone
    obtain ⟨entry, hEntry, hCode⟩ := exists_of_bind_ok hCode
    cases hCode
    simp only [holds_scalar, concatenates_tensors hNonempty, List.isEmpty_iff.mp hNone,
      concatenates_nil, counts_productEntry hEntry]
    constructor
    · rintro ⟨rfl, hAll⟩
      exact ⟨[], ⟨rfl, hAll⟩, rfl⟩
    · rintro ⟨_, ⟨rfl, hAll⟩, rfl⟩
      exact ⟨rfl, hAll⟩
  · rename_i hSome
    rw [List.isEmpty_iff] at hSome
    obtain ⟨contributions, hContributions, hCode⟩ := exists_of_bind_ok hCode
    have hRun := forall₂_of_mapM_ok hContributions
    simp only [holds_addTerms hCode, concatenates_tensors hNonempty,
      concatenates_iff_entryChoices hSome]
    constructor
    · rintro ⟨terms, hMem, hCounts⟩
      obtain ⟨chosen, hChosen, hContribution⟩ := exists_of_mem_right hRun hMem
      obtain ⟨entry, hProduct, hContribution⟩ := exists_of_bind_ok hContribution
      cases hContribution
      have hAll := (counts_productEntry hProduct).mp (counts_iff.mpr hCounts)
      rw [List.forall_mem_append] at hAll
      exact ⟨chosen.1, ⟨⟨chosen, hChosen, rfl, hAll.1⟩, hAll.2⟩, rfl⟩
    · rintro ⟨_, ⟨⟨chosen, hChosen, rfl, hEntries⟩, hScalars⟩, rfl⟩
      obtain ⟨contribution, hMem, hContribution⟩ := exists_of_mem_left hRun hChosen
      obtain ⟨entry, hProduct, hContribution⟩ := exists_of_bind_ok hContribution
      cases hContribution
      have hAll := List.forall_mem_append.mpr ⟨hEntries, hScalars⟩
      exact ⟨_, hMem, counts_iff.mp ((counts_productEntry hProduct).mpr hAll)⟩

/-! ### Quotients and functions -/

theorem holds_mapValues {change : Entry → Entry}
    (hChange : ∀ entry, (change entry).isSome ↔ entry.isSome) :
    Holds zeros (code.mapValues change) key ↔ code.Holds zeros key := by
  unfold Holds SortedMap.mapValues
  simp only [List.mem_map, Prod.mk.injEq]
  constructor
  · rintro ⟨_, ⟨⟨_, entry⟩, hMem, rfl, rfl⟩, hCounts⟩
    exact ⟨entry, hMem, hCounts.imp_right (hChange entry).mp⟩
  · rintro ⟨entry, hMem, hCounts⟩
    exact ⟨change entry, ⟨_, hMem, rfl, rfl⟩, hCounts.imp_right (hChange entry).mpr⟩

/-- A quotient has the keys of its numerator. -/
theorem holds_division {operands : List TensorCode} (hCode : division dialect operands = .ok code) :
    ∃ numerator denominator, operands = [numerator, denominator] ∧
      ∀ {zeros : Prop} {key}, code.Holds zeros key ↔ numerator.Holds zeros key := by
  unfold division at hCode
  split at hCode
  · rename_i numerator denominator
    split at hCode
    · contradiction
    · contradiction
    · cases hCode
      refine ⟨numerator, denominator, rfl, holds_mapValues fun entry => ?_⟩
      simp
  · contradiction

theorem onlyScalar_eq_ok {node : String} {operands : List TensorCode} {entry : Entry}
    (hEntry : onlyScalar node operands = .ok entry) : operands = [scalar entry] := by
  unfold onlyScalar at hEntry
  split at hEntry
  · rename_i operand
    split at hEntry
    · rename_i value hScalar
      cases hEntry
      rw [eq_scalar_of_asScalar? hScalar]
    · contradiction
  · contradiction

/-- An absolute value is that of a scalar. -/
theorem abs_eq_ok {operands : List TensorCode} (hCode : abs dialect operands = .ok code) :
    ∃ entry : Entry, operands = [scalar entry] ∧ code = scalar (entry.map dialect.absolute) := by
  obtain ⟨entry, hEntry, hCode⟩ := exists_of_bind_ok hCode
  cases hCode
  exact ⟨entry, onlyScalar_eq_ok hEntry, rfl⟩

/-- A function of a scalar is a token, also of symbolic zero. -/
theorem applyFunction_eq_ok {function : ElementaryFunction} {operands : List TensorCode}
    (hCode : applyFunction dialect function operands = .ok code) :
    ∃ entry : Entry, operands = [scalar entry] ∧
      code = scalar (some (dialect.elementary function (entry.getD (dialect.literal .zero)))) := by
  obtain ⟨entry, hEntry, hCode⟩ := exists_of_bind_ok hCode
  cases hCode
  exact ⟨entry, onlyScalar_eq_ok hEntry, rfl⟩

end TensorCode

end FormLowering
