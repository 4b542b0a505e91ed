import FormLowering.Proofs.Support.Faults

/-!
# Codes that fade

A code *fades* to another one with the same keys if no symbolic zero of it becomes a
token.  What an operation makes of codes fades with them, as the keys and live keys of
its operands decide those of the result.  An operation that had succeeded can fail after
its operands have faded, but only since a divisor has become symbolic zero, unless there
are empty tokens.
-/

namespace FormLowering

theorem SortedMap.asScalar?_eq_some_iff {β : Type} {map : SortedMap Key β} {value : β} :
    map.asScalar? = some value ↔ map.entries = [([], value)] := by
  unfold asScalar?
  constructor
  · intro hScalar
    split at hScalar
    · rename_i hEntries
      cases hScalar
      exact hEntries
    · contradiction
  · intro hEntries
    rw [hEntries]

namespace TensorCode

variable {dialect : Dialect} {zeros : Prop} {key : Key}

theorem entries_eq_nil_iff {code : TensorCode} :
    code.entries = [] ↔ ∀ key, ¬code.Holds True key := by
  simp only [holds_true, SortedMap.keys, List.mem_map, not_exists, not_and]
  constructor
  · rintro hEmpty key entry hMem -
    rw [hEmpty] at hMem
    exact List.not_mem_nil hMem
  · intro hNone
    exact List.eq_nil_iff_forall_not_mem.mpr fun entry hMem => hNone entry.1 entry hMem rfl

/-- Operands without entries do not count in a product. -/
theorem product_eq_product_nonempty (dialect : Dialect) (operands : List TensorCode) :
    product dialect operands =
      product dialect (operands.filter fun operand => !operand.entries.isEmpty) := by
  have hTensors : (operands.filter fun operand => !operand.entries.isEmpty).filter
      SortedMap.isTensor = operands.filter SortedMap.isTensor := by
    rw [List.filter_filter]
    refine List.filter_congr fun operand _ => ?_
    unfold SortedMap.isTensor
    cases operand.entries <;> simp
  have hScalars : (operands.filter fun operand => !operand.entries.isEmpty).filterMap
      SortedMap.asScalar? = operands.filterMap SortedMap.asScalar? := by
    rw [List.filterMap_filter]
    refine List.filterMap_congr fun operand _ => ?_
    split
    · rfl
    · rename_i hEmpty
      unfold SortedMap.asScalar?
      cases hEntries : operand.entries with
      | nil => rfl
      | cons entry rest => simp [hEntries] at hEmpty
  unfold product
  rw [hTensors, hScalars]

/-! ### Operations on codes with more keys -/

/-- Whether two codes have no entries alike, and the second one has all keys, or live
keys, of the first one. -/
structure Below (zeros : Prop) (code other : TensorCode) : Prop where
  empty : code.entries = [] ↔ other.entries = []
  holds : ∀ {key}, code.Holds zeros key → other.Holds zeros key

namespace Below

theorem concatenates {codes others : List TensorCode}
    (hCodes : List.Forall₂ (Below zeros) codes others) (hKey : Concatenates zeros codes key) :
    Concatenates zeros others key := by
  obtain ⟨keys, hKeys, rfl⟩ := hKey
  refine ⟨keys, ?_, rfl⟩
  induction hCodes generalizing keys with
  | nil => exact hKeys
  | cons hFirst _ ih =>
      cases hKeys with
      | cons hKey hRest => exact .cons (hFirst.holds hKey) (ih _ hRest)

variable {code other : TensorCode}

theorem product {codes others : List TensorCode}
    (hCodes : List.Forall₂ (Below zeros) codes others)
    (hCode : TensorCode.product dialect codes = .ok code)
    (hOther : TensorCode.product dialect others = .ok other) (hKey : code.Holds zeros key) :
    other.Holds zeros key := by
  rw [product_eq_product_nonempty] at hCode hOther
  have hNonempty (operands : List TensorCode) :
      ∀ operand ∈ operands.filter fun operand => !operand.entries.isEmpty, operand.entries ≠ [] := by
    intro operand hOperand
    simpa using (List.mem_filter.mp hOperand).2
  have hFiltered := List.rel_filter (R := Below zeros) (p := fun code => !code.entries.isEmpty)
    (q := fun code => !code.entries.isEmpty) (fun code other hBelow => by simp [hBelow.empty]) hCodes
  obtain ⟨chosen, hChosen, hSorted⟩ := (holds_product (hNonempty codes) hCode).mp hKey
  exact (holds_product (hNonempty others) hOther).mpr ⟨chosen, concatenates hFiltered hChosen, hSorted⟩

/-- What is combined from codes with more keys has more keys. -/
theorem combine (operation : Operation) {codes others : List TensorCode}
    (hCodes : List.Forall₂ (Below zeros) codes others)
    (hCode : operation.combine dialect codes = .ok code)
    (hOther : operation.combine dialect others = .ok other) (hKey : code.Holds zeros key) :
    other.Holds zeros key := by
  cases operation with
  | sum =>
      obtain ⟨operand, hOperand, hOwn⟩ := (holds_sum hCode).mp hKey
      obtain ⟨operand', hOperand', hBelow⟩ := exists_of_mem_left hCodes hOperand
      exact (holds_sum hOther).mpr ⟨operand', hOperand', hBelow.holds hOwn⟩
  | product => exact product hCodes hCode hOther hKey
  | division =>
      obtain ⟨numerator, denominator, rfl, hHolds⟩ := holds_division hCode
      obtain ⟨numerator', denominator', rfl, hHolds'⟩ := holds_division hOther
      cases hCodes with
      | cons hNumerator _ => exact hHolds'.mpr (hNumerator.holds (hHolds.mp hKey))
  | abs =>
      obtain ⟨entry, rfl, rfl⟩ := abs_eq_ok hCode
      obtain ⟨entry', rfl, rfl⟩ := abs_eq_ok hOther
      cases hCodes with
      | cons hBelow _ =>
          have hOwn : (scalar entry).Holds zeros key := by
            simpa [holds_scalar, Entry.Counts] using hKey
          simpa [holds_scalar, Entry.Counts] using hBelow.holds hOwn
  | elementary function =>
      obtain ⟨entry, -, rfl⟩ := applyFunction_eq_ok hCode
      obtain ⟨entry', -, rfl⟩ := applyFunction_eq_ok hOther
      simpa [holds_scalar, Entry.Counts] using hKey

end Below

/-! ### Fading -/

/-- Whether two codes have the same keys and the second one has a token only where the
first one has. -/
structure FadesTo (code faded : TensorCode) : Prop where
  keys : ∀ {key}, code.Holds True key ↔ faded.Holds True key
  live : ∀ {key}, faded.Holds False key → code.Holds False key

namespace FadesTo

variable {code faded : TensorCode}

theorem refl (code : TensorCode) : code.FadesTo code :=
  ⟨Iff.rfl, id⟩

theorem scalar {entry entry' : Entry} (hEntry : entry = none → entry' = none) :
    (scalar entry).FadesTo (scalar entry') := by
  refine ⟨by simp [holds_scalar, Entry.Counts], fun {key} hKey => ?_⟩
  obtain ⟨rfl, hCounts⟩ := holds_scalar.mp hKey
  refine holds_scalar.mpr ⟨rfl, .inr ?_⟩
  cases entry with
  | none => simp [hEntry rfl, Entry.Counts] at hCounts
  | some token => rfl

theorem keys_eq (hFades : code.FadesTo faded) : code.keys = faded.keys :=
  SortedSet.eq_of_mem_iff code.increasing faded.increasing fun _ =>
    holds_true.symm.trans (hFades.keys.trans holds_true)

theorem entries_eq_nil (hFades : code.FadesTo faded) : code.entries = [] ↔ faded.entries = [] := by
  simp only [entries_eq_nil_iff, hFades.keys]

/-- A symbolic zero stays one. -/
theorem get?_eq_none (hFades : code.FadesTo faded) (hZero : code.get? key = some none) :
    faded.get? key = some none := by
  have hMem := SortedMap.mem_of_get? hZero
  obtain ⟨entry, hEntry, -⟩ := hFades.keys.mp ⟨none, hMem, .inl trivial⟩
  rw [SortedMap.get?_of_mem hEntry]
  cases entry with
  | none => rfl
  | some token =>
      obtain ⟨other, hOther, hCounts⟩ := hFades.live ⟨_, hEntry, .inr rfl⟩
      rw [SortedMap.get?_of_mem hOther] at hZero
      cases hZero
      simp [Entry.Counts] at hCounts

/-- A code that fades is a scalar before and after, or neither. -/
theorem asScalar? (hFades : code.FadesTo faded) :
    Option.Rel (fun entry entry' => entry = none → entry' = none) code.asScalar?
      faded.asScalar? := by
  have hKeys := hFades.keys_eq
  unfold SortedMap.keys at hKeys
  cases hCode : code.asScalar? with
  | none =>
      cases hFaded : faded.asScalar? with
      | none => exact .none
      | some entry' =>
          rw [SortedMap.asScalar?_eq_some_iff] at hFaded
          rw [hFaded, List.map_singleton, List.map_eq_singleton_iff] at hKeys
          obtain ⟨⟨_, entry⟩, hEntries, rfl⟩ := hKeys
          rw [SortedMap.asScalar?_eq_some_iff.mpr hEntries] at hCode
          contradiction
  | some entry =>
      have hEntries := SortedMap.asScalar?_eq_some_iff.mp hCode
      rw [hEntries, List.map_singleton, eq_comm, List.map_eq_singleton_iff] at hKeys
      obtain ⟨⟨_, entry'⟩, hEntries', rfl⟩ := hKeys
      rw [SortedMap.asScalar?_eq_some_iff.mpr hEntries']
      refine .some ?_
      rintro rfl
      have hZero : code.get? [] = some none :=
        SortedMap.get?_of_mem (hEntries ▸ List.mem_singleton_self _)
      have hFaded := hFades.get?_eq_none hZero
      rw [SortedMap.get?_of_mem (hEntries' ▸ List.mem_singleton_self _)] at hFaded
      exact Option.some.inj hFaded

/-- The only operand of a node is scalar also after it has faded. -/
theorem exists_onlyScalar {entry : Entry} {fadeds : List TensorCode} (node : String)
    (hCodes : List.Forall₂ FadesTo [TensorCode.scalar entry] fadeds) :
    ∃ entry', onlyScalar node fadeds = .ok entry' := by
  obtain ⟨faded, _, hFades, hRest, rfl⟩ := List.forall₂_cons_left_iff.mp hCodes
  cases hRest
  have hScalar := hFades.asScalar?
  rw [SortedMap.asScalar?_eq_some_iff.mpr rfl] at hScalar
  cases hFaded : faded.asScalar? with
  | none =>
      rw [hFaded] at hScalar
      cases hScalar
  | some entry' => exact ⟨entry', by simp only [onlyScalar, hFaded]; rfl⟩

theorem below (hFades : code.FadesTo faded) : Below True code faded :=
  ⟨hFades.entries_eq_nil, hFades.keys.mp⟩

theorem below_symm (hFades : code.FadesTo faded) : Below True faded code :=
  ⟨hFades.entries_eq_nil.symm, hFades.keys.mpr⟩

theorem below_live (hFades : code.FadesTo faded) : Below False faded code :=
  ⟨hFades.entries_eq_nil.symm, hFades.live⟩

/-- What is combined from codes fades with them. -/
theorem combine (operation : Operation) {codes fadeds : List TensorCode}
    (hCodes : List.Forall₂ FadesTo codes fadeds)
    (hCode : operation.combine dialect codes = .ok code)
    (hFaded : operation.combine dialect fadeds = .ok faded) : code.FadesTo faded where
  keys := ⟨Below.combine operation (hCodes.imp fun _ _ => below) hCode hFaded,
    Below.combine operation (hCodes.flip.imp fun _ _ => below_symm) hFaded hCode⟩
  live := Below.combine operation (hCodes.flip.imp fun _ _ => below_live) hFaded hCode

/-- An operation on codes with nonempty tokens that fails only after they have faded is a
division by zero. -/
theorem fault_of_combine (operation : Operation) {codes fadeds : List TensorCode}
    (hCodes : List.Forall₂ FadesTo codes fadeds)
    (hTokens : ∀ faded ∈ fadeds, faded.AllTokens (· ≠ ""))
    (hCode : operation.combine dialect codes = .ok code) {fault : Fault}
    (hFault : operation.combine dialect fadeds = .error fault) : fault = .divisionByZero := by
  cases operation with
  | sum =>
      obtain ⟨faded, hFaded⟩ := exists_sum dialect fadeds
      exact nomatch hFaded.symm.trans hFault
  | product =>
      obtain ⟨faded, hFaded⟩ := exists_product dialect hTokens
      exact nomatch hFaded.symm.trans hFault
  | division =>
      obtain ⟨numerator, denominator, rfl, -⟩ := holds_division hCode
      obtain ⟨_, _, -, hDenominators, rfl⟩ := List.forall₂_cons_left_iff.mp hCodes
      obtain ⟨denominator', _, hFades, hRest, rfl⟩ := List.forall₂_cons_left_iff.mp hDenominators
      cases hRest
      have hScalar := hFades.asScalar?
      simp only [Operation.combine, division] at hCode hFault
      generalize denominator.asScalar? = entry at hScalar hCode
      generalize denominator'.asScalar? = entry' at hScalar hFault
      cases hScalar with
      | none => contradiction
      | @some _ divisor _ =>
          cases divisor with
          | none =>
              cases hFault
              rfl
          | some token => contradiction
  | abs =>
      obtain ⟨entry, rfl, -⟩ := abs_eq_ok hCode
      obtain ⟨entry', hOnly⟩ := exists_onlyScalar "Abs" hCodes
      simp only [Operation.combine, abs, hOnly] at hFault
      contradiction
  | elementary function =>
      obtain ⟨entry, rfl, -⟩ := applyFunction_eq_ok hCode
      obtain ⟨entry', hOnly⟩ := exists_onlyScalar function.name hCodes
      simp only [Operation.combine, applyFunction, hOnly] at hFault
      contradiction

end FadesTo

end TensorCode

end FormLowering
