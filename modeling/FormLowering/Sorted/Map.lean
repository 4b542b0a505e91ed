/-!
# Maps listed in key order

A `SortedMap` is a finite map kept as the list of its entries in strictly
increasing key order.  Keys are therefore unique, traversal is reproducible,
and two maps with the same lookups are equal (`SortedMap.ext_get?`).

One primitive, `update`, changes the value at a single key; insertion and
accumulation are instances of it.  Maps over values keep the key list.
-/

namespace FormLowering

/-- A finite map, listed in strictly increasing order of its keys. -/
@[ext]
structure SortedMap (κ β : Type) [LT κ] where
  /-- The entries of the map, in increasing key order. -/
  entries : List (κ × β)
  /-- Every key is smaller than the keys after it. -/
  increasing : (entries.map Prod.fst).Pairwise (· < ·)

namespace SortedMap

variable {κ β γ ε : Type}

/-- A lookup either ends at the first entry or goes on behind it. -/
theorem lookup_cons_ite [DecidableEq κ] (key other : κ) (value : β) (rest : List (κ × β)) :
    ((other, value) :: rest).lookup key =
      if key = other then some value else rest.lookup key := by
  rw [List.lookup_cons]
  by_cases hEq : key = other
  · simp [hEq]
  · rw [if_neg hEq, beq_eq_false_iff_ne.mpr hEq]

section Views

variable [LT κ]

instance [DecidableEq κ] [DecidableEq β] : DecidableEq (SortedMap κ β) :=
  fun left right =>
    decidable_of_iff (left.entries = right.entries) SortedMap.ext_iff.symm

/-- The keys of the map, in increasing order. -/
def keys (map : SortedMap κ β) : List κ :=
  map.entries.map Prod.fst

/-- The number of entries. -/
def size (map : SortedMap κ β) : Nat :=
  map.entries.length

/-- Whether the map has no entries. -/
def isEmpty (map : SortedMap κ β) : Bool :=
  map.entries.isEmpty

/-- The value stored under a key. -/
def get? [DecidableEq κ] (map : SortedMap κ β) (key : κ) : Option β :=
  map.entries.lookup key

/-- Whether a key is present. -/
def contains [DecidableEq κ] (map : SortedMap κ β) (key : κ) : Bool :=
  (map.get? key).isSome

/-- The map without entries. -/
def empty : SortedMap κ β where
  entries := []
  increasing := by simp

/-- The map with a single entry. -/
def singleton (key : κ) (value : β) : SortedMap κ β where
  entries := [(key, value)]
  increasing := by simp

instance : EmptyCollection (SortedMap κ β) :=
  ⟨empty⟩

instance : Inhabited (SortedMap κ β) :=
  ⟨empty⟩

/-- The map with every value changed and every key kept. -/
def mapValues (change : β → γ) (map : SortedMap κ β) : SortedMap κ γ where
  entries := map.entries.map fun entry => (entry.1, change entry.2)
  increasing := by simpa [Function.comp_def] using map.increasing

theorem get?_mapValues [DecidableEq κ] (change : β → γ) (map : SortedMap κ β) (key : κ) :
    (map.mapValues change).get? key = (map.get? key).map change := by
  simp only [get?, mapValues]
  induction map.entries with
  | nil => rfl
  | cons entry rest ih =>
    rw [List.map_cons, lookup_cons_ite key entry.1, lookup_cons_ite, ih]
    split <;> rfl

/-- The map with the entries whose value is changed to `none` left out. -/
def filterMapValues (change : β → Option γ) (map : SortedMap κ β) : SortedMap κ γ where
  entries := map.entries.filterMap fun entry => (change entry.2).map (entry.1, ·)
  increasing := by
    refine map.increasing.sublist ?_
    induction map.entries with
    | nil => exact .slnil
    | cons entry rest ih =>
      cases hChange : change entry.2 with
      | none => simpa [hChange] using ih.cons entry.1
      | some value => simpa [hChange] using ih.cons_cons entry.1

/-- The entries with every value changed, or the first failure in key order. -/
def traverseEntries (change : β → Except ε γ) :
    (entries : List (κ × β)) →
      Except ε {changed : List (κ × γ) // changed.map Prod.fst = entries.map Prod.fst}
  | [] => .ok ⟨[], rfl⟩
  | (key, value) :: rest => do
    let value ← change value
    let ⟨changed, same⟩ ← traverseEntries change rest
    return ⟨(key, value) :: changed, by simp [same]⟩

/-- The map with every value changed, or the first failure in key order. -/
def traverse (change : β → Except ε γ) (map : SortedMap κ β) :
    Except ε (SortedMap κ γ) := do
  let ⟨changed, same⟩ ← traverseEntries change map.entries
  return ⟨changed, by simpa [same] using map.increasing⟩

end Views

section Extensionality

variable [LT κ] [LE κ] [Std.LawfulOrderLT κ]

/-- A lookup finds nothing under a key below all others. -/
theorem lookup_eq_none_of_lt [DecidableEq κ] {entries : List (κ × β)} {key : κ}
    (hBelow : ∀ other ∈ entries.map Prod.fst, key < other) : entries.lookup key = none := by
  induction entries with
  | nil => rfl
  | cons entry rest ih =>
    obtain ⟨other, value⟩ := entry
    simp only [List.map_cons, List.mem_cons, forall_eq_or_imp] at hBelow
    have hNe : key ≠ other := fun hEq => Std.lt_irrefl (hEq ▸ hBelow.1)
    rw [lookup_cons_ite, if_neg hNe, ih hBelow.2]

theorem nodup_keys (map : SortedMap κ β) : map.keys.Nodup :=
  map.increasing.imp Std.ne_of_lt

/-- An entry is found under its key. -/
theorem get?_of_mem [DecidableEq κ] {map : SortedMap κ β} {key : κ} {value : β}
    (hMem : (key, value) ∈ map.entries) : map.get? key = some value := by
  have hIncreasing := map.increasing
  unfold get?
  generalize map.entries = entries at hMem hIncreasing ⊢
  induction entries with
  | nil => cases hMem
  | cons entry rest ih =>
    rw [List.map_cons, List.pairwise_cons] at hIncreasing
    rw [lookup_cons_ite key entry.1]
    rcases List.mem_cons.mp hMem with rfl | hRest
    · exact if_pos rfl
    · have hLt := hIncreasing.1 key (List.mem_map_of_mem hRest)
      have hNe : key ≠ entry.1 := fun hEq => Std.lt_irrefl (hEq ▸ hLt)
      rw [if_neg hNe]
      exact ih hRest hIncreasing.2

/-- Two increasing lists of entries with the same lookups are equal. -/
theorem eq_of_lookup_eq [Std.IsLinearOrder κ] [DecidableEq κ] {left right : List (κ × β)}
    (hLeft : (left.map Prod.fst).Pairwise (· < ·))
    (hRight : (right.map Prod.fst).Pairwise (· < ·))
    (hLookup : ∀ key, left.lookup key = right.lookup key) : left = right := by
  induction left generalizing right with
  | nil =>
    cases right with
    | nil => rfl
    | cons entry rest =>
      have hFirst := hLookup entry.1
      rw [lookup_cons_ite, if_pos rfl] at hFirst
      simp at hFirst
  | cons entry rest ih =>
    obtain ⟨key, value⟩ := entry
    cases right with
    | nil =>
      have hFirst := hLookup key
      rw [lookup_cons_ite, if_pos rfl] at hFirst
      simp at hFirst
    | cons entry' rest' =>
      obtain ⟨key', value'⟩ := entry'
      simp only [List.map_cons, List.pairwise_cons] at hLeft hRight
      have hKeys : key = key' := by
        rcases Std.lt_trichotomy key key' with hLt | hEq | hGt
        · have hFirst := hLookup key
          rw [lookup_cons_ite, if_pos rfl, lookup_eq_none_of_lt] at hFirst
          · simp at hFirst
          · simp only [List.map_cons, List.mem_cons, forall_eq_or_imp]
            exact ⟨hLt, fun other hMem => Std.lt_trans hLt (hRight.1 other hMem)⟩
        · exact hEq
        · have hFirst := hLookup key'
          rw [lookup_cons_ite key' key', if_pos rfl, lookup_eq_none_of_lt] at hFirst
          · simp at hFirst
          · simp only [List.map_cons, List.mem_cons, forall_eq_or_imp]
            exact ⟨hGt, fun other hMem => Std.lt_trans hGt (hLeft.1 other hMem)⟩
      subst hKeys
      have hFirst := hLookup key
      rw [lookup_cons_ite, lookup_cons_ite, if_pos rfl, if_pos rfl] at hFirst
      cases hFirst
      refine congrArg _ (ih hLeft.2 hRight.2 fun candidate => ?_)
      by_cases hEq : candidate = key
      · subst hEq
        rw [lookup_eq_none_of_lt hLeft.1, lookup_eq_none_of_lt hRight.1]
      · simpa [lookup_cons_ite, hEq] using hLookup candidate

/-- Maps with the same lookups are equal. -/
theorem ext_get? [Std.IsLinearOrder κ] [DecidableEq κ] {left right : SortedMap κ β}
    (hGet : ∀ key, left.get? key = right.get? key) : left = right :=
  SortedMap.ext (eq_of_lookup_eq left.increasing right.increasing hGet)

end Extensionality

section Updates

variable [LT κ] [LE κ] [DecidableLT κ] [Std.IsLinearOrder κ] [Std.LawfulOrderLT κ]

/-- Changes the value at one key of an increasing list of entries, putting a
new entry where the key belongs. -/
def updateEntries (key : κ) (change : Option β → β) : List (κ × β) → List (κ × β)
  | [] => [(key, change none)]
  | (other, value) :: rest =>
    if key < other then (key, change none) :: (other, value) :: rest
    else if other < key then (other, value) :: updateEntries key change rest
    else (other, change (some value)) :: rest

theorem mem_keys_updateEntries {key : κ} {change : Option β → β} {entries : List (κ × β)}
    {candidate : κ} (hMem : candidate ∈ (updateEntries key change entries).map Prod.fst) :
    candidate = key ∨ candidate ∈ entries.map Prod.fst := by
  induction entries with
  | nil => simpa [updateEntries] using hMem
  | cons entry rest ih =>
    obtain ⟨other, value⟩ := entry
    rw [updateEntries] at hMem
    split at hMem
    · simpa using hMem
    · split at hMem <;> simp only [List.map_cons, List.mem_cons] at hMem ⊢ <;> grind

theorem increasing_updateEntries {key : κ} {change : Option β → β} {entries : List (κ × β)}
    (hIncreasing : (entries.map Prod.fst).Pairwise (· < ·)) :
    ((updateEntries key change entries).map Prod.fst).Pairwise (· < ·) := by
  induction entries with
  | nil => simp [updateEntries]
  | cons entry rest ih =>
    obtain ⟨other, value⟩ := entry
    simp only [List.map_cons, List.pairwise_cons] at hIncreasing
    rw [updateEntries]
    split
    · rename_i hBefore
      simp only [List.map_cons, List.pairwise_cons, List.mem_cons]
      exact ⟨fun later hLater => hLater.elim (· ▸ hBefore)
        fun hRest => Std.lt_trans hBefore (hIncreasing.1 later hRest), hIncreasing⟩
    · split
      · rename_i hAfter
        simp only [List.map_cons, List.pairwise_cons]
        exact ⟨fun later hLater => (mem_keys_updateEntries hLater).elim (· ▸ hAfter)
          (hIncreasing.1 later), ih hIncreasing.2⟩
      · simpa using hIncreasing

/-- Changes the value at one key, given the value stored there before. -/
def update (map : SortedMap κ β) (key : κ) (change : Option β → β) : SortedMap κ β where
  entries := updateEntries key change map.entries
  increasing := increasing_updateEntries map.increasing

/-- Stores a value under a key, replacing the value stored there before. -/
def insert (map : SortedMap κ β) (key : κ) (value : β) : SortedMap κ β :=
  map.update key fun _ => value

/-- The map of a list of entries, in which a later entry replaces an earlier
one with the same key. -/
def ofList (entries : List (κ × β)) : SortedMap κ β :=
  entries.foldl (fun map entry => map.insert entry.1 entry.2) empty

/-- Collects contributions by key: under every key that occurs, the
concatenation of its contributions in the order given. -/
def gather (contributions : List (κ × List β)) : SortedMap κ (List β) :=
  contributions.foldl
    (fun map entry => map.update entry.1 fun earlier => earlier.getD [] ++ entry.2) empty

/-- An update is seen at its own key and nowhere else. -/
theorem get?_update [DecidableEq κ] (map : SortedMap κ β) (key : κ)
    (change : Option β → β) (candidate : κ) :
    (map.update key change).get? candidate =
      if candidate = key then some (change (map.get? key)) else map.get? candidate := by
  simp only [get?, update]
  have hIncreasing := map.increasing
  generalize map.entries = entries at hIncreasing ⊢
  induction entries with
  | nil => by_cases hEq : candidate = key <;> simp [updateEntries, lookup_cons_ite, hEq]
  | cons entry rest ih =>
    obtain ⟨other, value⟩ := entry
    simp only [List.map_cons, List.pairwise_cons] at hIncreasing
    rw [updateEntries]
    split
    · rename_i hBefore
      have hNone : ((other, value) :: rest).lookup key = none :=
        lookup_eq_none_of_lt (by
          simp only [List.map_cons, List.mem_cons, forall_eq_or_imp]
          exact ⟨hBefore, fun later hMem => Std.lt_trans hBefore (hIncreasing.1 later hMem)⟩)
      rw [lookup_cons_ite candidate key, hNone]
    · split
      · rename_i hAfter
        have hNe : key ≠ other := fun hEq => Std.lt_irrefl (hEq ▸ hAfter)
        rw [lookup_cons_ite, ih hIncreasing.2, lookup_cons_ite key other, if_neg hNe,
          lookup_cons_ite candidate other]
        by_cases hEq : candidate = key
        · simp [hEq, hNe]
        · simp [hEq]
      · rename_i hNotBefore hNotAfter
        have hEq : key = other := by
          rcases Std.lt_trichotomy key other with hLt | hEq | hGt
          · exact absurd hLt hNotBefore
          · exact hEq
          · exact absurd hGt hNotAfter
        subst hEq
        by_cases hEq : candidate = key <;> simp [lookup_cons_ite, hEq]

theorem update_singleton (key : κ) (value : β) (change : Option β → β) :
    (singleton key value).update key change = singleton key (change (some value)) := by
  refine SortedMap.ext ?_
  show updateEntries key change [(key, value)] = [(key, change (some value))]
  rw [updateEntries, if_neg (Std.lt_irrefl), if_neg (Std.lt_irrefl)]

/-- Further contributions to the only key go behind what is there. -/
theorem foldl_update_singleton {key : κ} (earlier : List β) {contributions : List (κ × List β)}
    (hKeys : ∀ entry ∈ contributions, entry.1 = key) :
    contributions.foldl
        (fun map entry => map.update entry.1 fun earlier => earlier.getD [] ++ entry.2)
        (singleton key earlier) =
      singleton key (earlier ++ (contributions.map Prod.snd).flatten) := by
  induction contributions generalizing earlier with
  | nil => simp
  | cons entry rest ih =>
    rw [List.forall_mem_cons] at hKeys
    rw [List.foldl_cons, hKeys.1, update_singleton, ih _ hKeys.2]
    simp

/-- Contributions to one key are collected under that key. -/
theorem gather_of_key {key : κ} {contributions : List (κ × List β)} (hSome : contributions ≠ [])
    (hKeys : ∀ entry ∈ contributions, entry.1 = key) :
    gather contributions = singleton key (contributions.map Prod.snd).flatten := by
  cases contributions with
  | nil => exact absurd rfl hSome
  | cons entry rest =>
    rw [List.forall_mem_cons] at hKeys
    have hFirst : (empty : SortedMap κ (List β)).update entry.1
        (fun earlier => earlier.getD [] ++ entry.2) = singleton key entry.2 := by
      rw [hKeys.1]
      exact SortedMap.ext rfl
    rw [gather, List.foldl_cons, hFirst, foldl_update_singleton _ hKeys.2]
    rfl

end Updates

end SortedMap

end FormLowering
