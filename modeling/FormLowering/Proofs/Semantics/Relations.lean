import FormLowering.TensorCode.Arithmetic
import Mathlib.Data.List.Forall2

/-!
# Relating maps and results

Lowering works on maps of tokens, and what it stands for on maps of values.
Both run through the same steps.  This module relates them: results agree if
both fail with the same fault or both succeed with related values, and maps are
related if they have the same keys and related values under each key.  Every
operation on maps keeps the relation.
-/

namespace FormLowering

variable {ε κ α β γ δ : Type}

theorem ne_nil_of_forall₂ {R : α → β → Prop} {lefts : List α} {rights : List β}
    (hLists : List.Forall₂ R lefts rights) (hLeft : lefts ≠ []) : rights ≠ [] := by
  cases hLists with
  | nil => exact absurd rfl hLeft
  | cons _ _ => exact List.cons_ne_nil _ _

theorem isEmpty_eq_of_forall₂ {R : α → β → Prop} {lefts : List α} {rights : List β}
    (hLists : List.Forall₂ R lefts rights) : lefts.isEmpty = rights.isEmpty := by
  cases hLists <;> rfl

theorem forall_mem_of_forall₂ {property : α → Prop} {lefts : List α} {rights : List β}
    (hLists : List.Forall₂ (fun left _ => property left) lefts rights) :
    ∀ left ∈ lefts, property left := by
  induction hLists with
  | nil => exact fun _ hMem => nomatch hMem
  | cons hFirst _ ih => exact List.forall_mem_cons.mpr ⟨hFirst, ih⟩

theorem exists_of_mem_left {R : α → β → Prop} {lefts : List α} {rights : List β}
    (hLists : List.Forall₂ R lefts rights) {left : α} (hMem : left ∈ lefts) :
    ∃ right ∈ rights, R left right := by
  induction hLists with
  | nil => cases hMem
  | cons hFirst _ ih =>
      rcases List.mem_cons.mp hMem with rfl | hRest
      · exact ⟨_, List.mem_cons_self, hFirst⟩
      · obtain ⟨right, hRight, hRelated⟩ := ih hRest
        exact ⟨right, List.mem_cons_of_mem _ hRight, hRelated⟩

theorem exists_of_mem_right {R : α → β → Prop} {lefts : List α} {rights : List β}
    (hLists : List.Forall₂ R lefts rights) {right : β} (hMem : right ∈ rights) :
    ∃ left ∈ lefts, R left right :=
  exists_of_mem_left hLists.flip hMem

/-- Options with values that are related to common values are related to a common option. -/
theorem exists_middle_of_optionRel {R : α → β → Prop} {S : γ → β → Prop} {left : Option α}
    {other : Option γ} (hOptions : Option.Rel (fun a c => ∃ b, R a b ∧ S c b) left other) :
    ∃ middle, Option.Rel R left middle ∧ Option.Rel S other middle := by
  cases hOptions with
  | none => exact ⟨none, .none, .none⟩
  | some hValues =>
      obtain ⟨b, hLeft, hOther⟩ := hValues
      exact ⟨some b, .some hLeft, .some hOther⟩

/-! ### Results -/

/-- What the steps of a computation that succeeds compute. -/
theorem exists_of_bind_ok {first : Except ε α} {next : α → Except ε β} {result : β}
    (hRun : first >>= next = .ok result) : ∃ value, first = .ok value ∧ next value = .ok result := by
  cases first with
  | error fault => contradiction
  | ok value => exact ⟨value, rfl, hRun⟩

/-- What a step that succeeds on every element of a list computes. -/
theorem forall₂_of_mapM_ok {values : List α} {change : α → Except ε β} {results : List β}
    (hRun : values.mapM change = .ok results) :
    List.Forall₂ (fun value result => change value = .ok result) values results := by
  induction values generalizing results with
  | nil =>
      cases hRun
      exact .nil
  | cons value rest ih =>
      rw [List.mapM_cons] at hRun
      obtain ⟨first, hFirst, hRun⟩ := exists_of_bind_ok hRun
      obtain ⟨others, hOthers, hRun⟩ := exists_of_bind_ok hRun
      cases hRun
      exact .cons hFirst (ih hOthers)

/-- Whether two computations fail alike or succeed with related results. -/
inductive Agree (Related : α → β → Prop) : Except ε α → Except ε β → Prop
  | ok {a b} : Related a b → Agree Related (.ok a) (.ok b)
  | error {fault} : Agree Related (.error fault) (.error fault)

namespace Agree

variable {Related : α → β → Prop} {Related' : γ → δ → Prop}

theorem refl (result : Except ε α) : Agree (· = ·) result result := by
  cases result with
  | error fault => exact .error
  | ok value => exact .ok rfl

theorem eq_of_eq {left right : Except ε α} (hAgree : Agree (· = ·) left right) :
    left = right := by
  cases hAgree with
  | ok hEq => rw [hEq]
  | error => rfl

theorem bind {left : Except ε α} {right : Except ε β} {next : α → Except ε γ}
    {next' : β → Except ε δ} (hFirst : Agree Related left right)
    (hNext : ∀ a b, Related a b → Agree Related' (next a) (next' b)) :
    Agree Related' (left >>= next) (right >>= next') := by
  cases hFirst with
  | ok hRelated => exact hNext _ _ hRelated
  | error => exact .error

theorem map {left : Except ε α} {right : Except ε β} {change : α → γ} {change' : β → δ}
    (hAgree : Agree Related left right)
    (hChange : ∀ a b, Related a b → Related' (change a) (change' b)) :
    Agree Related' (left.map change) (right.map change') := by
  cases hAgree with
  | ok hRelated => exact .ok (hChange _ _ hRelated)
  | error => exact .error

theorem of_map {left : Except ε α} {right : Except ε β} {change : α → γ} {change' : β → δ}
    (hAgree : Agree Related' (left.map change) (right.map change')) :
    Agree (fun a b => Related' (change a) (change' b)) left right := by
  cases left <;> cases right <;> cases hAgree
  · exact .error
  · exact .ok ‹_›

theorem ok_of_ok {left : Except ε α} {b : β} (hAgree : Agree Related left (.ok b)) :
    ∃ a, left = .ok a ∧ Related a b := by
  cases hAgree with
  | ok hRelated => exact ⟨_, rfl, hRelated⟩

theorem of_ok {right : Except ε β} {a : α} (hAgree : Agree Related (.ok a) right) :
    ∃ b, right = .ok b ∧ Related a b := by
  cases hAgree with
  | ok hRelated => exact ⟨_, rfl, hRelated⟩

/-- The rule for a first step that is known to succeed. -/
theorem bind_ok {left : Except ε α} {b : β} {next : α → Except ε γ} {result : Except ε δ}
    (hFirst : Agree Related left (.ok b)) (hNext : ∀ a, Related a b → Agree Related' (next a) result) :
    Agree Related' (left >>= next) result := by
  obtain ⟨a, rfl, hRelated⟩ := hFirst.ok_of_ok
  exact hNext a hRelated

/-- The rule for steps that are known to succeed. -/
theorem mapM_ok {lefts : List α} {rights : List β} {change : α → Except ε γ} {change' : β → δ}
    (hLists : List.Forall₂ Related lefts rights)
    (hChange : ∀ a b, Related a b → Agree Related' (change a) (.ok (change' b))) :
    Agree (List.Forall₂ Related') (lefts.mapM change) (.ok (rights.map change')) := by
  induction hLists with
  | nil => exact .ok .nil
  | cons hFirst _ ih =>
      rw [List.mapM_cons]
      refine bind_ok (hChange _ _ hFirst) fun c hRelated => ?_
      refine bind_ok ih fun cs hRest => ?_
      exact .ok (.cons hRelated hRest)

theorem mapM {lefts : List α} {rights : List β} {change : α → Except ε γ}
    {change' : β → Except ε δ} (hLists : List.Forall₂ Related lefts rights)
    (hChange : ∀ a b, Related a b → Agree Related' (change a) (change' b)) :
    Agree (List.Forall₂ Related') (lefts.mapM change) (rights.mapM change') := by
  induction hLists with
  | nil => exact .ok .nil
  | cons hFirst _ ih =>
      rw [List.mapM_cons, List.mapM_cons]
      refine bind (hChange _ _ hFirst) fun c d hRelated => ?_
      exact bind ih fun cs ds hRest => .ok (.cons hRelated hRest)

theorem mono {Weaker : α → β → Prop} {left : Except ε α} {right : Except ε β}
    (hAgree : Agree Related left right) (hImplies : ∀ a b, Related a b → Weaker a b) :
    Agree Weaker left right := by
  cases hAgree with
  | ok hRelated => exact .ok (hImplies _ _ hRelated)
  | error => exact .error

/-- Results that agree with the same result agree with each other. -/
theorem trans_symm {Other : γ → β → Prop} {left : Except ε α} {middle : Except ε β}
    {right : Except ε γ} (hLeft : Agree Related left middle) (hRight : Agree Other right middle) :
    Agree (fun a c => ∃ b, Related a b ∧ Other c b) left right := by
  cases hLeft with
  | ok hRelated =>
      cases hRight with
      | ok hOther => exact .ok ⟨_, hRelated, hOther⟩
  | error =>
      cases hRight
      exact .error

end Agree

/-! ### Maps -/

/-- Whether two entries have the same key and related values. -/
def EntryRelated (Related : α → β → Prop) (left : κ × α) (right : κ × β) : Prop :=
  left.1 = right.1 ∧ Related left.2 right.2

namespace SortedMap

section Entries

variable {R : α → β → Prop} {S : γ → δ → Prop} {left : List (κ × α)} {right : List (κ × β)}

theorem map_fst_eq (hEntries : List.Forall₂ (EntryRelated R) left right) :
    left.map Prod.fst = right.map Prod.fst := by
  induction hEntries with
  | nil => rfl
  | cons hFirst _ ih => rw [List.map_cons, List.map_cons, hFirst.1, ih]

theorem rel_lookup [DecidableEq κ] (hEntries : List.Forall₂ (EntryRelated R) left right) (key : κ) :
    Option.Rel R (left.lookup key) (right.lookup key) := by
  -- Both lookups stop at the same place, since the keys are the same.
  induction hEntries with
  | nil => exact .none
  | @cons entry entry' _ _ hFirst _ ih =>
      rw [lookup_cons_ite key entry.1, lookup_cons_ite key entry'.1, ← hFirst.1]
      split
      · exact .some hFirst.2
      · exact ih

theorem agree_traverseEntries (hEntries : List.Forall₂ (EntryRelated R) left right)
    {change : α → Except ε γ} {change' : β → δ}
    (hChange : ∀ a b, R a b → Agree S (change a) (.ok (change' b))) :
    Agree (fun changed entries => List.Forall₂ (EntryRelated S) changed.val entries)
      (traverseEntries change left) (.ok (right.map fun entry => (entry.1, change' entry.2))) := by
  induction hEntries with
  | nil => exact .ok .nil
  | @cons entry entry' rest rest' hFirst _ ih =>
      obtain ⟨key, value⟩ := entry
      rw [traverseEntries]
      refine Agree.bind_ok (hChange _ _ hFirst.2) fun changed hChanged => ?_
      refine Agree.bind_ok ih fun others hOthers => ?_
      exact .ok (.cons ⟨hFirst.1, hChanged⟩ hOthers)

theorem agree_traverseEntries_both (hEntries : List.Forall₂ (EntryRelated R) left right)
    {change : α → Except ε γ} {change' : β → Except ε δ}
    (hChange : ∀ a b, R a b → Agree S (change a) (change' b)) :
    Agree (fun changed changed' => List.Forall₂ (EntryRelated S) changed.val changed'.val)
      (traverseEntries change left) (traverseEntries change' right) := by
  induction hEntries with
  | nil => exact .ok .nil
  | @cons entry entry' rest rest' hFirst _ ih =>
      obtain ⟨key, value⟩ := entry
      obtain ⟨key', value'⟩ := entry'
      rw [traverseEntries, traverseEntries]
      refine Agree.bind (hChange _ _ hFirst.2) fun changed changed' hChanged => ?_
      exact Agree.bind ih fun others others' hOthers => .ok (.cons ⟨hFirst.1, hChanged⟩ hOthers)

theorem forall₂_updateEntries [LT κ] [LE κ] [DecidableLT κ] [Std.IsLinearOrder κ]
    [Std.LawfulOrderLT κ] (hEntries : List.Forall₂ (EntryRelated R) left right) (key : κ)
    {change : Option α → α} {change' : Option β → β}
    (hChange : ∀ a b, Option.Rel R a b → R (change a) (change' b)) :
    List.Forall₂ (EntryRelated R) (updateEntries key change left)
      (updateEntries key change' right) := by
  induction hEntries with
  | nil => exact .cons ⟨rfl, hChange _ _ .none⟩ .nil
  | @cons entry entry' rest rest' hFirst hRest ih =>
      obtain ⟨other, value⟩ := entry
      obtain ⟨_, value'⟩ := entry'
      obtain ⟨rfl, hValues⟩ := hFirst
      rw [updateEntries, updateEntries]
      -- The key goes in front of this one, behind it, or is this one.
      split
      · exact .cons ⟨rfl, hChange _ _ .none⟩ (.cons ⟨rfl, hValues⟩ hRest)
      · split
        · exact .cons ⟨rfl, hValues⟩ ih
        · exact .cons ⟨rfl, hChange _ _ (.some hValues)⟩ hRest

end Entries

/-- Whether two maps have the same keys and related values under each key. -/
def Related [LT κ] (Related : α → β → Prop) (left : SortedMap κ α) (right : SortedMap κ β) : Prop :=
  List.Forall₂ (EntryRelated Related) left.entries right.entries

namespace Related

section Views

variable [LT κ] {R : α → β → Prop} {S : γ → δ → Prop}

theorem singleton (key : κ) {a : α} {b : β} (hValues : R a b) :
    Related R (.singleton key a) (.singleton key b) :=
  .cons ⟨rfl, hValues⟩ .nil

variable {left : SortedMap κ α} {right : SortedMap κ β}

theorem get? [DecidableEq κ] (hMaps : Related R left right) (key : κ) :
    Option.Rel R (left.get? key) (right.get? key) :=
  rel_lookup hMaps key

theorem mono {S : α → β → Prop} (hMaps : Related R left right)
    (hImplies : ∀ a b, R a b → S a b) : Related S left right :=
  hMaps.imp fun _ _ hEntry => ⟨hEntry.1, hImplies _ _ hEntry.2⟩

theorem mapValues (hMaps : Related R left right) {change : α → γ} {change' : β → δ}
    (hChange : ∀ a b, R a b → S (change a) (change' b)) :
    Related S (left.mapValues change) (right.mapValues change') := by
  unfold Related SortedMap.mapValues
  rw [List.forall₂_map_left_iff, List.forall₂_map_right_iff]
  exact hMaps.imp fun entry entry' hEntries => ⟨hEntries.1, hChange _ _ hEntries.2⟩

/-- Leaving out symbolic zeros keeps maps related. -/
theorem filterMapValues_id {left : SortedMap κ (Option α)} {right : SortedMap κ (Option β)}
    (hMaps : Related (Option.Rel R) left right) :
    Related R (left.filterMapValues id) (right.filterMapValues id) := by
  unfold Related at hMaps ⊢
  simp only [SortedMap.filterMapValues]
  generalize left.entries = entries at hMaps ⊢
  generalize right.entries = entries' at hMaps ⊢
  induction hMaps with
  | nil => exact .nil
  | @cons entry entry' _ _ hFirst _ ih =>
      obtain ⟨key, value⟩ := entry
      obtain ⟨key', value'⟩ := entry'
      obtain ⟨hKeys, hValues⟩ := hFirst
      -- A symbolic zero is left out on both sides.
      cases hValues with
      | none => exact ih
      | some hValues => exact .cons ⟨hKeys, hValues⟩ ih

/-- A change of values that may fail, but does not, keeps maps related. -/
theorem traverse (hMaps : Related R left right) {change : α → Except ε γ} {change' : β → δ}
    (hChange : ∀ a b, R a b → Agree S (change a) (.ok (change' b))) :
    Agree (Related S) (left.traverse change) (.ok (right.mapValues change')) := by
  unfold SortedMap.traverse
  refine Agree.bind_ok (agree_traverseEntries hMaps hChange) fun changed hChanged => ?_
  exact .ok hChanged

/-- Changes of values that fail alike keep maps related. -/
theorem traverse_both (hMaps : Related R left right) {change : α → Except ε γ}
    {change' : β → Except ε δ} (hChange : ∀ a b, R a b → Agree S (change a) (change' b)) :
    Agree (Related S) (left.traverse change) (right.traverse change') := by
  unfold SortedMap.traverse
  exact Agree.bind (agree_traverseEntries_both hMaps hChange) fun _ _ hChanged => .ok hChanged

/-- Maps that are related to the same map are related to each other. -/
theorem trans_symm {S : γ → β → Prop} {other : SortedMap κ γ} (hLeft : Related R left right)
    (hOther : Related S other right) :
    Related (fun a c => ∃ b, R a b ∧ S c b) left other := by
  unfold Related at hLeft hOther ⊢
  generalize left.entries = entries at hLeft ⊢
  generalize right.entries = entries' at hLeft hOther
  generalize other.entries = others at hOther ⊢
  induction hLeft generalizing others with
  | nil =>
      cases hOther
      exact .nil
  | cons hFirst _ ih =>
      cases hOther with
      | cons hOtherFirst hOtherRest =>
          refine .cons ⟨hFirst.1.trans hOtherFirst.1.symm, _, hFirst.2, hOtherFirst.2⟩ ?_
          exact ih _ hOtherRest

/-- Maps with values that are related to common values are related to a common map. -/
theorem exists_middle {S : γ → β → Prop} {other : SortedMap κ γ}
    (hMaps : Related (fun a c => ∃ b, R a b ∧ S c b) left other) :
    ∃ middle : SortedMap κ β, Related R left middle ∧ Related S other middle := by
  have hEntries : ∃ entries, List.Forall₂ (EntryRelated R) left.entries entries ∧
      List.Forall₂ (EntryRelated S) other.entries entries := by
    unfold Related at hMaps
    generalize left.entries = lefts at hMaps ⊢
    generalize other.entries = others at hMaps ⊢
    induction hMaps with
    | nil => exact ⟨[], .nil, .nil⟩
    | @cons entry entry' _ _ hFirst _ ih =>
        obtain ⟨entries, hLefts, hOthers⟩ := ih
        obtain ⟨hKeys, b, hLeft, hOther⟩ := hFirst
        exact ⟨(entry.1, b) :: entries, .cons ⟨rfl, hLeft⟩ hLefts,
          .cons ⟨hKeys.symm, hOther⟩ hOthers⟩
  obtain ⟨entries, hLefts, hOthers⟩ := hEntries
  exact ⟨⟨entries, map_fst_eq hLefts ▸ left.increasing⟩, hLefts, hOthers⟩

end Views

/-- Gathering by key keeps contributions related. -/
theorem gather [LT κ] [LE κ] [DecidableLT κ] [Std.IsLinearOrder κ] [Std.LawfulOrderLT κ]
    {R : α → β → Prop} {lefts : List (κ × List α)} {rights : List (κ × List β)}
    (hEntries : List.Forall₂ (EntryRelated (List.Forall₂ R)) lefts rights) :
    Related (List.Forall₂ R) (SortedMap.gather lefts) (SortedMap.gather rights) := by
  -- What has been gathered so far is related, whatever it is.
  have hFold : ∀ (map : SortedMap κ (List α)) (map' : SortedMap κ (List β)),
      Related (List.Forall₂ R) map map' →
        Related (List.Forall₂ R)
          (lefts.foldl
            (fun map entry => map.update entry.1 fun earlier => earlier.getD [] ++ entry.2) map)
          (rights.foldl
            (fun map entry => map.update entry.1 fun earlier => earlier.getD [] ++ entry.2) map') := by
    induction hEntries with
    | nil => exact fun map map' hMaps => hMaps
    | @cons entry entry' _ _ hFirst _ ih =>
        intro map map' hMaps
        obtain ⟨key, terms⟩ := entry
        obtain ⟨_, terms'⟩ := entry'
        obtain ⟨rfl, hTerms⟩ := hFirst
        apply ih
        refine forall₂_updateEntries hMaps key fun earlier earlier' hEarlier => ?_
        cases hEarlier with
        | none => exact hTerms
        | some hEarlierTerms => exact List.rel_append hEarlierTerms hTerms
  exact hFold _ _ .nil

end Related

end SortedMap

/-! ### Operands of sums and products -/

section Operands

open SortedMap

variable {R : α → β → Prop}

theorem SortedMap.Related.asScalar? {left : SortedMap Key α} {right : SortedMap Key β}
    (hMaps : Related R left right) : Option.Rel R left.asScalar? right.asScalar? := by
  unfold Related at hMaps
  unfold SortedMap.asScalar?
  generalize left.entries = entries at hMaps ⊢
  generalize right.entries = entries' at hMaps ⊢
  match entries, entries', hMaps with
  | [], [], .nil => exact .none
  | [(key, a)], [(key', b)], .cons ⟨hKeys, hValues⟩ .nil =>
    obtain rfl : key = key' := hKeys
    cases key with
    | nil => exact .some hValues
    | cons index key => exact .none
  | (key, a) :: _ :: _, (key', b) :: _ :: _, .cons _ (.cons _ _) =>
    cases key <;> cases key' <;> exact .none

theorem SortedMap.Related.isTensor {left : SortedMap Key α} {right : SortedMap Key β}
    (hMaps : Related R left right) : left.isTensor = right.isTensor := by
  unfold Related at hMaps
  unfold SortedMap.isTensor
  generalize left.entries = entries at hMaps ⊢
  generalize right.entries = entries' at hMaps ⊢
  match entries, entries', hMaps with
  | [], [], .nil => rfl
  | [(key, a)], [(key', b)], .cons ⟨hKeys, _⟩ .nil => simp only [show key = key' from hKeys]
  | _ :: _ :: _, _ :: _ :: _, .cons _ (.cons _ _) => rfl

theorem forall₂_filter_isTensor {lefts : List (SortedMap Key α)} {rights : List (SortedMap Key β)}
    (hOperands : List.Forall₂ (Related R) lefts rights) :
    List.Forall₂ (Related R) (lefts.filter isTensor) (rights.filter isTensor) := by
  induction hOperands with
  | nil => exact .nil
  | cons hFirst _ ih =>
      rw [List.filter_cons, List.filter_cons, hFirst.isTensor]
      split
      · exact .cons hFirst ih
      · exact ih

theorem forall₂_filterMap_asScalar? {lefts : List (SortedMap Key α)}
    {rights : List (SortedMap Key β)} (hOperands : List.Forall₂ (Related R) lefts rights) :
    List.Forall₂ R (lefts.filterMap SortedMap.asScalar?) (rights.filterMap SortedMap.asScalar?) := by
  induction hOperands with
  | nil => exact .nil
  | @cons left right _ _ hFirst _ ih =>
      have hScalar := hFirst.asScalar?
      rw [List.filterMap_cons, List.filterMap_cons]
      -- Either both are scalars or neither is.
      cases hLeft : left.asScalar? <;> cases hRight : right.asScalar? <;>
        rw [hLeft, hRight] at hScalar <;> cases hScalar
      · exact ih
      · exact .cons ‹_› ih

theorem forall₂_choices {lefts : List (List α)} {rights : List (List β)}
    (hLists : List.Forall₂ (List.Forall₂ R) lefts rights) :
    List.Forall₂ (List.Forall₂ R) (choices lefts) (choices rights) := by
  induction hLists with
  | nil => exact .cons .nil .nil
  | cons hFirst _ ih =>
      refine List.rel_flatMap hFirst fun a b hOption => ?_
      rw [List.forall₂_map_left_iff, List.forall₂_map_right_iff]
      exact ih.imp fun _ _ hOthers => .cons hOption hOthers

/-- Related operands have the same choices of keys, with related values. -/
theorem forall₂_entryChoices {lefts : List (SortedMap Key α)} {rights : List (SortedMap Key β)}
    (hOperands : List.Forall₂ (Related R) lefts rights) :
    List.Forall₂ (EntryRelated (List.Forall₂ R)) (entryChoices lefts) (entryChoices rights) := by
  have hEntries : List.Forall₂ (List.Forall₂ (EntryRelated R)) (lefts.map (·.entries))
      (rights.map (·.entries)) := by
    rwa [List.forall₂_map_left_iff, List.forall₂_map_right_iff]
  unfold entryChoices
  rw [isEmpty_eq_of_forall₂ hOperands]
  split
  · exact .nil
  · rw [List.forall₂_map_left_iff, List.forall₂_map_right_iff]
    refine (forall₂_choices hEntries).imp fun chosen chosen' hChosen => ?_
    -- The key of a choice is made of the keys chosen, its values of the values.
    constructor
    · show chosen.flatMap Prod.fst = chosen'.flatMap Prod.fst
      induction hChosen with
      | nil => rfl
      | cons hFirst _ ih => rw [List.flatMap_cons, List.flatMap_cons, hFirst.1, ih]
    · rw [List.forall₂_map_left_iff, List.forall₂_map_right_iff]
      exact hChosen.imp fun _ _ hEntry => hEntry.2

theorem forall₂_toList {left : Option α} {right : Option β} (hEntry : Option.Rel R left right) :
    List.Forall₂ R left.toList right.toList := by
  cases hEntry with
  | none => exact .nil
  | some hValues => exact .cons hValues .nil

theorem forall₂_sumContributions {lefts : List (SortedMap Key (Option α))}
    {rights : List (SortedMap Key (Option β))}
    (hOperands : List.Forall₂ (Related (Option.Rel R)) lefts rights) :
    List.Forall₂ (EntryRelated (List.Forall₂ R)) (TensorCode.sumContributions lefts)
      (TensorCode.sumContributions rights) := by
  refine List.rel_flatMap hOperands fun left right hMaps => ?_
  rw [List.forall₂_map_left_iff, List.forall₂_map_right_iff]
  exact hMaps.imp fun _ _ hEntry => ⟨hEntry.1, forall₂_toList hEntry.2⟩

end Operands

end FormLowering
