import FormLowering.TensorCode.Arithmetic
import Mathlib.Algebra.BigOperators.Group.List.Basic
import Mathlib.Data.List.Flatten
import Mathlib.Data.List.Forall2
import Mathlib.Data.List.Nodup
import Mathlib.Data.List.Pairwise

/-!
# Laws of choices

A choice takes one element of each list, in order.  Choices of different
elements are different, and there is one as long as no list is empty.  From
increasing lists they come in lexicographic order.
-/

namespace FormLowering

theorem map_choices {α β : Type} (change : α → β) (lists : List (List α)) :
    choices (lists.map (List.map change)) = (choices lists).map (List.map change) := by
  induction lists with
  | nil => rfl
  | cons options rest ih =>
      rw [List.map_cons, choices, choices, ih, List.map_flatMap, List.flatMap_map]
      refine List.flatMap_congr fun option _ => ?_
      rw [List.map_map, List.map_map]
      rfl

theorem mem_choices {α : Type} {lists : List (List α)} {chosen : List α} :
    chosen ∈ choices lists ↔ List.Forall₂ (· ∈ ·) chosen lists := by
  induction lists generalizing chosen with
  | nil => simp [choices]
  | cons options rest ih =>
      rw [choices, List.mem_flatMap]
      constructor
      · rintro ⟨option, hOption, hChosen⟩
        obtain ⟨others, hOthers, rfl⟩ := List.mem_map.mp hChosen
        exact .cons hOption (ih.mp hOthers)
      · intro hChosen
        cases hChosen with
        | cons hOption hOthers =>
            exact ⟨_, hOption, List.mem_map.mpr ⟨_, ih.mpr hOthers, rfl⟩⟩

theorem nodup_choices {α : Type} {lists : List (List α)}
    (hLists : ∀ options ∈ lists, options.Nodup) : (choices lists).Nodup := by
  induction lists with
  | nil => exact List.nodup_singleton _
  | cons options rest ih =>
      have hRest := ih fun others hMem => hLists others (List.mem_cons_of_mem _ hMem)
      rw [choices, List.nodup_flatMap]
      constructor
      · intro option _
        exact hRest.map fun _ _ hEq => (List.cons.inj hEq).2
      · refine (hLists options List.mem_cons_self).imp fun hNe chosen hLeft hRight => ?_
        obtain ⟨_, _, rfl⟩ := List.mem_map.mp hLeft
        obtain ⟨_, _, hEq⟩ := List.mem_map.mp hRight
        exact hNe (List.cons.inj hEq).1.symm

/-- Choices from increasing lists are in lexicographic order: the last list varies fastest. -/
theorem pairwise_choices {α : Type} [LT α] {lists : List (List α)}
    (hLists : ∀ options ∈ lists, options.Pairwise (· < ·)) :
    (choices lists).Pairwise (· < ·) := by
  induction lists with
  | nil => exact List.pairwise_singleton _ _
  | cons options rest ih =>
      rw [List.forall_mem_cons] at hLists
      rw [choices, List.pairwise_flatMap]
      constructor
      · intro option _
        exact (ih hLists.2).map (option :: ·) fun _ _ => List.Lex.cons
      · refine hLists.1.imp fun hBefore left hLeft right hRight => ?_
        obtain ⟨_, _, rfl⟩ := List.mem_map.mp hLeft
        obtain ⟨_, _, rfl⟩ := List.mem_map.mp hRight
        exact List.Lex.rel hBefore

theorem length_choices {α : Type} (lists : List (List α)) :
    (choices lists).length = (lists.map List.length).prod := by
  induction lists with
  | nil => rfl
  | cons options rest ih =>
      rw [choices, List.length_flatMap, List.map_cons, List.prod_cons, ← ih]
      simp

theorem choices_ne_nil {α : Type} {lists : List (List α)}
    (hLists : ∀ options ∈ lists, options ≠ []) : choices lists ≠ [] := by
  induction lists with
  | nil => exact List.cons_ne_nil _ _
  | cons options rest ih =>
      have hRest := ih fun others hMem => hLists others (List.mem_cons_of_mem _ hMem)
      obtain ⟨option, others, rfl⟩ := List.exists_cons_of_ne_nil (hLists options List.mem_cons_self)
      rw [choices, List.flatMap_cons]
      exact List.append_ne_nil_of_left_ne_nil (by simpa using hRest) _

/-- Sums over two lists can be taken in either order. -/
theorem sum_map_comm {α β M : Type} [AddCommMonoid M] (lefts : List α) (rights : List β)
    (term : α → β → M) :
    (lefts.map fun a => (rights.map fun b => term a b).sum).sum =
      (rights.map fun b => (lefts.map fun a => term a b).sum).sum := by
  induction lefts with
  | nil => simp
  | cons a lefts ih => simp [ih, List.sum_map_add]

end FormLowering
