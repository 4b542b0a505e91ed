import FormLowering.Proofs.Element.TableCharacters
import Mathlib.Tactic

/-!
# Identifiers in tokens

The identifiers of a token are its longest runs of letters, digits and underscores.
No identifier reaches over any other character, so where tokens are joined by an
operator the identifiers of the whole are those of its parts.
-/

namespace FormLowering

/-- Whether a character ends an identifier. -/
def endsIdentifier (character : Char) : Bool :=
  !isIdentifierCharacter character

/-- The identifiers of a text: its longest runs of letters, digits and underscores. -/
def identifiers (text : Token) : List Token :=
  ((text.toList.splitOnP endsIdentifier).filter fun run => !run.isEmpty).map String.ofList

/-- Whether a text is a single run of letters, digits and underscores. -/
def IsIdentifier (text : Token) : Prop :=
  text.toList ≠ [] ∧ text.toList.all isIdentifierCharacter = true

instance (text : Token) : Decidable (IsIdentifier text) :=
  inferInstanceAs (Decidable (_ ∧ _))

/-- An identifier with further letters, digits and underscores behind it. -/
theorem IsIdentifier.append {left right : Token} (hLeft : IsIdentifier left)
    (hRight : PlainText right.toList) : IsIdentifier (left ++ right) := by
  constructor
  · rw [String.toList_append]
    exact List.append_ne_nil_of_left_ne_nil hLeft.1 _
  · rw [String.toList_append, List.all_append, hLeft.2, Bool.true_and, List.all_eq_true]
    exact fun character hMem => (hRight character hMem).1

theorem identifiers_of_isIdentifier {text : Token} (hText : IsIdentifier text) :
    identifiers text = [text] := by
  have hRun : text.toList.splitOnP endsIdentifier = [text.toList] := by
    refine List.splitOnP_eq_singleton fun character hMem => ?_
    rw [endsIdentifier, List.all_eq_true.mp hText.2 character hMem]
    rfl
  rw [identifiers, hRun, List.filter_cons_of_pos (by simpa using hText.1)]
  simp

theorem identifiers_empty : identifiers "" = [] :=
  rfl

/-- No identifier reaches over a character that ends identifiers. -/
theorem identifiers_append_cons {left : List Char} {character : Char} {right : List Char}
    (hEnds : endsIdentifier character = true) :
    identifiers (String.ofList (left ++ character :: right)) =
      identifiers (String.ofList left) ++ identifiers (String.ofList right) := by
  unfold identifiers
  simp only [String.toList_ofList]
  rw [List.splitOnP_append_cons left right hEnds, List.filter_append, List.map_append]

theorem closed_append (left : Token) {right : Token}
    (hRight : right.toList.getLast?.any endsIdentifier = true) :
    (left ++ right).toList.getLast?.any endsIdentifier = true := by
  obtain ⟨last, hLast, hEnds⟩ := (Option.any_eq_true _ _).mp hRight
  rw [String.toList_append, List.getLast?_append, hLast]
  exact hEnds

/-- Behind a text that ends in an operator new identifiers begin. -/
theorem identifiers_append_of_closed {left : Token} (right : Token)
    (hLeft : left.toList.getLast?.any endsIdentifier = true) :
    identifiers (left ++ right) = identifiers left ++ identifiers right := by
  obtain ⟨last, hLast, hEnds⟩ := (Option.any_eq_true _ _).mp hLeft
  obtain ⟨front, hFront⟩ := List.getLast?_eq_some_iff.mp hLast
  have hText : left = String.ofList (front ++ [last]) := by rw [← hFront, String.ofList_toList]
  have hWhole : left ++ right = String.ofList (front ++ last :: right.toList) := by
    rw [← String.toList_inj, String.toList_append, hFront, String.toList_ofList, List.append_assoc,
      List.singleton_append]
  rw [hWhole, hText, identifiers_append_cons hEnds, identifiers_append_cons hEnds]
  simp [identifiers_empty]

/-- Before a text that begins with an operator all identifiers have ended. -/
theorem identifiers_append_of_open (left : Token) {right : Token}
    (hRight : right.toList.head?.any endsIdentifier = true) :
    identifiers (left ++ right) = identifiers left ++ identifiers right := by
  obtain ⟨first, hFirst, hEnds⟩ := (Option.any_eq_true _ _).mp hRight
  obtain ⟨rest, hRest⟩ := List.head?_eq_some_iff.mp hFirst
  have hText : right = String.ofList ([] ++ first :: rest) := by
    rw [List.nil_append, ← hRest, String.ofList_toList]
  have hWhole : left ++ right = String.ofList (left.toList ++ first :: rest) := by
    rw [← String.toList_inj, String.toList_append, hRest, String.toList_ofList]
  rw [hWhole, hText, identifiers_append_cons hEnds, identifiers_append_cons hEnds]
  simp [identifiers_empty]

/-- Between operands that are separated by an operator there are no further identifiers. -/
theorem identifiers_intercalate {separator : String} (hNone : identifiers separator = [])
    (hOpen : separator.toList.head?.any endsIdentifier = true)
    (hClosed : separator.toList.getLast?.any endsIdentifier = true) (tokens : List Token) :
    identifiers (separator.intercalate tokens) = tokens.flatMap identifiers := by
  induction tokens with
  | nil => rfl
  | cons token rest ih =>
      cases rest with
      | nil => simp
      | cons next rest =>
          have hFront := closed_append token hClosed
          rw [String.intercalate_cons_cons, identifiers_append_of_closed _ hFront, ih,
            identifiers_append_of_open _ hOpen, hNone, List.append_nil]
          simp only [List.flatMap_cons]

theorem mem_of_mem_splitOnP {property : Char → Bool} {text run : List Char}
    (hRun : run ∈ text.splitOnP property) : run ⊆ text := by
  induction text generalizing run with
  | nil =>
      rw [List.splitOnP_nil, List.mem_singleton] at hRun
      rw [hRun]
      exact List.Subset.refl _
  | cons character rest ih =>
      rw [List.splitOnP_cons_eq_if_modifyHead] at hRun
      split at hRun
      · rcases List.mem_cons.mp hRun with rfl | hRest
        · exact List.nil_subset _
        · exact List.subset_cons_of_subset _ (ih hRest)
      · cases hSplit : rest.splitOnP property with
        | nil =>
            rw [hSplit] at hRun
            cases hRun
        | cons first others =>
            rw [hSplit, List.modifyHead_cons] at hRun
            rcases List.mem_cons.mp hRun with rfl | hRest
            · exact List.cons_subset_cons _ (ih (hSplit ▸ List.mem_cons_self))
            · exact List.subset_cons_of_subset _ (ih (hSplit ▸ List.mem_cons_of_mem _ hRest))

theorem subset_of_mem_identifiers {text name : Token} (hName : name ∈ identifiers text) :
    name.toList ⊆ text.toList := by
  obtain ⟨run, hRun, rfl⟩ := List.mem_map.mp hName
  rw [String.toList_ofList]
  exact mem_of_mem_splitOnP (List.mem_of_mem_filter hRun)

end FormLowering
