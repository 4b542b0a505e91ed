import FormLowering.Proofs.Number.LiteralCharacters
import FormLowering.Proofs.Tokens.Alike
import FormLowering.Proofs.Tokens.Identifiers

/-!
# Distinct terms of a sum

Equal terms of a sum are collapsed in one pass: every term is written once, in the order of
first occurrences, with the number of its occurrences.

The pass counts the terms as they are given.  It does not look at the multiples that it
writes, so a multiple can meet a term that was written the same from the start.  In the
available dialects this is the only way for two collapsed terms to be alike: the factor in
front of a multiple can be told from the term behind it, since no literal holds a character
of an operator.
-/

namespace FormLowering

namespace Dialect

/-! ### Occurrences -/

theorem collapse_eq (dialect : Dialect) (terms : List Token) :
    dialect.collapse terms =
      terms.eraseDups.map fun term => dialect.repeated term (terms.count term) := by
  rw [collapse, tally_eq, List.map_map]
  rfl

theorem repeated_of_mem (dialect : Dialect) {terms : List Token} {term : Token}
    (hTerm : term ∈ terms) :
    dialect.repeated term (terms.count term) =
      if terms.count term = 1 then term
      else dialect.multiply [dialect.literal (.ofNat (terms.count term)), term] := by
  have hPos : 0 < terms.count term := List.count_pos_iff.mpr hTerm
  unfold repeated
  split <;> split
  · omega
  · rfl
  · rfl
  · omega

/-- One token is written for each distinct term, in the order of first occurrences: the term
itself if it occurs once, and otherwise its product with a literal of the number of its
occurrences.  The numbers of occurrences add up to the number of terms. -/
theorem collapse_counts_occurrences (dialect : Dialect) (terms : List Token) :
    ∃ distinct : List Token,
      (∀ term, term ∈ distinct ↔ term ∈ terms) ∧ distinct.Nodup ∧
      (distinct.Pairwise fun earlier later => terms.idxOf earlier < terms.idxOf later) ∧
      (dialect.collapse terms = distinct.map fun term =>
        if terms.count term = 1 then term
        else dialect.multiply [dialect.literal (.ofNat (terms.count term)), term]) ∧
      (distinct.map terms.count).sum = terms.length := by
  refine ⟨terms.eraseDups, fun term => List.mem_eraseDups, nodup_eraseDups terms,
    pairwise_idxOf_eraseDups terms, ?_, ?_⟩
  · rw [collapse_eq]
    exact List.map_congr_left fun term hTerm =>
      dialect.repeated_of_mem (List.mem_eraseDups.mp hTerm)
  · rw [← sum_tally terms, tally_eq, List.map_map]
    rfl

/-! ### Terms that are written alike -/

/-- Whether no two terms of a sum are written alike once they are collapsed. -/
def WritesApart (dialect : Dialect) (terms : List Token) : Prop :=
  ∀ left ∈ terms, ∀ right ∈ terms,
    dialect.repeated left (terms.count left) = dialect.repeated right (terms.count right) →
      left = right

/-- Whether a term that occurs once is written like the multiple of a term that occurs
several times. -/
def MeetsMultiple (dialect : Dialect) (terms : List Token) : Prop :=
  ∃ single ∈ terms, ∃ several ∈ terms, terms.count single = 1 ∧ 1 < terms.count several ∧
    single = dialect.multiply [dialect.literal (.ofNat (terms.count several)), several]

instance (dialect : Dialect) (terms : List Token) : Decidable (dialect.MeetsMultiple terms) :=
  inferInstanceAs (Decidable (∃ single ∈ terms, ∃ several ∈ terms, _ ∧ _ ∧ _))

theorem nodup_collapse_iff {dialect : Dialect} {terms : List Token} :
    (dialect.collapse terms).Nodup ↔ dialect.WritesApart terms := by
  rw [collapse_eq, List.nodup_map_iff_inj_on (nodup_eraseDups terms)]
  simp only [List.mem_eraseDups]
  rfl

/-- Terms are left as they are exactly if no term occurs twice. -/
theorem collapse_eq_self_iff {dialect : Dialect} {terms : List Token} :
    dialect.collapse terms = terms ↔ terms.Nodup := by
  constructor
  · intro hSame
    -- A list with as many distinct elements as elements has no element twice.
    have hLength : terms.eraseDups.length = terms.length := by
      rw [← congrArg List.length hSame, collapse_eq, List.length_map]
    have hSubset : terms.eraseDups ⊆ terms := fun term hTerm => List.mem_eraseDups.mp hTerm
    have hPerm : terms.eraseDups.Perm terms :=
      (List.subperm_of_subset (nodup_eraseDups terms) hSubset).perm_of_length_le hLength.ge
    exact hPerm.nodup_iff.mp (nodup_eraseDups terms)
  · intro hNodup
    rw [collapse_eq, eraseDups_of_nodup hNodup]
    refine List.map_id'' (fun term => ?_) terms
    exact if_neg (Nat.not_lt.mpr (List.nodup_iff_count_le_one.mp hNodup term))

/-- The sum of terms is what the collapsed terms are joined to. -/
theorem addTerms_eq (dialect : Dialect) (terms : List Token) :
    dialect.addTerms terms = .ok (dialect.join (dialect.collapse terms)) := by
  match terms with
  | [] => rfl
  | [term] => rfl
  | first :: second :: rest =>
    have hSome : (dialect.collapse (first :: second :: rest)).isEmpty = false := by
      simpa using dialect.collapse_ne_nil (List.cons_ne_nil first (second :: rest))
    rw [addTerms, if_pos (by simp), if_neg (by simp [hSome])]
    rfl

namespace Available

variable {dialect : Dialect}

/-- The factor in front of a multiple can be told from the term behind it. -/
theorem multiply_literal_inj (hAvailable : dialect.Available) {left right : Binary64}
    {term other : Token}
    (hSame : dialect.multiply [dialect.literal left, term] =
      dialect.multiply [dialect.literal right, other]) :
    dialect.literal left = dialect.literal right ∧ term = other := by
  cases hAvailable with
  | calls =>
      have hCall : "multiply" ++ "(" ++ (left.shortestText ++ ", " ++ term) ++ ")" =
        "multiply" ++ "(" ++ (right.shortestText ++ ", " ++ other) ++ ")" := hSame
      rw [String.append_left_inj, String.append_right_inj, ← String.toList_inj] at hCall
      simp only [String.toList_append, List.append_assoc] at hCall
      obtain ⟨hLiteral, hRest⟩ := Binary64.LiteralText.append_cons_inj ',' (by decide)
        (.shortestText left) (.shortestText right) hCall
      exact ⟨String.toList_inj.mp hLiteral, String.toList_inj.mp (List.cons.inj hRest).2⟩
  | cpp precision =>
      have hProduct : cppLiteral precision left ++ "*" ++ term =
        cppLiteral precision right ++ "*" ++ other := hSame
      rw [← String.toList_inj] at hProduct
      simp only [String.toList_append, List.append_assoc] at hProduct
      obtain ⟨hLiteral, hRest⟩ := Binary64.LiteralText.append_cons_inj '*' (by decide)
        (literalText_cppLiteral precision left) (literalText_cppLiteral precision right) hProduct
      exact ⟨String.toList_inj.mp hLiteral, String.toList_inj.mp hRest⟩

/-- A product is written with an operator, so it is no identifier. -/
theorem not_isIdentifier_multiply (hAvailable : dialect.Available) (first second : Token) :
    ¬IsIdentifier (dialect.multiply [first, second]) := by
  intro hName
  have hCharacters := List.all_eq_true.mp hName.2
  cases hAvailable with
  | calls =>
      have hOpen : '(' ∈ ("multiply" ++ "(" ++ (first ++ ", " ++ second) ++ ")").toList := by simp
      exact absurd (hCharacters '(' hOpen) (by decide)
  | cpp precision =>
      have hOperator : '*' ∈ (first ++ "*" ++ second).toList := by simp
      exact absurd (hCharacters '*' hOperator) (by decide)

/-- Two collapsed terms are alike only if one of them is a multiple and the other one was
written the same from the start. -/
theorem writesApart_iff (hAvailable : dialect.Available) {terms : List Token} :
    dialect.WritesApart terms ↔ ¬dialect.MeetsMultiple terms := by
  constructor
  · rintro hApart ⟨single, hSingle, several, hSeveral, hOnce, hOften, hMeets⟩
    have hAlike : dialect.repeated single (terms.count single) =
        dialect.repeated several (terms.count several) := by
      rw [repeated, if_neg (by omega), repeated, if_pos hOften, ← hMeets]
    rw [hApart single hSingle several hSeveral hAlike] at hOnce
    omega
  · intro hMeets left hLeft right hRight hAlike
    rw [dialect.repeated_of_mem hLeft, dialect.repeated_of_mem hRight] at hAlike
    have hLeftPos : 0 < terms.count left := List.count_pos_iff.mpr hLeft
    have hRightPos : 0 < terms.count right := List.count_pos_iff.mpr hRight
    split at hAlike <;> split at hAlike
    · exact hAlike
    · rename_i hOnce hOften
      exact absurd ⟨left, hLeft, right, hRight, hOnce, by omega, hAlike⟩ hMeets
    · rename_i hOften hOnce
      exact absurd ⟨right, hRight, left, hLeft, hOnce, by omega, hAlike.symm⟩ hMeets
    · exact (hAvailable.multiply_literal_inj hAlike).2

end Available

/-- A sum is joined from the collapsed terms.  They are distinct, and stay the same if they are
collapsed again, exactly if no two terms are written alike.  In an available dialect this is
the case exactly if no term that occurs once is written like the multiple of a term that
occurs several times, and so it is for identifiers. -/
theorem collapse_nodup_iff (dialect : Dialect) (terms : List Token) :
    dialect.addTerms terms = .ok (dialect.join (dialect.collapse terms)) ∧
    ((dialect.collapse terms).Nodup ↔ dialect.WritesApart terms) ∧
    (dialect.collapse (dialect.collapse terms) = dialect.collapse terms ↔
      dialect.WritesApart terms) ∧
    (dialect.Available → (dialect.WritesApart terms ↔ ¬dialect.MeetsMultiple terms)) ∧
    (dialect.Available → (∀ term ∈ terms, IsIdentifier term) → dialect.WritesApart terms) := by
  refine ⟨dialect.addTerms_eq terms, nodup_collapse_iff, ?_, fun hAvailable =>
    hAvailable.writesApart_iff, fun hAvailable hNames => ?_⟩
  · rw [collapse_eq_self_iff, nodup_collapse_iff]
  · rw [hAvailable.writesApart_iff]
    rintro ⟨single, hSingle, several, -, -, -, rfl⟩
    exact hAvailable.not_isIdentifier_multiply _ _ (hNames _ hSingle)

/-- A term that is written like a multiple of another one, but of another number. -/
theorem collapse_nodup_iff_another_multiple :
    let dialect := Dialect.cpp none
    let terms := ["a*b", "3.0*a*b", "a*b"]
    dialect.Available ∧ (∀ term ∈ ["a", "b", "a"], IsIdentifier term) ∧
    dialect.collapse terms = ["2.0*a*b", "3.0*a*b"] ∧ (dialect.collapse terms).Nodup ∧
    dialect.collapse (dialect.collapse terms) = dialect.collapse terms ∧
    dialect.addTerms terms = .ok (some "(2.0*a*b + 3.0*a*b)") ∧
    (dialect.collapse ["a", "b", "a"]).Nodup := by
  intro dialect terms
  have hAvailable : dialect.Available := .cpp none
  have hNames : ∀ term ∈ ["a", "b", "a"], IsIdentifier term := by decide
  have hCollapse : dialect.collapse terms = ["2.0*a*b", "3.0*a*b"] := by decide +kernel
  obtain ⟨hJoin, hNodup, hAgain, hApart, -⟩ := collapse_nodup_iff dialect terms
  have hMeets : ¬dialect.MeetsMultiple terms := by decide +kernel
  have hDistinct := (hApart hAvailable).mpr hMeets
  obtain ⟨-, hNodupNames, -, -, hApartNames⟩ := collapse_nodup_iff dialect ["a", "b", "a"]
  refine ⟨hAvailable, hNames, hCollapse, hNodup.mpr hDistinct, hAgain.mpr hDistinct, ?_,
    hNodupNames.mpr (hApartNames hAvailable hNames)⟩
  rw [hJoin, hCollapse]
  decide +kernel

/-- The multiple of two equal terms meets a product with the literal two. -/
theorem collapsed_term_meets_product :
    let dialect := Dialect.cpp none
    let terms := ["a", "a", "2.0*a"]
    dialect.Available ∧ dialect.collapse terms = ["2.0*a", "2.0*a"] ∧
    ¬(dialect.collapse terms).Nodup ∧
    dialect.collapse (dialect.collapse terms) = ["2.0*2.0*a"] ∧
    TensorCode.sum dialect (terms.map fun term => .scalar (some term)) =
      .ok (.scalar (some "(2.0*a + 2.0*a)")) := by
  intro dialect terms
  have hCollapse : dialect.collapse terms = ["2.0*a", "2.0*a"] := by decide +kernel
  refine ⟨.cpp none, hCollapse, ?_, by decide +kernel, by decide +kernel⟩
  rw [hCollapse]
  decide

end Dialect

end FormLowering
