import FormLowering.Dialect.Calls
import FormLowering.Dialect.Cpp
import FormLowering.Proofs.Number.LiteralValues
import FormLowering.Proofs.Tokens.Tally

/-!
# Counts of collapsed terms

A term that occurs several times in a sum is written once, as a multiple of it.  The count is
a literal like any other, so a dialect that writes a fixed number of digits rounds it.  Then
the literal stands for the number of occurrences exactly if all digits that are cut off are
zeros, which holds for all counts that have no more digits than are written.
-/

namespace FormLowering

open Decimal Binary64

/-- The dialects, each with the number of digits that its literals have behind the point, if
this number is fixed. -/
inductive Dialect.HasPlaces : Dialect → Option Nat → Prop where
  | calls : HasPlaces .calls none
  | cpp (places : Option Nat) : HasPlaces (.cpp places) places

/-- The number that a literal of a count stands for. -/
def writtenCount : Option Nat → Nat → Nat
  | none, count => count
  | some places, count => roundedTo places count

/-- Whether a literal of a count cuts off zeros only. -/
def KeepsDigits : Option Nat → Nat → Prop
  | none, _ => True
  | some places, count => lastDigitUnit places count ∣ count

theorem writtenCount_eq_iff {places : Option Nat} {count : Nat} :
    writtenCount places count = count ↔ KeepsDigits places count := by
  cases places with
  | none => exact iff_of_true rfl trivial
  | some places => exact roundedTo_eq_iff

/-- Counts with no more digits than are written keep their digits. -/
theorem keepsDigits_of_lt {places : Option Nat} {count : Nat}
    (hDigits : ∀ fixed ∈ places, count < 10 ^ (fixed + 1)) : KeepsDigits places count := by
  cases places with
  | none => trivial
  | some places => exact lastDigitUnit_dvd_of_lt (hDigits places rfl)

namespace Dialect

/-- Whether a token is what a term with a number of occurrences is collapsed to, with a
multiplicity: a product with a literal of the multiplicity, or the term if it occurs once. -/
def Counts (dialect : Dialect) (term : Token) (occurrences : Nat) (token : Token)
    (multiplicity : ℚ) : Prop :=
  if 1 < occurrences then
    ∃ literal, Spells literal multiplicity ∧ token = dialect.multiply [literal, term]
  else token = term ∧ multiplicity = 1

variable {dialect : Dialect} {places : Option Nat}

theorem HasPlaces.spells_literal (hDialect : dialect.HasPlaces places) {count : Nat}
    (hPos : count ≠ 0) (hBound : count < 2 ^ 53) :
    Spells (dialect.literal (.ofNat count)) (writtenCount places count) := by
  cases hDialect with
  | calls =>
      have hLiteral : Dialect.calls.literal = shortestText := rfl
      rw [hLiteral]
      exact spells_shortestText hBound
  | cpp =>
      have hLiteral : (Dialect.cpp places).literal = cppLiteral places := rfl
      rw [hLiteral]
      cases places with
      | none => exact spells_shortestText hBound
      | some places => exact spells_scientificTextOf places hPos hBound

theorem HasPlaces.counts_repeated (hDialect : dialect.HasPlaces places) (term : Token)
    {count : Nat} (hPos : count ≠ 0) (hBound : count < 2 ^ 53) :
    dialect.Counts term count (dialect.repeated term count) (writtenCount places count) := by
  rw [Counts, repeated]
  split
  · exact ⟨_, hDialect.spells_literal hPos hBound, rfl⟩
  · obtain rfl : count = 1 := by omega
    have hOne : writtenCount places 1 = 1 :=
      writtenCount_eq_iff.mpr
        (keepsDigits_of_lt fun fixed _ => Nat.one_lt_pow (Nat.succ_ne_zero fixed) (by decide))
    exact ⟨rfl, by rw [hOne, Nat.cast_one]⟩

/-- A product with a term determines the other factor. -/
theorem HasPlaces.multiply_left_cancel (hDialect : dialect.HasPlaces places)
    {left right term : Token}
    (hSame : dialect.multiply [left, term] = dialect.multiply [right, term]) : left = right := by
  cases hDialect with
  | calls =>
      have hCall : "multiply" ++ "(" ++ (left ++ ", " ++ term) ++ ")" =
        "multiply" ++ "(" ++ (right ++ ", " ++ term) ++ ")" := hSame
      simpa only [String.append_left_inj, String.append_right_inj] using hCall
  | cpp =>
      have hJoin : left ++ "*" ++ term = right ++ "*" ++ term := hSame
      simpa only [String.append_left_inj] using hJoin

/-- A token has one multiplicity as what a term is collapsed to. -/
theorem Counts.unique (hDialect : dialect.HasPlaces places) {term token : Token}
    {occurrences : Nat} {left right : ℚ} (hLeft : dialect.Counts term occurrences token left)
    (hRight : dialect.Counts term occurrences token right) : left = right := by
  rw [Counts] at hLeft hRight
  split at hLeft <;> rename_i hSeveral
  · rw [if_pos hSeveral] at hRight
    obtain ⟨literal, ⟨decimal, hRead, rfl⟩, rfl⟩ := hLeft
    obtain ⟨other, ⟨decimalOther, hReadOther, rfl⟩, hToken⟩ := hRight
    obtain rfl := hDialect.multiply_left_cancel hToken
    rw [hRead] at hReadOther
    rw [Option.some.inj hReadOther]
  · rw [if_neg hSeveral] at hRight
    exact hLeft.2.trans hRight.2.symm

/-- The distinct terms are written in the order of their first occurrence, each with its
number of occurrences as the dialect rounds it.  The multiplicity is exact if and only if
zeros alone are cut off, and if all of them are they add up to the number of terms. -/
theorem collapsed_counts_exact_iff (hDialect : dialect.HasPlaces places) {terms : List Token}
    (hFew : terms.length < 2 ^ 53) :
    List.Forall₂ (fun term token =>
        dialect.Counts term (terms.count term) token (writtenCount places (terms.count term)) ∧
        (dialect.Counts term (terms.count term) token (terms.count term) ↔
          KeepsDigits places (terms.count term)))
      terms.eraseDups (dialect.collapse terms) ∧
    ((∀ term ∈ terms, KeepsDigits places (terms.count term)) →
      (terms.eraseDups.map fun term => writtenCount places (terms.count term)).sum =
        terms.length) := by
  constructor
  · rw [collapse, tally_eq, List.map_map, List.forall₂_map_right_iff, List.forall₂_same]
    intro term hTerm
    have hPos : terms.count term ≠ 0 :=
      (List.count_pos_iff.mpr (List.mem_eraseDups.mp hTerm)).ne'
    have hWritten := hDialect.counts_repeated term hPos (List.count_le_length.trans_lt hFew)
    refine ⟨hWritten, ?_⟩
    rw [← writtenCount_eq_iff]
    constructor
    · intro hExact
      exact Nat.cast_injective (hWritten.unique hDialect hExact)
    · intro hSame
      rwa [hSame] at hWritten
  · intro hKeeps
    have hCounts : (terms.eraseDups.map fun term => writtenCount places (terms.count term)) =
        (tally terms).map Prod.snd := by
      rw [tally_eq, List.map_map]
      refine List.map_congr_left fun term hTerm => ?_
      exact writtenCount_eq_iff.mpr (hKeeps term (List.mem_eraseDups.mp hTerm))
    rw [hCounts, sum_tally]

/-- With two digits, a hundred and twenty equal terms are counted exactly. -/
theorem collapsed_counts_exact_iff_hundred_twenty :
    let terms := List.replicate 120 "x" ++ ["y"]
    HasPlaces (.cpp (some 1)) (some 1) ∧ terms.length < 2 ^ 53 ∧
    (cpp (some 1)).collapse terms = ["1.2e2*x", "y"] ∧
    (cpp (some 1)).Counts "x" 120 "1.2e2*x" 120 ∧
    (terms.eraseDups.map fun term => writtenCount (some 1) (terms.count term)).sum = 121 := by
  intro terms
  have hDialect : HasPlaces (.cpp (some 1)) (some 1) := .cpp (some 1)
  have hFew : terms.length < 2 ^ 53 := by decide +kernel
  have hCollapse : (cpp (some 1)).collapse terms = ["1.2e2*x", "y"] := by decide +kernel
  have hDistinct : terms.eraseDups = ["x", "y"] := by decide +kernel
  have hCount : terms.count "x" = 120 := by decide +kernel
  have hKeeps : ∀ term ∈ terms, KeepsDigits (some 1) (terms.count term) := by
    have hAll : ∀ term ∈ ["x", "y"], lastDigitUnit 1 (terms.count term) ∣ terms.count term := by
      decide +kernel
    intro term hTerm
    exact hAll term (hDistinct ▸ List.mem_eraseDups.mpr hTerm)
  obtain ⟨hEach, hSum⟩ := collapsed_counts_exact_iff hDialect hFew
  refine ⟨hDialect, hFew, hCollapse, ?_, hSum hKeeps⟩
  rw [hDistinct, hCollapse, List.forall₂_cons] at hEach
  have hExact := hEach.1.2
  rw [hCount] at hExact
  exact hExact.mpr (hCount ▸ hKeeps "x" (by decide +kernel))

/-- With one digit, eleven equal terms are collapsed to ten of them. -/
theorem collapsed_count_of_eleven :
    HasPlaces (.cpp (some 0)) (some 0) ∧ (List.replicate 11 "x").length < 2 ^ 53 ∧
    (cpp (some 0)).collapse (List.replicate 11 "x") = ["1e1*x"] ∧
    (cpp (some 0)).Counts "x" 11 "1e1*x" 10 ∧
    ¬(cpp (some 0)).Counts "x" 11 "1e1*x" 11 := by
  have hTen : (cpp (some 0)).Counts "x" 11 "1e1*x" 10 := by
    have hLiteral : Spells "1e1" 10 := ⟨⟨1, 1⟩, by decide +kernel, by norm_num [Decimal.value]⟩
    rw [Counts, if_pos (by decide)]
    exact ⟨"1e1", hLiteral, by decide +kernel⟩
  refine ⟨.cpp (some 0), by decide, by decide +kernel, hTen, fun hExact => ?_⟩
  have hSame := hTen.unique (.cpp (some 0)) hExact
  norm_num at hSame

end Dialect

end FormLowering
