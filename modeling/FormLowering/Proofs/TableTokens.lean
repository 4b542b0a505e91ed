import FormLowering.Proofs.Element.TableCharacters
import Mathlib

/-!
# Tokens of tables

The token of a table is put together from numbers and from texts that separate them, so the
numbers can be read off it.  Only the derivative counts are written without a separator: a
token determines the digits of all counts together, and it determines the counts as far as
it is known where the digits of each of them end.
-/

namespace FormLowering

/-! ### Reading off a number -/

theorem toDigits_injective {left right : Nat}
    (hDigits : Nat.toDigits 10 left = Nat.toDigits 10 right) : left = right :=
  Nat.repr_injective (congrArg String.ofList hDigits)

/-- Whether a text can stand behind a number without continuing it. -/
def EndsNumber (text : String) : Prop :=
  ∀ character ∈ text.toList.head?, character.isDigit = false

/-- Whether a text can stand behind a name without continuing it. -/
def EndsName (text : String) : Prop :=
  ∀ character ∈ text.toList.head?, isIdentifierCharacter character = false

instance (text : String) : Decidable (EndsNumber text) :=
  decidable_of_iff (text.toList.head?.all (fun character => !character.isDigit) = true) (by
    unfold EndsNumber
    cases text.toList.head? <;> simp)

theorem EndsName.endsNumber {text : String} (hEnds : EndsName text) : EndsNumber text := by
  intro character hHead
  by_contra hDigit
  rw [Bool.not_eq_false] at hDigit
  exact absurd (hEnds character hHead) (by rw [isIdentifierCharacter_of_isDigit hDigit]; simp)

theorem EndsName.empty : EndsName "" :=
  fun _ hHead => nomatch hHead

theorem AllDigits.takeWhile_append {digits rest : String} (hDigits : AllDigits digits)
    (hRest : EndsNumber rest) : (digits ++ rest).toList.takeWhile Char.isDigit = digits.toList := by
  have hNone : rest.toList.takeWhile Char.isDigit = [] := by
    cases hText : rest.toList with
    | nil => rfl
    | cons first others =>
        have hFirst : first.isDigit = false := hRest first (by rw [hText]; rfl)
        rw [List.takeWhile_cons_of_neg (by simp [hFirst])]
  rw [String.toList_append, List.takeWhile_append_of_pos hDigits, hNone, List.append_nil]

/-- Digits can be read off a text that does not go on with a digit. -/
theorem AllDigits.append_inj {digits digits' rest rest' : String} (hDigits : AllDigits digits)
    (hDigits' : AllDigits digits') (hRest : EndsNumber rest) (hRest' : EndsNumber rest')
    (hText : digits ++ rest = digits' ++ rest') : digits = digits' ∧ rest = rest' := by
  have hSame : digits = digits' := by
    rw [← String.toList_inj, ← hDigits.takeWhile_append hRest, ← hDigits'.takeWhile_append hRest',
      hText]
  subst hSame
  exact ⟨rfl, (String.append_right_inj _).mp hText⟩

theorem toString_append_inj {left right : Nat} {rest rest' : String} (hRest : EndsNumber rest)
    (hRest' : EndsNumber rest') (hText : toString left ++ rest = toString right ++ rest') :
    left = right ∧ rest = rest' := by
  obtain ⟨hDigits, hSame⟩ := (AllDigits.natText left).append_inj (.natText right) hRest hRest' hText
  exact ⟨Nat.repr_injective hDigits, hSame⟩

/-! ### Derivative counts -/

/-- The digits of derivative counts, one after the other.  Counts that are all zero have none. -/
def countDigits (derivatives : List Nat) : String :=
  String.join ((canonicalCounts derivatives).map toString)

theorem AllDigits.countDigits (derivatives : List Nat) : AllDigits (countDigits derivatives) := by
  intro character hMem
  rw [FormLowering.countDigits, String.toList_join] at hMem
  obtain ⟨text, hText, hIn⟩ := List.mem_flatMap.mp hMem
  obtain ⟨count, -, rfl⟩ := List.mem_map.mp hText
  exact AllDigits.natText count character hIn

theorem toList_countDigits (derivatives : List Nat) :
    (countDigits derivatives).toList =
      ((canonicalCounts derivatives).map (Nat.toDigits 10)).flatten := by
  rw [countDigits, String.toList_join, List.flatMap_map, List.flatten_eq_flatMap, List.flatMap_map]
  simp only [Nat.toString_eq_repr, Nat.toList_repr, id]

/-- Counts with the same digits are the same exactly if the digits are divided among them in
the same way. -/
theorem canonicalCounts_eq_iff_of_countDigits {derivatives derivatives' : List Nat}
    (hDigits : countDigits derivatives = countDigits derivatives') :
    canonicalCounts derivatives = canonicalCounts derivatives' ↔
      (canonicalCounts derivatives).map digitCount =
        (canonicalCounts derivatives').map digitCount := by
  refine ⟨congrArg _, fun hCounts => List.map_injective_iff.mpr
    (fun _ _ => toDigits_injective) (List.eq_iff_flatten_eq.mpr ⟨?_, ?_⟩)⟩
  · rw [← toList_countDigits, hDigits, toList_countDigits]
  · rw [List.map_map, List.map_map]
    exact hCounts

theorem length_countDigits (derivatives : List Nat) :
    (countDigits derivatives).toList.length =
      ((canonicalCounts derivatives).map digitCount).sum := by
  rw [toList_countDigits, List.length_flatten, List.map_map]
  rfl

theorem canonicalCounts_eq_nil_iff {derivatives : List Nat} :
    canonicalCounts derivatives = [] ↔ countDigits derivatives = "" := by
  constructor
  · intro hNone
    rw [countDigits, hNone]
    rfl
  · intro hNone
    have hLength := length_countDigits derivatives
    rw [hNone] at hLength
    cases hCounts : canonicalCounts derivatives with
    | nil => rfl
    | cons count rest =>
        have hPos : 0 < digitCount count := Nat.length_toDigits_pos
        rw [hCounts, List.map_cons, List.sum_cons, String.toList_empty, List.length_nil] at hLength
        omega

theorem derivativeSuffix_eq (derivatives : List Nat) :
    derivativeSuffix derivatives =
      if countDigits derivatives = "" then "" else "_D" ++ countDigits derivatives := by
  unfold derivativeSuffix
  by_cases hZero : derivatives.all (· = 0) = true
  · have hNone : countDigits derivatives = "" := by
      rw [← canonicalCounts_eq_nil_iff, canonicalCounts, if_pos hZero]
    rw [if_pos hZero, if_pos hNone]
  · have hSame : canonicalCounts derivatives = derivatives := if_neg hZero
    have hSome : countDigits derivatives ≠ "" := by
      rw [Ne, ← canonicalCounts_eq_nil_iff, hSame]
      rintro rfl
      exact hZero rfl
    rw [if_neg hZero, if_neg hSome, countDigits, hSame]

theorem canonicalCounts_eq_self {derivatives : List Nat}
    (hSome : canonicalCounts derivatives ≠ []) : canonicalCounts derivatives = derivatives := by
  by_cases hZero : derivatives.all (· = 0) = true
  · exact absurd (if_pos hZero) hSome
  · exact if_neg hZero

theorem eq_replicate_of_sum_le {counts : List Nat} (hPos : ∀ count ∈ counts, 1 ≤ count)
    (hSum : counts.sum ≤ counts.length) : counts = List.replicate counts.length 1 := by
  induction counts with
  | nil => rfl
  | cons count rest ih =>
      rw [List.forall_mem_cons] at hPos
      have hRest : rest.length ≤ rest.sum := List.length_le_sum_of_one_le rest hPos.2
      rw [List.sum_cons, List.length_cons] at hSum
      have hCount : count = 1 := by omega
      rw [List.length_cons, List.replicate_succ, ← ih hPos.2 (by omega), hCount]

theorem digitCount_eq_one {count : Nat} (hSmall : count < 10) : digitCount count = 1 := by
  have hPos : 0 < digitCount count := Nat.length_toDigits_pos
  have hLength : digitCount count ≤ 1 := (Nat.length_toDigits_le_iff (by decide) (by decide)).mpr hSmall
  omega

/-- As many counts with as many digits as counts of one digit each have one digit each. -/
theorem map_digitCount_eq_of_lt_ten {counts counts' : List Nat}
    (hSum : (counts.map digitCount).sum = (counts'.map digitCount).sum)
    (hLength : counts.length = counts'.length) (hSmall : ∀ count ∈ counts, count < 10) :
    counts.map digitCount = counts'.map digitCount := by
  have hOnes : counts.map digitCount = List.replicate counts.length 1 :=
    List.eq_replicate_iff.mpr ⟨List.length_map .., fun count hMem => by
      obtain ⟨digits, hDigits, rfl⟩ := List.mem_map.mp hMem
      exact digitCount_eq_one (hSmall digits hDigits)⟩
  have hPos : ∀ count ∈ counts'.map digitCount, 1 ≤ count := by
    intro count hMem
    obtain ⟨digits, -, rfl⟩ := List.mem_map.mp hMem
    exact Nat.length_toDigits_pos
  have hBound : (counts'.map digitCount).sum ≤ (counts'.map digitCount).length := by
    rw [← hSum, hOnes, List.sum_replicate, List.length_map, hLength]
    simp
  rw [hOnes, eq_replicate_of_sum_le hPos hBound, List.length_map, hLength]

theorem canonicalCounts_eq_of_lt_ten {derivatives derivatives' : List Nat}
    (hDigits : countDigits derivatives = countDigits derivatives')
    (hLength : derivatives = [] ∨ derivatives' = [] ∨ derivatives.length = derivatives'.length)
    (hSmall : ∀ count ∈ derivatives, count < 10) :
    canonicalCounts derivatives = canonicalCounts derivatives' := by
  have hNone : canonicalCounts derivatives = [] ↔ canonicalCounts derivatives' = [] := by
    rw [canonicalCounts_eq_nil_iff, canonicalCounts_eq_nil_iff, hDigits]
  by_cases hEmpty : canonicalCounts derivatives = []
  · rw [hEmpty, hNone.mp hEmpty]
  · have hSelf := canonicalCounts_eq_self hEmpty
    have hSelf' := canonicalCounts_eq_self fun hEmpty' => hEmpty (hNone.mpr hEmpty')
    have hSame : derivatives.length = derivatives'.length := by
      rcases hLength with rfl | rfl | hLength
      · exact absurd rfl hEmpty
      · exact absurd (hNone.mpr rfl) hEmpty
      · exact hLength
    rw [canonicalCounts_eq_iff_of_countDigits hDigits]
    have hSum : ((canonicalCounts derivatives).map digitCount).sum =
        ((canonicalCounts derivatives').map digitCount).sum := by
      rw [← length_countDigits, hDigits, length_countDigits]
    rw [hSelf, hSelf'] at hSum ⊢
    exact map_digitCount_eq_of_lt_ten hSum hSame hSmall

/-! ### Parts of a token -/

/-- The first character of a text decides whether it continues a number. -/
theorem EndsNumber.append {text rest : String} (hText : EndsNumber text)
    (hRest : text = "" → EndsNumber rest) : EndsNumber (text ++ rest) := by
  intro character hHead
  cases hChars : text.toList with
  | nil =>
      obtain rfl : text = "" := by rw [← String.toList_inj, hChars]; rfl
      exact hRest rfl character (by simpa using hHead)
  | cons first others =>
      refine hText character ?_
      rw [String.toList_append, hChars] at hHead
      rw [hChars]
      exact hHead

theorem EndsNumber.append_of_ne_empty {text rest : String} (hText : EndsNumber text)
    (hSome : text ≠ "") : EndsNumber (text ++ rest) :=
  hText.append fun hNone => absurd hNone hSome

theorem EndsNumber.sideSuffix (side : Restriction) : EndsNumber (sideSuffix side) := by
  cases side <;> decide

theorem EndsName.endsNumber_sideSuffix {rest : String} (hRest : EndsName rest)
    (side : Restriction) : EndsNumber (sideSuffix side ++ rest) :=
  (EndsNumber.sideSuffix side).append fun _ => hRest.endsNumber

theorem EndsNumber.derivativeSuffix (derivatives : List Nat) :
    EndsNumber (derivativeSuffix derivatives) := by
  rw [FormLowering.derivativeSuffix]
  split
  · decide
  · exact append_of_ne_empty (by decide) (by decide)

/-- A name that ends is not continued by derivative counts. -/
theorem sideSuffix_append_ne {rest : String} (hRest : EndsName rest) (side : Restriction)
    (digits : String) : sideSuffix side ++ rest ≠ "_D" ++ digits := by
  intro hText
  have hChars := congrArg String.toList hText
  cases side with
  | none =>
      have hFirst : isIdentifierCharacter '_' = false :=
        hRest '_' (by simpa [sideSuffix] using congrArg List.head? hChars)
      exact absurd hFirst (by decide)
  | positive => simp [sideSuffix, Restriction.suffix] at hChars
  | negative => simp [sideSuffix, Restriction.suffix] at hChars

/-- A name that ends is not continued by the digit of a side. -/
theorem EndsName.side_eq_none {text rest : String} {side : Restriction} (hEnds : EndsName text)
    (hText : text = sideSuffix side ++ rest) : side = .none := by
  have hMark : isIdentifierCharacter '_' ≠ false := by decide
  subst hText
  cases side with
  | none => rfl
  | positive => exact absurd (hEnds '_' (by simp [sideSuffix])) hMark
  | negative => exact absurd (hEnds '_' (by simp [sideSuffix])) hMark

theorem sideSuffix_append_inj {side side' : Restriction} {rest rest' : String}
    (hRest : EndsName rest) (hRest' : EndsName rest')
    (hText : sideSuffix side ++ rest = sideSuffix side' ++ rest') :
    side = side' ∧ rest = rest' := by
  have hSide : side = side' := by
    have hChars := congrArg String.toList hText
    cases side with
    | none => exact (hRest.side_eq_none (String.empty_append.symm.trans hText)).symm
    | positive =>
        cases side' with
        | none => exact hRest'.side_eq_none (String.empty_append.symm.trans hText.symm)
        | positive => rfl
        | negative => simp [sideSuffix, Restriction.suffix] at hChars
    | negative =>
        cases side' with
        | none => exact hRest'.side_eq_none (String.empty_append.symm.trans hText.symm)
        | positive => simp [sideSuffix, Restriction.suffix] at hChars
        | negative => rfl
  subst hSide
  exact ⟨rfl, (String.append_right_inj _).mp hText⟩

/-- What stands behind the component in a token determines the digits of the counts and the
side. -/
theorem suffixes_append_inj {derivatives derivatives' : List Nat} {side side' : Restriction}
    {rest rest' : String} (hRest : EndsName rest) (hRest' : EndsName rest')
    (hText : derivativeSuffix derivatives ++ (sideSuffix side ++ rest) =
      derivativeSuffix derivatives' ++ (sideSuffix side' ++ rest')) :
    countDigits derivatives = countDigits derivatives' ∧ side = side' ∧ rest = rest' := by
  rw [derivativeSuffix_eq, derivativeSuffix_eq] at hText
  -- Either both have counts or neither has: a side is not written like counts.
  by_cases hNone : countDigits derivatives = "" <;>
    by_cases hNone' : countDigits derivatives' = "" <;>
      simp only [hNone, hNone', if_true, if_false, String.empty_append, String.append_assoc] at hText
  · exact ⟨hNone.trans hNone'.symm, sideSuffix_append_inj hRest hRest' hText⟩
  · exact absurd hText (sideSuffix_append_ne hRest side _)
  · exact absurd hText.symm (sideSuffix_append_ne hRest' side' _)
  · obtain ⟨hDigits, hSides⟩ := (AllDigits.countDigits derivatives).append_inj
      (.countDigits derivatives') (hRest.endsNumber_sideSuffix side)
      (hRest'.endsNumber_sideSuffix side') ((String.append_right_inj _).mp hText)
    exact ⟨hDigits, sideSuffix_append_inj hRest hRest' hSides⟩

theorem loopVariable_injective {number number' : Nat}
    (hText : loopVariable number = loopVariable number') : number = number' := by
  have hChars := congrArg String.toList hText
  unfold loopVariable at hText hChars
  -- The first four loop variables are letters, and the further ones begin with another letter.
  split at hText <;> split at hText
  any_goals first | rfl | (simp at hChars; done)
  exact Nat.repr_injective ((String.append_right_inj _).mp hText)

/-! ### Requests -/

namespace TableRequest

/-- Whether the derivative counts of two requests, where they have any, are about equally many
directions. -/
def Comparable (request request' : TableRequest) : Prop :=
  request.derivatives = [] ∨ request'.derivatives = [] ∨
    request.derivatives.length = request'.derivatives.length

/-- What the requests for two tables with one token have in common. -/
structure SharesToken (request request' : TableRequest) : Prop where
  component : request.component = request'.component
  restriction : request.restriction = request'.restriction
  /-- The digits of all counts together. -/
  digits : countDigits request.derivatives = countDigits request'.derivatives

/-- The part of a token that its request determines. -/
def label (request : TableRequest) : String :=
  toString request.component ++
    (derivativeSuffix request.derivatives ++ sideSuffix request.restriction)

variable {request request' : TableRequest}

theorem label_append_inj {rest rest' : String} (hRest : EndsName rest) (hRest' : EndsName rest')
    (hText : request.label ++ rest = request'.label ++ rest') :
    request.SharesToken request' ∧ rest = rest' := by
  have hEnds : ∀ (derivatives : List Nat) (side : Restriction) {rest : String}, EndsName rest →
      EndsNumber (derivativeSuffix derivatives ++ (sideSuffix side ++ rest)) :=
    fun derivatives side _ hRest =>
      (EndsNumber.derivativeSuffix derivatives).append fun _ => hRest.endsNumber_sideSuffix side
  simp only [label, String.append_assoc] at hText
  obtain ⟨hComponent, hSuffixes⟩ :=
    toString_append_inj (hEnds _ _ hRest) (hEnds _ _ hRest') hText
  obtain ⟨hDigits, hSide, hSame⟩ := suffixes_append_inj hRest hRest' hSuffixes
  exact ⟨⟨hComponent, hSide, hDigits⟩, hSame⟩

end TableRequest

namespace ElementCatalog

variable {request request' : TableRequest}

theorem endsNumber_component (text : String) : EndsNumber ("_C" ++ text) :=
  .append_of_ne_empty (by decide) (by decide)

theorem argumentToken_eq (argument : Argument) (request : TableRequest) :
    argumentToken argument request = "FE" ++ (toString argument.element ++
      ("_C" ++ (request.label ++ ("[ip][" ++ (loopVariable argument.number ++ "]"))))) := by
  simp only [argumentToken, tableLabel, TableRequest.label, String.append_assoc]

theorem coefficientToken_eq (coefficient : Coefficient) (request : TableRequest) :
    coefficientToken coefficient request =
      "F" ++ (toString coefficient.number ++ ("_C" ++ request.label)) := by
  simp only [coefficientToken, TableRequest.label, String.append_assoc]

/-- The token of an argument tells the argument. -/
theorem sharesToken_of_argumentToken_eq {argument argument' : Argument}
    (hToken : argumentToken argument request = argumentToken argument' request') :
    argument = argument' ∧ request.SharesToken request' := by
  have hTail : ∀ text, EndsName ("[ip][" ++ text) := by
    intro text character hHead
    rw [String.toList_append] at hHead
    cases hHead
    decide
  rw [argumentToken_eq, argumentToken_eq, String.append_right_inj] at hToken
  obtain ⟨hElement, hRest⟩ :=
    toString_append_inj (endsNumber_component _) (endsNumber_component _) hToken
  obtain ⟨hShares, hLoop⟩ :=
    TableRequest.label_append_inj (hTail _) (hTail _) ((String.append_right_inj _).mp hRest)
  rw [String.append_right_inj, String.append_left_inj] at hLoop
  obtain ⟨number, element⟩ := argument
  obtain rfl : element = argument'.element := hElement
  obtain rfl : number = argument'.number := loopVariable_injective hLoop
  exact ⟨rfl, hShares⟩

/-- The token of a coefficient tells its number. -/
theorem sharesToken_of_coefficientToken_eq {coefficient coefficient' : Coefficient}
    (hToken : coefficientToken coefficient request = coefficientToken coefficient' request') :
    coefficient.number = coefficient'.number ∧ request.SharesToken request' := by
  rw [coefficientToken_eq, coefficientToken_eq, String.append_right_inj] at hToken
  obtain ⟨hNumber, hRest⟩ :=
    toString_append_inj (endsNumber_component _) (endsNumber_component _) hToken
  have hLabel : request.label ++ "" = request'.label ++ "" := by
    rw [(String.append_right_inj _).mp hRest]
  exact ⟨hNumber, (TableRequest.label_append_inj .empty .empty hLabel).1⟩

/-- The second character of a token tells whether it is the token of an argument. -/
theorem argumentToken_ne_coefficientToken (argument : Argument) (coefficient : Coefficient) :
    argumentToken argument request ≠ coefficientToken coefficient request' := by
  intro hToken
  have hLetters : "FE" = "F" ++ ("" ++ "E") := rfl
  rw [argumentToken_eq, coefficientToken_eq, hLetters, String.append_assoc, String.append_right_inj,
    String.append_assoc] at hToken
  have hEmpty : AllDigits "" := fun _ hMem => nomatch hMem
  have hNumber : "" = toString coefficient.number :=
    (hEmpty.append_inj (.natText _) (.append_of_ne_empty (by decide) (by decide))
      (endsNumber_component _) hToken).1
  exact Nat.toDigits_ne_nil (by rw [← Nat.toList_repr, ← Nat.toString_eq_repr, ← hNumber]; rfl)

end ElementCatalog

/-! ### Collisions -/

/-- How far requests agree whose tables have one token. -/
structure TableRequest.AgreesWith (request request' : TableRequest) : Prop where
  component : request.component = request'.component
  restriction : request.restriction = request'.restriction
  /-- The counts are the same exactly if each of them has as many digits in one request as in
  the other. -/
  counts_iff : canonicalCounts request.derivatives = canonicalCounts request'.derivatives ↔
    (canonicalCounts request.derivatives).map digitCount =
      (canonicalCounts request'.derivatives).map digitCount
  /-- They are the same where those of one request are below ten. -/
  counts_of_lt_ten : request.Comparable request' → (∀ count ∈ request.derivatives, count < 10) →
    canonicalCounts request.derivatives = canonicalCounts request'.derivatives

theorem TableRequest.SharesToken.agreesWith {request request' : TableRequest}
    (hShares : request.SharesToken request') : request.AgreesWith request' where
  component := hShares.component
  restriction := hShares.restriction
  counts_iff := canonicalCounts_eq_iff_of_countDigits hShares.digits
  counts_of_lt_ten := canonicalCounts_eq_of_lt_ten hShares.digits

theorem eq_of_ite_none_eq_some {condition : Bool} {token token' : Token}
    (hEntry : (if condition then none else some token') = some token) : token' = token := by
  cases condition
  · exact Option.some.inj hEntry
  · cases hEntry

/-- A token tells whether its table is that of an argument or of a coefficient.  Tables of
arguments with one token belong to one argument, those of coefficients to coefficients with one
number, and the requests for them agree in all but the counts, and in the counts as far as
these have the same numbers of digits. -/
theorem ElementCatalog.requests_agree_of_token_eq (catalog : ElementCatalog) :
    (∀ {request request' : TableRequest} {argument argument' : Argument} {token : Token},
      (catalog.tables.argument argument request).code = some token →
        (catalog.tables.argument argument' request').code = some token →
          argument = argument' ∧ request.AgreesWith request') ∧
      (∀ {request request' : TableRequest} {coefficient coefficient' : Coefficient}
        {token : Token}, catalog.tables.coefficient coefficient request = some token →
          catalog.tables.coefficient coefficient' request' = some token →
            coefficient.number = coefficient'.number ∧ request.AgreesWith request') ∧
        ∀ {request request' : TableRequest} {argument : Argument} {coefficient : Coefficient}
          {token : Token}, (catalog.tables.argument argument request).code = some token →
            catalog.tables.coefficient coefficient request' ≠ some token := by
  refine ⟨fun hToken hToken' => ?_, fun hToken hToken' => ?_, fun hToken hToken' => ?_⟩
  · obtain ⟨hArgument, hShares⟩ := sharesToken_of_argumentToken_eq
      ((eq_of_ite_none_eq_some hToken).trans (eq_of_ite_none_eq_some hToken').symm)
    exact ⟨hArgument, hShares.agreesWith⟩
  · obtain ⟨hNumber, hShares⟩ := sharesToken_of_coefficientToken_eq
      ((eq_of_ite_none_eq_some hToken).trans (eq_of_ite_none_eq_some hToken').symm)
    exact ⟨hNumber, hShares.agreesWith⟩
  · exact argumentToken_ne_coefficientToken _ _
      ((eq_of_ite_none_eq_some hToken).trans (eq_of_ite_none_eq_some hToken').symm)

/-- No counts and counts that are zero, for the thirteenth argument, and one order of
derivatives for a coefficient of two elements. -/
theorem ElementCatalog.requests_agree_of_token_eq_derivative :
    let catalog : ElementCatalog := ⟨#[.lagrange 1, .nedelec 1 2], []⟩
    let plain : TableRequest := ⟨1, [], .negative⟩
    let zeros : TableRequest := ⟨1, [0, 0], .negative⟩
    let mixed : TableRequest := ⟨1, [2, 1], .negative⟩
    (catalog.tables.argument ⟨12, 1⟩ plain).code = some "FE1_C1_R1[ip][r12]" ∧
      plain.AgreesWith zeros ∧
        catalog.tables.coefficient ⟨4, 0⟩ mixed = catalog.tables.coefficient ⟨4, 1⟩ mixed ∧
          mixed.AgreesWith mixed ∧
            catalog.tables.coefficient ⟨4, 0⟩ mixed ≠ some "FE1_C1_R1[ip][r12]" := by
  intro catalog plain zeros mixed
  obtain ⟨hArguments, hCoefficients, hKinds⟩ := catalog.requests_agree_of_token_eq
  have hPlain : (catalog.tables.argument ⟨12, 1⟩ plain).code = some "FE1_C1_R1[ip][r12]" := by
    decide +kernel
  have hZeros : (catalog.tables.argument ⟨12, 1⟩ zeros).code = some "FE1_C1_R1[ip][r12]" := by
    decide +kernel
  have hMixed : catalog.tables.coefficient ⟨4, 0⟩ mixed = some "F4_C1_D21_R1" := by decide +kernel
  have hMixed' : catalog.tables.coefficient ⟨4, 1⟩ mixed = some "F4_C1_D21_R1" := by
    decide +kernel
  exact ⟨hPlain, (hArguments hPlain hZeros).2, hMixed.trans hMixed'.symm,
    (hCoefficients hMixed hMixed').2, hKinds hPlain⟩

/-- A derivative of order one in the first direction and ten in the second has the token of one
of order eleven in the first.  The marks of structurally zero tables tell the two apart. -/
theorem ElementCatalog.token_eq_of_distinct_counts :
    let catalog : ElementCatalog := ⟨#[.lagrange 1], []⟩
    let first : TableRequest := ⟨0, [1, 10], .none⟩
    let second : TableRequest := ⟨0, [11, 0], .none⟩
    first.Comparable second ∧
      canonicalCounts first.derivatives ≠ canonicalCounts second.derivatives ∧
        (catalog.tables.argument ⟨0, 0⟩ first).code = some "FE0_C0_D110[ip][j]" ∧
          (catalog.tables.argument ⟨0, 0⟩ second).code = some "FE0_C0_D110[ip][j]" ∧
            catalog.tables.coefficient ⟨0, 0⟩ first = some "F0_C0_D110" ∧
              catalog.tables.coefficient ⟨0, 0⟩ second = some "F0_C0_D110" ∧
                (catalog.declareZero 0 0 [1, 10]).isZero 0 0 [11, 0] = false := by
  intro catalog first second
  exact ⟨.inr (.inr rfl), by decide, by decide +kernel, by decide +kernel, by decide +kernel,
    by decide +kernel, by decide +kernel⟩

end FormLowering
