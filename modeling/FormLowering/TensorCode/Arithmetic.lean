import FormLowering.Dialect.Calls
import FormLowering.Lowering.Fault

/-!
# Arithmetic on tensor codes

Tensor codes are added component by component and multiplied by forming every
combination of the components of their factors.  Symbolic zeros and literal
ones disappear on the way, without a trace in the emitted text.

Terms of a sum that are written alike are collapsed into one term with a count,
so that code does not grow with the number of equal contributions.
-/

namespace FormLowering

/-! ### Choosing one of each -/

/-- Every way to choose one element of each list, in lexicographic order with the
last list varying fastest.  Without lists there is one choice, and with an empty
list there is none. -/
def choices {α : Type} : List (List α) → List (List α)
  | [] => [[]]
  | options :: rest =>
    let others := choices rest
    options.flatMap fun option => others.map (option :: ·)

/-- Every way to choose one entry of each tensor, with the concatenation of the
chosen keys and the chosen values in operand order.  Without operands there is
none. -/
def entryChoices {β : Type} (operands : List (SortedMap Key β)) : List (Key × List β) :=
  if operands.isEmpty then []
  else (choices (operands.map (·.entries))).map fun chosen =>
    (chosen.flatMap Prod.fst, chosen.map Prod.snd)

/-! ### Equal terms -/

/-- Counts one more occurrence of a term in a tally. -/
def countTerm (term : Token) : List (Token × Nat) → List (Token × Nat)
  | [] => [(term, 1)]
  | (other, count) :: rest =>
    if other = term then (other, count + 1) :: rest
    else (other, count) :: countTerm term rest

/-- The distinct terms in order of their first occurrence, with the number of
their occurrences. -/
def tally (terms : List Token) : List (Token × Nat) :=
  terms.foldl (fun counts term => countTerm term counts) []

namespace Dialect

/-- A term that occurs a number of times. -/
def repeated (dialect : Dialect) (term : Token) (count : Nat) : Token :=
  if 1 < count then dialect.multiply [dialect.literal (.ofNat count), term] else term

/-- The terms of a sum with equal terms collapsed. -/
def collapse (dialect : Dialect) (terms : List Token) : List Token :=
  (tally terms).map fun counted => dialect.repeated counted.1 counted.2

/-! ### Sums and products of entries -/

/-- The terms added up and grouped.  A single term stands for itself, and no
term is symbolic zero. -/
def join (dialect : Dialect) : List Token → Entry
  | [] => none
  | [term] => some term
  | terms => some (dialect.group (dialect.add terms))

/-- The sum of the terms that contribute to one component. -/
def addTerms (dialect : Dialect) (terms : List Token) : Except Fault Entry :=
  if 1 < terms.length then
    let collapsed := dialect.collapse terms
    if collapsed.isEmpty then
      throw (.invariantViolation "duplicate reduction removed every term of a sum")
    else return dialect.join collapsed
  else return terms.head?

/-- The factors that are not literal ones, or `none` if one of the factors is
symbolic zero.  Factors are looked at from left to right, up to the first zero. -/
def properFactors (dialect : Dialect) : List Entry → Except Fault (Option (List Token))
  | [] => return some []
  | none :: _ => return none
  | some factor :: rest => do
    if factor = "" then throw .malformedOperand
    let others ← dialect.properFactors rest
    return others.map fun factors =>
      if factor = dialect.identity then factors else factor :: factors

/-- The product of entries. -/
def productEntry (dialect : Dialect) (factors : List Entry) : Except Fault Entry := do
  match ← dialect.properFactors factors with
  | none => return none
  | some [] => return some dialect.identity
  | some factors => return some (dialect.multiply factors)

end Dialect

/-! ### Operations -/

namespace TensorCode

/-- What the operands of a sum contribute to each component. -/
def sumContributions {β : Type} (operands : List (SortedMap Key (Option β))) :
    List (Key × List β) :=
  operands.flatMap fun operand => operand.entries.map fun entry => (entry.1, entry.2.toList)

/-- The sum of tensor codes, component by component. -/
def sum (dialect : Dialect) (operands : List TensorCode) : Except Fault TensorCode :=
  (SortedMap.gather (sumContributions operands)).traverse dialect.addTerms

/-- What the choices of one entry of each tensor contribute to each component.
Every choice is multiplied by the scalars. -/
def productContributions (dialect : Dialect) (tensors : List TensorCode) (scalars : List Entry) :
    Except Fault (List (Key × List Token)) :=
  (entryChoices tensors).mapM fun chosen => do
    let product ← dialect.productEntry (chosen.2 ++ scalars)
    return (Key.sorted chosen.1, product.toList)

/-- The product of tensor codes.  A combination of components contributes to its
sorted concatenation, and combinations that meet there are added up. -/
def product (dialect : Dialect) (operands : List TensorCode) : Except Fault TensorCode := do
  let tensors := operands.filter SortedMap.isTensor
  let scalars := operands.filterMap SortedMap.asScalar?
  if tensors.isEmpty then
    return scalar (← dialect.productEntry scalars)
  else
    let contributions ← productContributions dialect tensors scalars
    (SortedMap.gather contributions).traverse dialect.addTerms

/-- The quotient of a numerator and a scalar denominator. -/
def division (dialect : Dialect) : List TensorCode → Except Fault TensorCode
  | [numerator, denominator] =>
    match denominator.asScalar? with
    | none => throw (.nonScalarOperand "Division")
    | some none => throw .divisionByZero
    | some (some divisor) =>
      return numerator.mapValues fun entry => entry.map fun value =>
        if divisor = dialect.identity then value
        else dialect.divide value (dialect.group divisor)
  | operands => throw (.arityMismatch "Division" 2 operands.length)

/-- The entry of the only operand of a node, which has to be scalar. -/
def onlyScalar {β : Type} (node : String) : List (SortedMap Key β) → Except Fault β
  | [operand] =>
    match operand.asScalar? with
    | some entry => return entry
    | none => throw (.nonScalarOperand node)
  | operands => throw (.arityMismatch node 1 operands.length)

/-- The absolute value of a scalar. -/
def abs (dialect : Dialect) (operands : List TensorCode) : Except Fault TensorCode := do
  return scalar ((← onlyScalar "Abs" operands).map dialect.absolute)

/-- An elementary function of a scalar.  It need not vanish at zero, so symbolic
zero is written as a literal. -/
def applyFunction (dialect : Dialect) (function : ElementaryFunction) (operands : List TensorCode) :
    Except Fault TensorCode := do
  let argument := (← onlyScalar function.name operands).getD (dialect.literal .zero)
  return scalar (some (dialect.elementary function argument))

end TensorCode

end FormLowering
