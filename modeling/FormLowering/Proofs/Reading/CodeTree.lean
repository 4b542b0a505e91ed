import FormLowering.Proofs.Reading.Words

/-!
# Code trees

The grammar of emitted code: words, groups in parentheses, calls, and the
operators `+`, `*` and `/`, which associate to the left, the last two binding
tighter than the first.  A tree is well-formed if its text needs no further
parentheses.

Both ways to write code use this grammar.  Nested calls use only words and
calls.
-/

namespace FormLowering

/-- A binary operator of an expression. -/
inductive Operator where
  | plus
  | times
  | divided
deriving DecidableEq

namespace Operator

/-- The text between the operands. -/
def text : Operator → List Char
  | .plus => [' ', '+', ' ']
  | .times => ['*']
  | .divided => ['/']

/-- How tight the operator binds. -/
def level : Operator → Nat
  | .plus => 0
  | .times => 1
  | .divided => 1

end Operator

/-- An expression, as it is read from emitted code. -/
inductive CodeTree where
  | word (text : Token)
  /-- An expression in parentheses. -/
  | group (inner : CodeTree)
  | call (callee : Token) (arguments : List CodeTree)
  | binary (operator : Operator) (left right : CodeTree)

namespace CodeTree

mutual

/-- The text of an expression. -/
def text : CodeTree → List Char
  | .word text => text.toList
  | .group inner => '(' :: (text inner ++ [')'])
  | .call callee arguments =>
    callee.toList ++ '(' :: (List.intercalate [',', ' '] (texts arguments) ++ [')'])
  | .binary operator left right => text left ++ (operator.text ++ text right)

/-- The texts of a list of expressions. -/
def texts : List CodeTree → List (List Char)
  | [] => []
  | tree :: rest => text tree :: texts rest

end

/-- How tight the outermost operator binds.  Words, groups and calls are factors. -/
def level : CodeTree → Nat
  | .binary operator _ _ => operator.level
  | _ => 2

mutual

/-- Whether words are words, calls have arguments, and every operand binds as
tight as its operator asks for: the operators associate to the left. -/
def WellFormed : CodeTree → Prop
  | .word text => IsWord text
  | .group inner => WellFormed inner
  | .call callee arguments => IsWord callee ∧ arguments ≠ [] ∧ AllWellFormed arguments
  | .binary operator left right =>
    (WellFormed left ∧ operator.level ≤ left.level) ∧
      (WellFormed right ∧ operator.level < right.level)

/-- Whether all expressions of a list are well-formed. -/
def AllWellFormed : List CodeTree → Prop
  | [] => True
  | tree :: rest => WellFormed tree ∧ AllWellFormed rest

end

theorem texts_eq_map (trees : List CodeTree) : texts trees = trees.map text := by
  induction trees with
  | nil => rfl
  | cons tree rest ih => rw [texts, ih, List.map_cons]

theorem allWellFormed_iff {trees : List CodeTree} :
    AllWellFormed trees ↔ ∀ tree ∈ trees, tree.WellFormed := by
  induction trees with
  | nil => simp [AllWellFormed]
  | cons tree rest ih => simp [AllWellFormed, ih]

/-- No expression is written as the empty text. -/
theorem text_ne_nil : (tree : CodeTree) → tree.WellFormed → tree.text ≠ []
  | .word _, hTree => hTree.1
  | .group _, _ => List.cons_ne_nil _ _
  | .call _ _, hTree => List.append_ne_nil_of_left_ne_nil hTree.1.1 _
  | .binary _ left _, hTree => List.append_ne_nil_of_left_ne_nil (text_ne_nil left hTree.1.1) _

end CodeTree

end FormLowering
