import FormLowering.Proofs.Reading.CodeTree

/-!
# Reading emitted code

Text is cut into lexemes at brackets, commas, blanks and operators, and lexemes
are read from left to right with a stack of open brackets.  Every well-formed
expression is read back from its text (`parse_text`), so a text has at most one
reading (`text_injective`).
-/

namespace FormLowering

/-- A piece of emitted code.  An opening bracket carries the word in front of
it, which is empty for parentheses. -/
inductive Lexeme where
  | word (text : Token)
  | opening (callee : Token)
  | closing
  | comma
  | operator (operator : Operator)

namespace Lexeme

/-- The lexeme of a word that has ended, given by its characters, last first. -/
def ofWord : List Char → List Lexeme
  | [] => []
  | characters => [.word (String.ofList characters.reverse)]

/-- The lexeme of a delimiter.  Blanks mean nothing. -/
def ofDelimiter (character : Char) : List Lexeme :=
  if character = ')' then [.closing]
  else if character = ',' then [.comma]
  else if character = '+' then [.operator .plus]
  else if character = '*' then [.operator .times]
  else if character = '/' then [.operator .divided]
  else []

/-- The lexemes of a text, behind the characters of an unfinished word. -/
def ofChars (word : List Char) : List Char → List Lexeme
  | [] => ofWord word
  | character :: rest =>
    if character = '(' then .opening (String.ofList word.reverse) :: ofChars [] rest
    else if isDelimiter character then
      ofWord word ++ (ofDelimiter character ++ ofChars [] rest)
    else ofChars (character :: word) rest

end Lexeme

/-- What has been read behind an open bracket. -/
structure Frame where
  /-- The word in front of the bracket. -/
  callee : Token
  /-- The arguments that are complete, last first. -/
  arguments : List CodeTree
  /-- The sum of the terms that are complete. -/
  sum : Option CodeTree
  /-- The product of the factors that are complete. -/
  term : Option CodeTree
  /-- The operator in front of the next factor. -/
  pending : Operator

namespace Frame

/-- Nothing read behind a bracket. -/
def start (callee : Token) : Frame :=
  ⟨callee, [], none, none, .times⟩

/-- Takes one more factor. -/
def receive (frame : Frame) (factor : CodeTree) : Frame :=
  match frame.term with
  | none => { frame with term := some factor, pending := .times }
  | some left => { frame with term := some (.binary frame.pending left factor), pending := .times }

/-- The argument being read, if it ends here. -/
def total (frame : Frame) : CodeTree :=
  match frame.sum, frame.term with
  | none, some term => term
  | some sum, some term => .binary .plus sum term
  | _, none => .word ""

/-- All arguments, if the bracket is closed here. -/
def allArguments (frame : Frame) : List CodeTree :=
  (frame.total :: frame.arguments).reverse

/-- The factor that the bracket and the word in front of it make. -/
def close (frame : Frame) : CodeTree :=
  if frame.callee = "" then .group frame.total else .call frame.callee frame.allArguments

end Frame

/-- The innermost open bracket and the brackets around it. -/
structure ReaderState where
  frame : Frame
  outer : List Frame

namespace ReaderState

/-- Reads one lexeme. -/
def step (state : ReaderState) : Lexeme → ReaderState
  | .word text => { state with frame := state.frame.receive (.word text) }
  | .opening callee => ⟨.start callee, state.frame :: state.outer⟩
  | .closing =>
    match state.outer with
    | [] => state
    | parent :: outer => ⟨parent.receive state.frame.close, outer⟩
  | .comma =>
    let frame := state.frame
    { state with
      frame := ⟨frame.callee, frame.total :: frame.arguments, none, none, .times⟩ }
  | .operator .plus =>
    let frame := state.frame
    { state with frame := ⟨frame.callee, frame.arguments, some frame.total, none, .times⟩ }
  | .operator operator => { state with frame := { state.frame with pending := operator } }

/-- Reads lexemes from left to right. -/
def read (state : ReaderState) (lexemes : List Lexeme) : ReaderState :=
  lexemes.foldl step state

theorem read_append (state : ReaderState) (front back : List Lexeme) :
    state.read (front ++ back) = (state.read front).read back :=
  List.foldl_append

theorem read_cons (state : ReaderState) (lexeme : Lexeme) (rest : List Lexeme) :
    state.read (lexeme :: rest) = (state.step lexeme).read rest :=
  rfl

end ReaderState

namespace CodeTree

/-- The expression that a text is read as. -/
def parse (text : List Char) : CodeTree :=
  (ReaderState.read ⟨.start "", []⟩ (Lexeme.ofChars [] text)).frame.total

mutual

/-- The lexemes of an expression. -/
def lexemes : CodeTree → List Lexeme
  | .word text => [.word text]
  | .group inner => .opening "" :: (lexemes inner ++ [.closing])
  | .call callee arguments =>
    .opening callee :: (List.intercalate [.comma] (lexemeLists arguments) ++ [.closing])
  | .binary operator left right => lexemes left ++ .operator operator :: lexemes right

/-- The lexemes of each expression of a list. -/
def lexemeLists : List CodeTree → List (List Lexeme)
  | [] => []
  | tree :: rest => lexemes tree :: lexemeLists rest

end

end CodeTree

/-! ### Cutting text into lexemes -/

namespace Lexeme

/-- Text that does not continue a word or turn it into a callee. -/
def EndsWord (rest : List Char) : Prop :=
  ∀ character ∈ rest.head?, isDelimiter character = true ∧ character ≠ '('

/-- Characters of a word are put aside until it ends. -/
theorem ofChars_append {word : List Char} (hWord : Undelimited word) (before rest : List Char) :
    ofChars before (word ++ rest) = ofChars (word.reverse ++ before) rest := by
  induction word generalizing before with
  | nil => rfl
  | cons character word ih =>
      have hFirst : isDelimiter character = false := hWord character List.mem_cons_self
      have hBracket : character ≠ '(' := by
        rintro rfl
        exact absurd hFirst (by decide)
      rw [List.cons_append, ofChars, if_neg hBracket, hFirst, if_neg Bool.false_ne_true,
        ih (hWord.of_subset (List.subset_cons_self _ _)), List.reverse_cons, List.append_assoc]
      rfl

/-- A word is a lexeme if the text behind it does not continue it. -/
theorem ofChars_word {text : Token} (hWord : IsWord text) {rest : List Char}
    (hRest : EndsWord rest) :
    ofChars [] (text.toList ++ rest) = .word text :: ofChars [] rest := by
  have hFlush : ofWord text.toList.reverse = [.word text] := by
    have hNonempty : text.toList.reverse ≠ [] := by
      simpa using hWord.1
    unfold ofWord
    split
    · contradiction
    · rw [List.reverse_reverse, String.ofList_toList]
  rw [ofChars_append hWord.2, List.append_nil]
  cases rest with
  | nil => rw [ofChars, ofChars, hFlush, ofWord]
  | cons character rest =>
      -- The delimiter ends the word, and is cut off behind it.
      obtain ⟨hDelimiter, hBracket⟩ := hRest character rfl
      simp only [ofChars, if_neg hBracket, hDelimiter, if_true, hFlush]
      rfl

/-- A word in front of a bracket is its callee. -/
theorem ofChars_opening {callee : Token} (hWord : Undelimited callee.toList) (rest : List Char) :
    ofChars [] (callee.toList ++ '(' :: rest) = .opening callee :: ofChars [] rest := by
  rw [ofChars_append hWord, List.append_nil, ofChars, if_pos rfl, List.reverse_reverse,
    String.ofList_toList]

/-- An operator with the blanks around it is one lexeme. -/
theorem ofChars_operator (operator : Operator) (rest : List Char) :
    ofChars [] (operator.text ++ rest) = .operator operator :: ofChars [] rest := by
  cases operator <;> rfl

theorem endsWord_operator (operator : Operator) (rest : List Char) :
    EndsWord (operator.text ++ rest) := by
  intro character hHead
  cases operator <;> cases hHead <;> decide

theorem endsWord_closing (rest : List Char) : EndsWord (')' :: rest) := by
  intro character hHead
  cases hHead
  decide

theorem endsWord_comma (rest : List Char) : EndsWord (',' :: rest) := by
  intro character hHead
  cases hHead
  decide

end Lexeme

namespace CodeTree

mutual

/-- The text of an expression is cut into its lexemes. -/
theorem ofChars_text : (tree : CodeTree) → tree.WellFormed → (rest : List Char) →
    Lexeme.EndsWord rest →
      Lexeme.ofChars [] (tree.text ++ rest) = tree.lexemes ++ Lexeme.ofChars [] rest
  | .word text, hTree, rest, hRest => by
    rw [CodeTree.text, lexemes, Lexeme.ofChars_word hTree hRest]
    rfl
  | .group inner, hTree, rest, hRest => by
    -- A bracket with no word in front of it is an opening with an empty callee.
    have hNoCallee : Undelimited "".toList := by decide
    have hOpening := Lexeme.ofChars_opening hNoCallee (inner.text ++ ')' :: rest)
    have hClosing : Lexeme.ofChars [] (')' :: rest) = .closing :: Lexeme.ofChars [] rest := rfl
    simp only [CodeTree.text, lexemes, List.cons_append, List.append_assoc, List.nil_append]
    rw [show '(' :: (inner.text ++ ')' :: rest) = "".toList ++ '(' :: (inner.text ++ ')' :: rest)
      from rfl, hOpening, ofChars_text inner hTree _ (Lexeme.endsWord_closing rest), hClosing]
  | .call callee arguments, hTree, rest, hRest => by
    have hClosing : Lexeme.ofChars [] (')' :: rest) = .closing :: Lexeme.ofChars [] rest := rfl
    simp only [CodeTree.text, lexemes, List.cons_append, List.append_assoc, List.nil_append]
    rw [Lexeme.ofChars_opening hTree.1.2,
      ofChars_texts arguments hTree.2.2 _ (Lexeme.endsWord_closing rest), hClosing]
  | .binary operator left right, hTree, rest, hRest => by
    simp only [CodeTree.text, lexemes, List.cons_append, List.append_assoc]
    rw [ofChars_text left hTree.1.1 _ (Lexeme.endsWord_operator operator _), Lexeme.ofChars_operator,
      ofChars_text right hTree.2.1 _ hRest]

/-- The texts of arguments are cut into their lexemes. -/
theorem ofChars_texts : (trees : List CodeTree) → AllWellFormed trees → (rest : List Char) →
    Lexeme.EndsWord rest →
    Lexeme.ofChars [] (List.intercalate [',', ' '] (texts trees) ++ rest) =
      List.intercalate [.comma] (lexemeLists trees) ++ Lexeme.ofChars [] rest
  | [], _, rest, _ => rfl
  | [tree], hTrees, rest, hRest => by
    simp only [texts, lexemeLists, List.intercalate_singleton]
    exact ofChars_text tree hTrees.1 rest hRest
  | tree :: second :: others, hTrees, rest, hRest => by
    have hComma : ∀ text, Lexeme.ofChars [] (',' :: ' ' :: text) = .comma :: Lexeme.ofChars [] text :=
      fun text => rfl
    have hOthers := ofChars_texts (second :: others) hTrees.2 rest hRest
    simp only [texts, lexemeLists, List.intercalate_cons_cons, List.append_assoc,
      List.cons_append, List.nil_append] at hOthers ⊢
    rw [ofChars_text tree hTrees.1 _ (Lexeme.endsWord_comma _), hComma, hOthers]

end

/-! ### Reading lexemes -/

end CodeTree

namespace Frame

/-- The frame after an expression that fills its argument so far. -/
def hold (frame : Frame) : CodeTree → Frame
  | .binary .plus left right =>
    { frame with sum := some left, term := some right, pending := .times }
  | tree => frame.receive tree

/-- The frame after the arguments of a call. -/
def holdAll (frame : Frame) : List CodeTree → Frame
  | [] => frame
  | [tree] => frame.hold tree
  | tree :: second :: rest =>
    holdAll ⟨frame.callee, tree :: frame.arguments, none, none, .times⟩ (second :: rest)

/-- Whether nothing has been read since the bracket or the last comma. -/
def Fresh (frame : Frame) : Prop :=
  frame.sum = none ∧ frame.term = none

theorem total_hold {frame : Frame} (hFresh : frame.Fresh) (tree : CodeTree) :
    (frame.hold tree).total = tree := by
  obtain ⟨hSum, hTerm⟩ := hFresh
  unfold hold
  split
  · rfl
  · simp [receive, total, hSum, hTerm]

theorem callee_hold (frame : Frame) (tree : CodeTree) :
    (frame.hold tree).callee = frame.callee := by
  unfold hold receive
  split
  · rfl
  · split <;> rfl

theorem arguments_hold (frame : Frame) (tree : CodeTree) :
    (frame.hold tree).arguments = frame.arguments := by
  unfold hold receive
  split
  · rfl
  · split <;> rfl

/-- A tree that is no sum is taken as one factor. -/
theorem hold_eq_receive (frame : Frame) {tree : CodeTree} (hLevel : 1 ≤ tree.level) :
    frame.hold tree = frame.receive tree := by
  unfold hold
  split
  · exact absurd hLevel (by simp [CodeTree.level, Operator.level])
  · rfl

theorem callee_holdAll (frame : Frame) (trees : List CodeTree) :
    (frame.holdAll trees).callee = frame.callee := by
  induction trees generalizing frame with
  | nil => rfl
  | cons tree rest ih =>
      cases rest with
      | nil => exact callee_hold frame tree
      | cons second rest => rw [holdAll, ih]

theorem allArguments_holdAll {frame : Frame} (hFresh : frame.Fresh) {trees : List CodeTree}
    (hTrees : trees ≠ []) :
    (frame.holdAll trees).allArguments = frame.arguments.reverse ++ trees := by
  induction trees generalizing frame with
  | nil => exact absurd rfl hTrees
  | cons tree rest ih =>
      cases rest with
      | nil => simp [holdAll, allArguments, total_hold hFresh, arguments_hold]
      | cons second rest =>
          rw [holdAll, ih ⟨rfl, rfl⟩ (List.cons_ne_nil _ _)]
          simp

end Frame

namespace CodeTree

/-- Reading a factor, or a product where nothing stands in front of it, takes it
as one factor. -/
def ReadsAsFactor (tree : CodeTree) : Prop :=
  ∀ (frame : Frame) (outer : List Frame), 1 ≤ tree.level →
    (frame.term = none ∨ tree.level = 2) →
      ReaderState.read ⟨frame, outer⟩ tree.lexemes = ⟨frame.receive tree, outer⟩

/-- Reading an expression where nothing stands in front of it fills the argument. -/
def ReadsAsArgument (tree : CodeTree) : Prop :=
  ∀ (frame : Frame) (outer : List Frame), frame.Fresh →
    ReaderState.read ⟨frame, outer⟩ tree.lexemes = ⟨frame.hold tree, outer⟩

/-- An expression that reads as a factor unless it is a sum, and as an argument
if it is one, reads as an argument. -/
theorem readsAsArgument_of_level {tree : CodeTree} (hFactor : tree.ReadsAsFactor)
    (hLevel : 1 ≤ tree.level) : tree.ReadsAsArgument := by
  intro frame outer hFresh
  rw [hFactor frame outer hLevel (.inl hFresh.2), Frame.hold_eq_receive frame hLevel]

theorem readsAsFactor_binary {operator : Operator} {left right : CodeTree}
    (hLeft : left.ReadsAsFactor) (hRight : right.ReadsAsFactor)
    (hTree : (CodeTree.binary operator left right).WellFormed) (hLevel : operator.level = 1) :
    (CodeTree.binary operator left right).ReadsAsFactor := by
  intro frame outer _ hCases
  obtain ⟨⟨-, hLeftLevel⟩, -, hRightLevel⟩ := hTree
  rw [hLevel] at hLeftLevel hRightLevel
  have hTerm : frame.term = none := by
    apply hCases.resolve_right
    simp [level, hLevel]
  -- What stands behind the operator binds tighter, so it is a factor.
  have hFull : right.level = 2 := by
    cases right with
    | binary inner _ _ => cases inner <;> simp [level, Operator.level] at hRightLevel
    | _ => rfl
  have hStep : ∀ state : ReaderState, state.step (.operator operator) =
      { state with frame := { state.frame with pending := operator } } := by
    intro state
    cases operator with
    | plus => simp [Operator.level] at hLevel
    | times => rfl
    | divided => rfl
  rw [lexemes, ReaderState.read_append, ReaderState.read_cons,
    hLeft frame outer hLeftLevel (.inl hTerm), hStep,
    hRight _ outer (by omega) (.inr hFull)]
  simp [Frame.receive, hTerm]

theorem readsAsArgument_plus {left right : CodeTree} (hLeft : left.ReadsAsArgument)
    (hRight : right.ReadsAsFactor) (hLevel : 1 ≤ right.level) :
    (CodeTree.binary .plus left right).ReadsAsArgument := by
  intro frame outer hFresh
  -- The plus completes what has been read, and the next factor starts a term.
  rw [lexemes, ReaderState.read_append, ReaderState.read_cons, hLeft frame outer hFresh]
  simp only [ReaderState.step, Frame.total_hold hFresh, Frame.callee_hold, Frame.arguments_hold]
  rw [hRight _ outer hLevel (.inl rfl)]
  rfl

mutual

/-- Every expression is read back from its lexemes. -/
theorem reads : (tree : CodeTree) → tree.WellFormed → tree.ReadsAsFactor ∧ tree.ReadsAsArgument
  | .word text, _ => by
    have hFactor : (CodeTree.word text).ReadsAsFactor := fun frame outer _ _ => rfl
    exact ⟨hFactor, readsAsArgument_of_level hFactor (by simp [level])⟩
  | .group inner, hTree => by
    have hFactor : (CodeTree.group inner).ReadsAsFactor := by
      intro frame outer _ _
      have hStart : (Frame.start "").Fresh := ⟨rfl, rfl⟩
      have hInner := (reads inner hTree).2 (.start "") (frame :: outer) hStart
      rw [lexemes, ReaderState.read_cons, ReaderState.read_append, ReaderState.step, hInner]
      simp only [ReaderState.read, List.foldl_cons, List.foldl_nil, ReaderState.step, Frame.close,
        Frame.callee_hold, Frame.total_hold hStart]
      rfl
    exact ⟨hFactor, readsAsArgument_of_level hFactor (by simp [level])⟩
  | .call callee arguments, hTree => by
    have hFactor : (CodeTree.call callee arguments).ReadsAsFactor := by
      intro frame outer _ _
      obtain ⟨hCallee, hNonempty, hArguments⟩ := hTree
      have hStart : (Frame.start callee).Fresh := ⟨rfl, rfl⟩
      have hInner := readsAll arguments hArguments (.start callee) (frame :: outer) hStart
      rw [lexemes, ReaderState.read_cons, ReaderState.read_append, ReaderState.step, hInner]
      simp only [ReaderState.read, List.foldl_cons, List.foldl_nil, ReaderState.step, Frame.close,
        Frame.callee_holdAll, Frame.allArguments_holdAll hStart hNonempty]
      have hName : (Frame.start callee).callee ≠ "" := hCallee.ne_empty
      rw [if_neg hName]
      rfl
    exact ⟨hFactor, readsAsArgument_of_level hFactor (by simp [level])⟩
  | .binary operator left right, hTree => by
    have hLeft := reads left hTree.1.1
    have hRight := reads right hTree.2.1
    cases operator with
    | plus =>
      -- A sum is never read as a factor.
      have hLevel : 1 ≤ right.level := hTree.2.2
      refine ⟨?_, readsAsArgument_plus hLeft.2 hRight.1 hLevel⟩
      intro frame outer hSum _
      simp [level, Operator.level] at hSum
    | times =>
      have hFactor := readsAsFactor_binary hLeft.1 hRight.1 hTree rfl
      exact ⟨hFactor, readsAsArgument_of_level hFactor (by simp [level, Operator.level])⟩
    | divided =>
      have hFactor := readsAsFactor_binary hLeft.1 hRight.1 hTree rfl
      exact ⟨hFactor, readsAsArgument_of_level hFactor (by simp [level, Operator.level])⟩

/-- The arguments of a call are read back from their lexemes. -/
theorem readsAll : (trees : List CodeTree) → AllWellFormed trees →
    (frame : Frame) → (outer : List Frame) → frame.Fresh →
    ReaderState.read ⟨frame, outer⟩ (List.intercalate [.comma] (lexemeLists trees)) =
      ⟨frame.holdAll trees, outer⟩
  | [], _, frame, outer, _ => rfl
  | [tree], hTrees, frame, outer, hFresh => by
    simp only [lexemeLists, List.intercalate_singleton]
    exact (reads tree hTrees.1).2 frame outer hFresh
  | tree :: second :: rest, hTrees, frame, outer, hFresh => by
    -- The comma completes the first argument and leaves a fresh frame.
    have hRest := readsAll (second :: rest) hTrees.2
      ⟨frame.callee, tree :: frame.arguments, none, none, .times⟩ outer ⟨rfl, rfl⟩
    simp only [lexemeLists, List.intercalate_cons_cons] at hRest ⊢
    rw [ReaderState.read_append, ReaderState.read_append,
      (reads tree hTrees.1).2 frame outer hFresh]
    simp only [ReaderState.read, List.foldl_cons, List.foldl_nil, ReaderState.step,
      Frame.total_hold hFresh, Frame.callee_hold, Frame.arguments_hold] at hRest ⊢
    exact hRest

end

/-- Every well-formed expression is read back from its text. -/
theorem parse_text {tree : CodeTree} (hTree : tree.WellFormed) : parse tree.text = tree := by
  have hLexemes := ofChars_text tree hTree [] (by intro character hHead; cases hHead)
  rw [List.append_nil, Lexeme.ofChars, Lexeme.ofWord, List.append_nil] at hLexemes
  rw [parse, hLexemes, (reads tree hTree).2 _ _ ⟨rfl, rfl⟩]
  exact Frame.total_hold ⟨rfl, rfl⟩ tree

/-- A text has at most one reading. -/
theorem text_injective {left right : CodeTree} (hLeft : left.WellFormed)
    (hRight : right.WellFormed) (hText : left.text = right.text) : left = right := by
  rw [← parse_text hLeft, hText, parse_text hRight]

end CodeTree

end FormLowering
