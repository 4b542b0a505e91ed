import FormLowering.Json.Basic

/-!
# Reading JSON text

Text is read in two passes over lists.  The first cuts it into lexemes, with
the state of the scan written out; the second consumes one lexeme at a time,
with the containers that are still open on a stack.  Both are structural folds,
so reading is total without any bound on the nesting.

In an object with a repeated name the last value counts.
-/

namespace FormLowering

namespace Json

/-- A lexeme of JSON text. -/
inductive Lexeme where
  | openArray
  | closeArray
  | openObject
  | closeObject
  | comma
  | colon
  /-- A literal, a number or a string. -/
  | value (value : Json)

/-- Whether a number literal has the shape that JSON asks for beyond that of a
decimal literal: a whole part without leading zeros, and a digit behind the
point. -/
def isNumberShape (unsigned : List Char) : Bool :=
  let whole := unsigned.takeWhile Char.isDigit
  let afterWhole := unsigned.dropWhile Char.isDigit
  !whole.isEmpty && (whole.length = 1 || whole.head? != some '0') &&
    match afterWhole with
    | '.' :: rest => (rest.head?.map Char.isDigit).getD false
    | _ => true

/-- Reads a number.  It is an integer if it is written with digits only and
fits into 64 bits; the negative zero is a real. -/
def number? (text : List Char) : Option Json := do
  let (negative, unsigned) := match text with
    | '-' :: rest => (true, rest)
    | _ => (false, text)
  if !isNumberShape unsigned then none
  let decimal ← Decimal.ofChars? unsigned
  let magnitude : Int := decimal.coefficient
  let value := if negative then -magnitude else magnitude
  if unsigned.all Char.isDigit && -Int.pow 2 63 ≤ value && value < Int.pow 2 64 &&
      !(negative && magnitude = 0) then
    return .integer value
  else
    return .real (.ofDecimal negative decimal)

/-- Reads a word that is not a string. -/
def word? (text : List Char) : Option Json :=
  if text = "null".toList then some .null
  else if text = "true".toList then some (.bool true)
  else if text = "false".toList then some (.bool false)
  else number? text

/-- The text of a list of UTF-16 units and whole code points: a high surrogate
must be followed by a low one, and the two stand for one character. -/
def joinUnits : List Nat → Option (List Char)
  | [] => some []
  | high :: low :: rest =>
    if 0xD800 ≤ high ∧ high < 0xDC00 ∧ 0xDC00 ≤ low ∧ low < 0xE000 then
      (joinUnits rest).map
        (Char.ofNat (0x10000 + (high - 0xD800) * 0x400 + (low - 0xDC00)) :: ·)
    else if 0xD800 ≤ high ∧ high < 0xE000 then none
    else (joinUnits (low :: rest)).map (Char.ofNat high :: ·)
  | [last] =>
    if 0xD800 ≤ last ∧ last < 0xE000 then none else some [Char.ofNat last]

/-- Where a scan stands within a lexeme.  Characters read so far are kept in
reverse. -/
inductive ScanState where
  /-- Between lexemes. -/
  | between
  /-- Inside a word. -/
  | word (reversed : List Char)
  /-- Inside a string. -/
  | text (reversed : List Nat)
  /-- Behind a backslash. -/
  | escape (reversed : List Nat)
  /-- Inside the four digits of an escaped unit. -/
  | unit (reversed : List Nat) (digits : Nat) (value : Nat)

/-- The lexeme of a punctuation character. -/
def punctuation? (char : Char) : Option Lexeme :=
  match char with
  | '[' => some .openArray
  | ']' => some .closeArray
  | '\x7b' => some .openObject
  | '\x7d' => some .closeObject
  | ',' => some .comma
  | ':' => some .colon
  | _ => none

/-- The character meant by a one-letter escape. -/
def escaped? (char : Char) : Option Char :=
  match char with
  | '"' => some '"'
  | '\\' => some '\\'
  | '/' => some '/'
  | 'b' => some '\x08'
  | 'f' => some '\x0c'
  | 'n' => some '\n'
  | 'r' => some '\r'
  | 't' => some '\t'
  | _ => none

/-- The value of a hexadecimal digit. -/
def hexDigit? (char : Char) : Option Nat :=
  if '0' ≤ char ∧ char ≤ '9' then some (char.toNat - '0'.toNat)
  else if 'a' ≤ char ∧ char ≤ 'f' then some (char.toNat - 'a'.toNat + 10)
  else if 'A' ≤ char ∧ char ≤ 'F' then some (char.toNat - 'A'.toNat + 10)
  else none

/-- Whether a character separates lexemes without being one. -/
def isBlank (char : Char) : Bool :=
  char = ' ' || char = '\t' || char = '\n' || char = '\r'

/-- One character of a scan that stands between lexemes. -/
def scanBetween (lexemes : List Lexeme) (char : Char) : ScanState × List Lexeme :=
  if isBlank char then (.between, lexemes)
  else if char = '"' then (.text [], lexemes)
  else match punctuation? char with
    | some lexeme => (.between, lexeme :: lexemes)
    | none => (.word [char], lexemes)

/-- One character of a scan.  Lexemes are collected in reverse. -/
def scanStep : ScanState × List Lexeme → Char → Option (ScanState × List Lexeme)
  | (.between, lexemes), char => some (scanBetween lexemes char)
  | (.word reversed, lexemes), char =>
    if isBlank char || char = '"' || (punctuation? char).isSome then
      (word? reversed.reverse).map fun word => scanBetween (.value word :: lexemes) char
    else some (.word (char :: reversed), lexemes)
  | (.text reversed, lexemes), char =>
    if char = '"' then
      (joinUnits reversed.reverse).map fun chars =>
        (.between, .value (.string (String.ofList chars)) :: lexemes)
    else if char = '\\' then some (.escape reversed, lexemes)
    else if char.toNat < 0x20 then none
    else some (.text (char.toNat :: reversed), lexemes)
  | (.escape reversed, lexemes), char =>
    if char = 'u' then some (.unit reversed 0 0, lexemes)
    else (escaped? char).map fun meant => (.text (meant.toNat :: reversed), lexemes)
  | (.unit reversed digits value, lexemes), char =>
    (hexDigit? char).map fun digit =>
      if digits = 3 then (.text ((value * 16 + digit) :: reversed), lexemes)
      else (.unit reversed (digits + 1) (value * 16 + digit), lexemes)

/-- The lexemes of a text. -/
def lexemes? (text : String) : Option (List Lexeme) := do
  let (state, lexemes) ← text.toList.foldlM scanStep (.between, [])
  match state with
  | .between => return lexemes.reverse
  | .word reversed => return ((.value (← word? reversed.reverse)) :: lexemes).reverse
  | _ => none

/-- A container that is still open. -/
inductive Frame where
  /-- An array, with its elements in reverse. -/
  | array (reversed : List Json)
  /-- An object, and the name of the member that is being read. -/
  | object (members : List (String × Json)) (name : String)

/-- What may come next, and the containers that are still open, innermost
first. -/
inductive ReadState where
  /-- A value. -/
  | value (outer : List Frame)
  /-- The first element of an array, or its end. -/
  | firstElement (outer : List Frame)
  /-- The first name of an object, or its end. -/
  | firstName (outer : List Frame)
  /-- The name of a further member. -/
  | name (members : List (String × Json)) (outer : List Frame)
  /-- The colon behind a name. -/
  | colon (members : List (String × Json)) (name : String) (outer : List Frame)
  /-- A comma behind an element, or the end of the array. -/
  | afterElement (reversed : List Json) (outer : List Frame)
  /-- A comma behind a member, or the end of the object. -/
  | afterMember (members : List (String × Json)) (outer : List Frame)
  /-- Nothing more: the value is complete. -/
  | done (value : Json)

/-- Hands a complete value to the innermost open container. -/
def complete (value : Json) : List Frame → ReadState
  | [] => .done value
  | .array reversed :: outer => .afterElement (value :: reversed) outer
  | .object members name :: outer => .afterMember (putMember members name value) outer

/-- Reads the first lexeme of a value. -/
def startValue (outer : List Frame) : Lexeme → Option ReadState
  | .value value => some (complete value outer)
  | .openArray => some (.firstElement outer)
  | .openObject => some (.firstName outer)
  | _ => none

/-- Reads one lexeme. -/
def readStep : ReadState → Lexeme → Option ReadState
  | .value outer, lexeme => startValue outer lexeme
  | .firstElement outer, .closeArray => some (complete (.array []) outer)
  | .firstElement outer, lexeme => startValue (.array [] :: outer) lexeme
  | .firstName outer, .closeObject => some (complete (.object []) outer)
  | .firstName outer, .value (.string name) => some (.colon [] name outer)
  | .name members outer, .value (.string name) => some (.colon members name outer)
  | .colon members name outer, .colon => some (.value (.object members name :: outer))
  | .afterElement reversed outer, .comma => some (.value (.array reversed :: outer))
  | .afterElement reversed outer, .closeArray => some (complete (.array reversed.reverse) outer)
  | .afterMember members outer, .comma => some (.name members outer)
  | .afterMember members outer, .closeObject => some (complete (.object members) outer)
  | _, _ => none

/-- Reads a JSON text. -/
def read? (text : String) : Option Json := do
  match ← (← lexemes? text).foldlM readStep (.value []) with
  | .done value => return value
  | _ => none

end Json

end FormLowering
