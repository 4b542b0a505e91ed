import FormLowering.Json.Basic
import FormLowering.Number.Literal

/-!
# Writing JSON text

Values are written without blanks.  Only quotes, backslashes and control
characters are escaped.  Reals are written in their shortest form, and a real
that is not finite as `null`.
-/

namespace FormLowering

namespace Json

/-- The written form of one character of a string. -/
def escapeChar (char : Char) : List Char :=
  if char = '"' then ['\\', '"']
  else if char = '\\' then ['\\', '\\']
  else if char.toNat < 0x20 then
    ['\\', 'u', '0', '0', Nat.digitChar (char.toNat / 16), Nat.digitChar (char.toNat % 16)]
  else [char]

/-- The written form of a string. -/
def quote (text : String) : String :=
  String.ofList ('"' :: text.toList.flatMap escapeChar ++ ['"'])

mutual

/-- The text of a value. -/
def write : Json → String
  | .null => "null"
  | .bool value => if value then "true" else "false"
  | .integer value => toString value
  | .real value => if value.isFinite then value.shortestText else "null"
  | .string text => quote text
  | .array elements => "[" ++ ",".intercalate (writeElements elements) ++ "]"
  | .object members => "\x7b" ++ ",".intercalate (writeMembers members) ++ "\x7d"

/-- The texts of the elements of an array. -/
def writeElements : List Json → List String
  | [] => []
  | element :: rest => write element :: writeElements rest

/-- The texts of the members of an object. -/
def writeMembers : List (String × Json) → List String
  | [] => []
  | (name, value) :: rest => (quote name ++ ":" ++ write value) :: writeMembers rest

end

end Json

end FormLowering
