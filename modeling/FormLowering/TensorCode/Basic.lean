import FormLowering.Sorted.Map

/-!
# The code of a tensor

A form is lowered to pieces of code, each of which contributes to one component
of the element tensor.  A piece that is known to vanish is *symbolic zero* and
is never written out: an entry is either a token or symbolic zero.
-/

namespace FormLowering

/-- A token of emitted code.  Tokens are equal when their texts are. -/
abbrev Token :=
  String

/-- A token, or `none` for symbolic zero. -/
abbrev Entry :=
  Option Token

/-- The component of the element tensor that a piece of code contributes to.
The empty key stands for a scalar. -/
abbrev Key :=
  List Nat

/-- Keys are in lexicographic order. -/
instance : LE Key :=
  List.instLE

instance : Std.IsLinearOrder Key :=
  inferInstanceAs (Std.IsLinearOrder (List Nat))

instance : Std.LawfulOrderLT Key :=
  inferInstanceAs (Std.LawfulOrderLT (List Nat))

namespace Key

/-- Puts an index in front of the first index that is not smaller. -/
def insertIndex (index : Nat) : Key → Key
  | [] => [index]
  | first :: rest =>
    if index ≤ first then index :: first :: rest else first :: insertIndex index rest

/-- The key with its indices in ascending order. -/
def sorted (key : Key) : Key :=
  key.foldr insertIndex []

/-- The written form of a key. -/
def render (key : Key) : String :=
  "(" ++ ", ".intercalate (key.map toString) ++ ")"

end Key

/-- The code of each component of a tensor.  Keys are unique and listed in
lexicographic order. -/
abbrev TensorCode :=
  SortedMap Key Entry

namespace SortedMap

variable {β : Type}

/-- The value of a map whose only key is the empty key. -/
def asScalar? (map : SortedMap Key β) : Option β :=
  match map.entries with
  | [([], value)] => some value
  | _ => none

/-- Whether there are several keys, or a single one that is not empty. -/
def isTensor (map : SortedMap Key β) : Bool :=
  match map.entries with
  | [] => false
  | [(key, _)] => !key.isEmpty
  | _ => true

end SortedMap

namespace TensorCode

/-- The tensor code with the given entry under the empty key. -/
def scalar (entry : Entry) : TensorCode :=
  .singleton [] entry

/-- The entries that are not symbolic zero. -/
def nonzero (code : TensorCode) : SortedMap Key Token :=
  code.filterMapValues id

end TensorCode

end FormLowering
