import FormLowering.Number.Binary64

/-!
# JSON values

The values of the serialised form.  Integers that fit into 64 bits are kept
apart from all other numbers, which are binary64 numbers, because an index and
a real literal are different things in a form.

The accessors below are the vocabulary of the decoders: a decoder answers
`none` for a value of the wrong shape and says nothing about where.
-/

namespace FormLowering

/-- A JSON value. -/
inductive Json where
  | null
  | bool (value : Bool)
  | integer (value : Int)
  | real (value : Binary64)
  | string (value : String)
  | array (elements : List Json)
  | object (members : List (String × Json))
deriving Inhabited

namespace Json

/-- The members of an object with one more member.  A name that is already
present gets the new value. -/
def putMember (members : List (String × Json)) (name : String) (value : Json) :
    List (String × Json) :=
  members.filter (fun member => member.1 != name) ++ [(name, value)]

/-- The member of an object with the given name. -/
def member? (value : Json) (name : String) : Option Json :=
  match value with
  | .object members => members.lookup name
  | _ => none

/-- The elements of an array. -/
def elements? : Json → Option (List Json)
  | .array elements => some elements
  | _ => none

/-- The text of a string. -/
def text? : Json → Option String
  | .string text => some text
  | _ => none

/-- An integer that fits into 64 unsigned bits. -/
def nat? : Json → Option Nat
  | .integer value => if 0 ≤ value ∧ value < Int.pow 2 64 then some value.toNat else none
  | _ => none

/-- An integer that fits into 64 signed bits. -/
def int? : Json → Option Int
  | .integer value => if -Int.pow 2 63 ≤ value ∧ value < Int.pow 2 63 then some value else none
  | _ => none

/-- A number of either kind; an integer is rounded to the nearest real. -/
def real? : Json → Option Binary64
  | .integer value => some (.ofInt value)
  | .real value => some value
  | _ => none

/-- The array of natural numbers. -/
def ofNats (values : List Nat) : Json :=
  .array (values.map fun (value : Nat) => .integer value)

/-- The elements of an array of natural numbers. -/
def nats? (value : Json) : Option (List Nat) :=
  value.elements?.bind fun elements => elements.mapM nat?

/-- The fields of a record with the given field names: an object that has at
least these members, or an array of exactly as many elements. -/
def fields? (names : List String) : Json → Option (List Json)
  | .object members => names.mapM fun name => members.lookup name
  | .array elements => if elements.length = names.length then some elements else none
  | _ => none

/-- The name and the payload of a tagged value: a bare string has no payload,
and an object must have exactly one member. -/
def tagged? : Json → Option (String × Option Json)
  | .string name => some (name, none)
  | .object [(name, payload)] => some (name, some payload)
  | _ => none

/-- The name of a tagged value without payload.  The payload may be spelled
out as `null`. -/
def tag? (value : Json) : Option String :=
  match value.tagged? with
  | some (name, none) => some name
  | some (name, some .null) => some name
  | _ => none

end Json

end FormLowering
