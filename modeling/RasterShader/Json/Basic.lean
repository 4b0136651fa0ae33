/-!
# Values of JSON texts

A `JsonValue` keeps what a JSON text says and no more than this library asks of it: integers are
exact, other numbers keep their spelling, and the entries of an object stay in order, repeated keys
included. The strings of a text may hold halves of surrogate pairs, which form no character, so a
string is a list of units (`JsonString`) that may or may not have a text (`JsonString.text?`).

The second part reads records out of values. A record is an object with its fields by name, or an
array with its fields in order (`JsonValue.fields?`).
-/

namespace RasterShader

/-- One unit of a string: a character, or half of a surrogate pair that stands alone. -/
inductive JsonUnit where
  | char (c : Char)
  | half (code : Nat)
deriving DecidableEq, Repr, Inhabited

/-- The units of a string. -/
abbrev JsonString := List JsonUnit

namespace JsonString

/-- The units of a text. -/
def ofString (text : String) : JsonString := text.toList.map .char

/-- The characters of a string, if every unit is one. -/
def chars? : JsonString → Option (List Char)
  | [] => some []
  | .char c :: rest => (chars? rest).map (c :: ·)
  | .half _ :: _ => none

/-- The text of a string, if it has one. -/
def text? (s : JsonString) : Option String := (chars? s).map String.ofList

end JsonString

/-- A JSON value. -/
inductive JsonValue where
  | null
  | bool (value : Bool)
  /-- A number written with neither a fraction nor an exponent. -/
  | integer (value : Int)
  /-- Any other number, as it is written; minus zero is one of them. -/
  | decimal (spelling : String)
  | string (value : JsonString)
  | array (items : List JsonValue)
  | object (entries : List (JsonString × JsonValue))
deriving Repr, Inhabited

namespace JsonValue

/-- The string with a given text. -/
def ofString (text : String) : JsonValue := string (.ofString text)

/-- A natural number. -/
def ofNat (n : Nat) : JsonValue := integer n

/-- A record with the given fields. -/
def record (fields : List (String × JsonValue)) : JsonValue :=
  object (fields.map fun (name, value) => (.ofString name, value))

/-! ## Reading parts of a value -/

/-- A truth value. -/
def bool? : JsonValue → Option Bool
  | bool b => some b
  | _ => none

/-- A natural number of 64 bits. -/
def nat64? : JsonValue → Option Nat
  | integer (.ofNat n) => if n ≤ 18446744073709551615 then some n else none
  | _ => none

/-- An integer of 32 bits. -/
def int32? : JsonValue → Option Int
  | integer n => if -2147483648 ≤ n && n ≤ 2147483647 then some n else none
  | _ => none

/-- A text. -/
def text? : JsonValue → Option String
  | string s => s.text?
  | _ => none

/-- What stands for one of the given names: the name itself, or an object with the name as its only
key and null as its value. -/
def named? {α : Type} (names : List (String × α)) : JsonValue → Option α
  | string s => s.text?.bind fun name => names.lookup name
  | object [(key, null)] => key.text?.bind fun name => names.lookup name
  | _ => none

/-- The items of an array, each read the same way. -/
def list? {α : Type} (item? : JsonValue → Option α) : JsonValue → Option (List α)
  | array items => items.mapM item?
  | _ => none

/-- The fields of a record, in the order of `names`, `none` where a field is left out.

In an object any field may be left out, other keys are skipped, and no field is given twice. In an
array no field may be left out, or, where `mayEndEarly` is set, only the last ones. -/
def fields? (names : List String) (mayEndEarly : Bool) :
    JsonValue → Option (List (Option JsonValue))
  | object entries => do
    let entries ← entries.mapM fun (key, value) => key.text?.map (·, value)
    if names.any fun name => 1 < entries.countP (·.1 == name) then none
    return names.map fun name => entries.lookup name
  | array items =>
    if items.length = names.length || (mayEndEarly && items.length < names.length) then
      some ((List.range names.length).map (items[·]?))
    else none
  | _ => none

end JsonValue

end RasterShader
