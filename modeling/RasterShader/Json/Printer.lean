import RasterShader.Json.Basic

/-!
# Writing JSON

`JsonValue.pretty` lays a value out over several lines: every item and entry has a line of its own,
indented by two blanks for each level, and an empty array or object stays on its line.
-/

namespace RasterShader

/-- The last four hexadecimal digits of a number, in lower case. -/
def hexQuad (n : Nat) : String :=
  String.ofList ([n / 4096, n / 256, n / 16, n].map fun d => Nat.digitChar (d % 16))

/-- A unit inside quotes. Quotes, backslashes and control characters are escaped, and so are halves
of surrogate pairs; all else stands for itself. -/
def JsonUnit.escaped : JsonUnit → String
  | .half code => "\\u" ++ hexQuad code
  | .char c =>
    if c = '"' then "\\\""
    else if c = '\\' then "\\\\"
    else if c = '\n' then "\\n"
    else if c = '\r' then "\\r"
    else if c = '\t' then "\\t"
    else if c.toNat = 8 then "\\b"
    else if c.toNat = 12 then "\\f"
    else if c.toNat < 32 then "\\u" ++ hexQuad c.toNat
    else c.toString

/-- A string with its quotes. -/
def JsonString.quoted (s : JsonString) : String :=
  "\"" ++ String.join (s.map JsonUnit.escaped) ++ "\""

namespace JsonValue

/-- A new line with the indentation of a level. -/
def newLine (level : Nat) : String := "\n" ++ String.ofList (List.replicate (2 * level) ' ')

/-- Parts between brackets, each on a line of its own. -/
def bracketed (left right : String) (level : Nat) (parts : List String) : String :=
  if parts.isEmpty then left ++ right
  else
    let lines := parts.map (newLine (level + 1) ++ ·)
    left ++ String.intercalate "," lines ++ newLine level ++ right

mutual

/-- The text of a value that starts at a level of indentation. -/
def prettyAt (level : Nat) : JsonValue → String
  | null => "null"
  | bool b => if b then "true" else "false"
  | integer n => toString n
  | decimal spelling => spelling
  | string s => JsonString.quoted s
  | array items => bracketed "[" "]" level (prettyItems (level + 1) items)
  | object entries => bracketed "\x7b" "\x7d" level (prettyEntries (level + 1) entries)

/-- The texts of the items of an array. -/
def prettyItems (level : Nat) : List JsonValue → List String
  | [] => []
  | item :: rest => prettyAt level item :: prettyItems level rest

/-- The texts of the entries of an object. -/
def prettyEntries (level : Nat) : List (JsonString × JsonValue) → List String
  | [] => []
  | (key, value) :: rest =>
    (JsonString.quoted key ++ ": " ++ prettyAt level value) :: prettyEntries level rest

end

/-- The text of a value, over several lines. -/
def pretty (value : JsonValue) : String := prettyAt 0 value

end JsonValue

end RasterShader
