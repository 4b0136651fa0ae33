import RasterShader.Decimal.Reader
import RasterShader.Json.Basic

/-!
# Reading JSON

A text is cut into tokens (`JsonToken`), and a value is read from the tokens by descent
(`JsonValue.ofTokens?`). The grammar is the strict one: no comments, no comma before a closing
bracket, no zero before another digit, no control character inside a string, and nothing but blanks
after the value.
-/

namespace RasterShader

/-- A token of a JSON text. -/
inductive JsonToken where
  /-- A bracket, a colon or a comma. -/
  | mark (c : Char)
  /-- A value that is a token by itself. -/
  | atom (value : JsonValue)
deriving Repr, Inhabited

/-! ## Strings -/

/-- The value of a hexadecimal digit. -/
def hexDigit? (c : Char) : Option Nat :=
  if c.isDigit then some (c.toNat - '0'.toNat)
  else if 'a' ≤ c && c ≤ 'f' then some (c.toNat - 'a'.toNat + 10)
  else if 'A' ≤ c && c ≤ 'F' then some (c.toNat - 'A'.toNat + 10)
  else none

/-- The number that four hexadecimal digits stand for. -/
def hexQuad? (a b c d : Char) : Option Nat := do
  return 4096 * (← hexDigit? a) + 256 * (← hexDigit? b) + 16 * (← hexDigit? c) + (← hexDigit? d)

namespace JsonUnit

/-- The unit of a 16-bit code. -/
def ofCode (code : Nat) : JsonUnit :=
  if 0xD800 ≤ code && code < 0xE000 then half code else char (Char.ofNat code)

/-- The character that a letter after a backslash stands for. -/
def ofEscape? : Char → Option JsonUnit
  | '"' => some (char '"')
  | '\\' => some (char '\\')
  | '/' => some (char '/')
  | 'b' => some (char (Char.ofNat 8))
  | 'f' => some (char (Char.ofNat 12))
  | 'n' => some (char '\n')
  | 'r' => some (char '\r')
  | 't' => some (char '\t')
  | _ => none

end JsonUnit

namespace JsonString

/-- A unit put before a string. A first half of a pair joins with a second half. -/
def join : JsonUnit → JsonString → JsonString
  | .half high, .half low :: rest =>
    if high < 0xDC00 && 0xDC00 ≤ low then
      .char (Char.ofNat (0x10000 + (high - 0xD800) * 1024 + (low - 0xDC00))) :: rest
    else .half high :: .half low :: rest
  | unit, rest => unit :: rest

/-- Reads the rest of a string up to its closing quote, and gives what follows it. -/
def read? : List Char → Option (JsonString × List Char)
  | [] => none
  | '"' :: rest => some ([], rest)
  | '\\' :: 'u' :: a :: b :: c :: d :: rest => do
    let code ← hexQuad? a b c d
    let (s, rest) ← read? rest
    return (join (.ofCode code) s, rest)
  | '\\' :: letter :: rest => do
    let unit ← JsonUnit.ofEscape? letter
    let (s, rest) ← read? rest
    return (unit :: s, rest)
  | c :: rest =>
    if c.toNat < 32 || c = '\\' then none
    else (read? rest).map fun (s, rest) => (.char c :: s, rest)

end JsonString

/-! ## Numbers -/

/-- Characters that may stand in a number. -/
def isNumberChar (c : Char) : Bool :=
  c.isDigit || c = '-' || c = '+' || c = '.' || c = 'e' || c = 'E'

/-- The fraction and exponent of a number are absent, or have at least one digit each. -/
def isNumberTail (cs : List Char) : Bool :=
  let exponent (cs : List Char) : Bool :=
    match cs with
    | [] => true
    | c :: rest => (c = 'e' || c = 'E') && (DecimalText.exponent? rest).isSome
  match cs with
  | '.' :: rest => (rest.takeWhile Char.isDigit) ≠ [] && exponent (rest.dropWhile Char.isDigit)
  | rest => exponent rest

/-- The number with a given spelling. -/
def JsonValue.ofNumber? (spelling : List Char) : Option JsonValue :=
  let negative := spelling.head? = some '-'
  let cs := if negative then spelling.drop 1 else spelling
  let whole := cs.takeWhile Char.isDigit
  let tail := cs.dropWhile Char.isDigit
  let wholeOk := whole = ['0'] || (whole ≠ [] && whole.head? ≠ some '0')
  if !wholeOk || !isNumberTail tail then none
  else if tail ≠ [] || (negative && whole = ['0']) then some (.decimal (String.ofList spelling))
  else
    let n : Int := DecimalText.digitsValue whole
    some (.integer (if negative then -n else n))

/-! ## Tokens -/

namespace JsonToken

/-- Blanks between tokens. -/
def isBlank (c : Char) : Bool := c = ' ' || c = '\n' || c = '\r' || c = '\t'

/-- Brackets and separators. -/
def isMark (c : Char) : Bool :=
  c = '[' || c = ']' || c = '\x7b' || c = '\x7d' || c = ':' || c = ','

/-- The words that are values. -/
def ofWord? (word : String) : Option JsonToken :=
  match word with
  | "null" => some (atom .null)
  | "true" => some (atom (.bool true))
  | "false" => some (atom (.bool false))
  | _ => none

/-- The token at the start of a text that starts with no blank, and what follows it. -/
def next? (c : Char) (rest : List Char) : Option (JsonToken × List Char) :=
  if isMark c then some (mark c, rest)
  else if c = '"' then (JsonString.read? rest).map fun (s, rest) => (atom (.string s), rest)
  else if c = '-' || c.isDigit then
    let spelling := c :: rest.takeWhile isNumberChar
    (JsonValue.ofNumber? spelling).map fun v => (atom v, rest.dropWhile isNumberChar)
  else
    let word := String.ofList (c :: rest.takeWhile Char.isAlpha)
    (ofWord? word).map (·, rest.dropWhile Char.isAlpha)

/-- The tokens of a text. Every token takes at least one character, so the length of the text is
enough fuel. -/
def readFrom? : (fuel : Nat) → List Char → Option (List JsonToken)
  | _, [] => some []
  | 0, _ :: _ => none
  | fuel + 1, c :: rest =>
    if isBlank c then readFrom? fuel rest
    else do
      let (token, rest) ← next? c rest
      return token :: (← readFrom? fuel rest)

/-- The tokens of a text. -/
def read? (text : String) : Option (List JsonToken) :=
  let cs := text.toList
  readFrom? cs.length cs

end JsonToken

/-! ## Values -/

namespace JsonValue

mutual

/-- Reads a value from the start of a list of tokens, and gives the tokens after it. -/
def ofTokens? : (fuel : Nat) → List JsonToken → Option (JsonValue × List JsonToken)
  | 0, _ => none
  | fuel + 1, tokens =>
    match tokens with
    | .atom value :: rest => some (value, rest)
    | .mark '[' :: .mark ']' :: rest => some (array [], rest)
    | .mark '[' :: rest => do
      let (items, rest) ← itemsOfTokens? fuel rest
      return (array items, rest)
    | .mark '\x7b' :: .mark '\x7d' :: rest => some (object [], rest)
    | .mark '\x7b' :: rest => do
      let (entries, rest) ← entriesOfTokens? fuel rest
      return (object entries, rest)
    | _ => none

/-- Reads items, at least one, up to the closing bracket. -/
def itemsOfTokens? : (fuel : Nat) → List JsonToken → Option (List JsonValue × List JsonToken)
  | 0, _ => none
  | fuel + 1, tokens => do
    let (item, rest) ← ofTokens? fuel tokens
    match rest with
    | .mark ']' :: rest => return ([item], rest)
    | .mark ',' :: rest =>
      let (items, rest) ← itemsOfTokens? fuel rest
      return (item :: items, rest)
    | _ => none

/-- Reads entries, at least one, up to the closing brace. -/
def entriesOfTokens? : (fuel : Nat) → List JsonToken →
    Option (List (JsonString × JsonValue) × List JsonToken)
  | 0, _ => none
  | fuel + 1, tokens =>
    match tokens with
    | .atom (.string key) :: .mark ':' :: rest => do
      let (value, rest) ← ofTokens? fuel rest
      match rest with
      | .mark '\x7d' :: rest => return ([(key, value)], rest)
      | .mark ',' :: rest =>
        let (entries, rest) ← entriesOfTokens? fuel rest
        return ((key, value) :: entries, rest)
      | _ => none
    | _ => none

end

/-- Reads a text that holds one value and nothing else. Every call takes a token or is followed by
one that does, so twice the number of tokens is enough fuel. -/
def read? (text : String) : Option JsonValue := do
  let tokens ← JsonToken.read? text
  match ← ofTokens? (2 * tokens.length + 1) tokens with
  | (value, []) => some value
  | _ => none

end JsonValue

end RasterShader
