import RasterShader.Decimal.Binary

/-!
# Reading decimal numbers

`DecimalText` is an unsigned decimal numeral taken apart: its digits as one natural number and
the power of ten they are scaled by. `toBits` rounds it correctly to a binary format, and
`BinaryFormat.read?` reads numbers with a sign, the infinities and NaN.
-/

namespace RasterShader

/-- The numeral `mantissa * 10 ^ exponent`, with the number of digits of the mantissa. -/
structure DecimalText where
  mantissa : Nat
  digitCount : Nat
  exponent : Int
deriving Repr

namespace DecimalText

/-- The value of a list of decimal digits. -/
def digitsValue (digits : List Char) : Nat :=
  digits.foldl (fun n c => 10 * n + (c.toNat - '0'.toNat)) 0

/-- An optional sign and digits, at least one, with nothing after them. -/
def exponent? (cs : List Char) : Option Int :=
  let (negative, digits) :=
    match cs with
    | '-' :: rest => (true, rest)
    | '+' :: rest => (false, rest)
    | rest => (false, rest)
  if digits.isEmpty || !digits.all Char.isDigit then none
  else if negative then some (-(digitsValue digits : Int)) else some (digitsValue digits)

/-- Reads digits with an optional point and an optional exponent. At least one digit stands
before or after the point. -/
def parse? (text : List Char) : Option DecimalText := do
  let whole := text.takeWhile Char.isDigit
  let rest := text.drop whole.length
  let (fraction, rest) :=
    match rest with
    | '.' :: after => (after.takeWhile Char.isDigit, after.dropWhile Char.isDigit)
    | _ => ([], rest)
  if whole.isEmpty && fraction.isEmpty then none
  let exponent ←
    match rest with
    | [] => some 0
    | c :: after => if c = 'e' || c = 'E' then exponent? after else none
  let digits := (whole ++ fraction).dropWhile (· = '0')
  return ⟨digitsValue digits, digits.length, exponent - fraction.length⟩

/-- The nearest number of the format. Numerals far outside its range are decided by their size
alone, so that no huge power of ten is computed. -/
def toBits (fmt : BinaryFormat) (d : DecimalText) : Nat :=
  let top := d.exponent + d.digitCount
  if d.mantissa = 0 || top < -400 then 0
  else if 400 < top then fmt.infinityBits
  else
    let (num, den) := scaleByPow10 d.mantissa 1 d.exponent
    fmt.nearest num den

/-- The nearest double. -/
def toFloat (d : DecimalText) : Float := Float.ofBits (d.toBits .double).toUInt64

end DecimalText

namespace BinaryFormat

/-- Reads a number without a sign: a decimal numeral, or a word in any case. -/
def readUnsigned? (fmt : BinaryFormat) (text : List Char) : Option Nat :=
  let word := String.ofList (text.map Char.toLower)
  if word == "inf" || word == "infinity" then some fmt.infinityBits
  else if word == "nan" then some fmt.quietNaNBits
  else (DecimalText.parse? text).map (·.toBits fmt)

/-- Reads a number with an optional sign as the bits of the nearest number of the format. -/
def read? (fmt : BinaryFormat) (text : String) : Option Nat :=
  match text.toList with
  | '-' :: rest => (fmt.readUnsigned? rest).map (fmt.withSign true)
  | '+' :: rest => fmt.readUnsigned? rest
  | rest => fmt.readUnsigned? rest

end BinaryFormat

end RasterShader
