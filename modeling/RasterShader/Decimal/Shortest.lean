import RasterShader.Decimal.Binary

/-!
# Decimal text of binary numbers

A positive binary number is written with the fewest decimal digits that read back as the same
number (`shortest`), or with a given number of digits, correctly rounded (`significant`,
`fixed`). Both give a `Decimal`, the digits with the power of ten of the first of them; a
`NumberStyle` then lays them out as text.
-/

namespace RasterShader

/-- A positive decimal number `d₀.d₁d₂… * 10 ^ exponent`, with no zero at either end. -/
structure Decimal where
  digits : List Char
  exponent : Int
deriving DecidableEq, Repr

namespace Decimal

/-- The digits of a natural number. -/
def digitsOf (n : Nat) : List Char := Nat.toDigits 10 n

/-- A list without the zeros at its end. -/
def dropTrailingZeros (digits : List Char) : List Char :=
  (digits.reverse.dropWhile (· = '0')).reverse

/-- The decimal `n * 10 ^ scale` for a positive `n`. -/
def ofScaled (n : Nat) (scale : Int) : Decimal :=
  let digits := digitsOf n
  ⟨dropTrailingZeros digits, scale + (digits.length - 1 : Nat)⟩

/-- The power of ten at or just below a positive fraction. -/
def magnitude (num den : Nat) : Int :=
  if den ≤ num then ((digitsOf (num / den)).length - 1 : Nat)
  else
    let length := (digitsOf (den / num)).length
    if den ≤ num * Nat.pow 10 (length - 1) then -((length - 1 : Nat) : Int) else -(length : Int)

/-- Searches the grids with `count`, `count + 1`, … digits for one with a point between `lo` and
`hi`, which are quarter units around `4 * m`, the ends included for an even `m`. Of the two
neighbours of the number on that grid the nearer is taken, and the upper one on a tie. -/
def shortestFrom (m lo hi : Nat) (exponent top : Int) : (fuel count : Nat) → Decimal
  | 0, _ => ⟨['0'], 0⟩
  | fuel + 1, count =>
    let scale := top + 1 - count
    let (a, b) := scaleByPow2 1 1 (exponent - 2)
    let (a, b) := scaleByPow10 a b (-scale)
    let value := 4 * m * a
    let down := value / b
    let up := down + 1
    let inside (n : Nat) : Bool :=
      if m % 2 = 0 then lo * a ≤ n * b && n * b ≤ hi * a else lo * a < n * b && n * b < hi * a
    let exact := value % b = 0
    let downFits := exact || inside down
    let upFits := !exact && inside up
    if downFits && upFits then
      if 2 * (value % b) < b then ofScaled down scale else ofScaled up scale
    else if downFits && down ≠ 0 then ofScaled down scale
    else if upFits then ofScaled up scale
    else shortestFrom m lo hi exponent top fuel (count + 1)

/-- The fewest digits that read back as `m * 2 ^ exponent`. Seventeen digits always do. -/
def shortest (m : Nat) (exponent : Int) (leastOfBinade : Bool) : Decimal :=
  let lo := if leastOfBinade then 4 * m - 1 else 4 * m - 2
  let (num, den) := scaleByPow2 m 1 exponent
  shortestFrom m lo (4 * m + 2) exponent (magnitude num den) 20 1

/-- The digits of `num / den` before and after the point, rounded to `places` after it. -/
def fixed (num den places : Nat) : List Char × List Char :=
  let digits := digitsOf (roundHalfEven (num * Nat.pow 10 places) den)
  let padded := List.replicate (places + 1 - digits.length) '0' ++ digits
  (padded.take (padded.length - places), padded.drop (padded.length - places))

/-- The digits of the positive fraction `num / den`, rounded to `places` after the first, with
the power of ten of the first. -/
def significant (num den places : Nat) : List Char × Int :=
  let top := magnitude num den
  let (n, d) := scaleByPow10 num den ((places : Int) - top)
  let rounded := roundHalfEven n d
  if rounded = Nat.pow 10 (places + 1) then (digitsOf (Nat.pow 10 places), top + 1)
  else (digitsOf rounded, top)

/-- The number written without an exponent. -/
def positional (d : Decimal) : String :=
  match d.exponent with
  | .ofNat e =>
    let whole := d.digits.take (e + 1)
    let padding := List.replicate (e + 1 - whole.length) '0'
    let fraction := d.digits.drop (e + 1)
    let point := if fraction.isEmpty then [] else ['.']
    String.ofList (whole ++ padding ++ point ++ fraction)
  | .negSucc e => String.ofList (['0', '.'] ++ List.replicate e '0' ++ d.digits)

/-- The number written with one digit before the point and an exponent of ten. -/
def scientific (d : Decimal) : String :=
  let fraction := d.digits.drop 1
  let point := if fraction.isEmpty then [] else ['.']
  String.ofList (d.digits.take 1 ++ point ++ fraction) ++ s!"e{d.exponent}"

end Decimal

/-- How numbers are laid out as text: the exponents of the first digit that are written
positionally, and whether a whole number is given a point. -/
structure NumberStyle where
  positional : Int → Bool
  pointAlways : Bool

namespace NumberStyle

/-- Values in diagnostics and program text: a point or an exponent always shows, and exponents
from -4 up to 15 are written out. -/
def literal : NumberStyle := ⟨fun e => -4 ≤ e && e < 16, true⟩

/-- Colors printed by the command line: never an exponent, and whole numbers without a point. -/
def plain : NumberStyle := ⟨fun _ => true, false⟩

/-- Lays out a decoded number. -/
def write (style : NumberStyle) (value : BinaryValue) : String :=
  let sign (negative : Bool) := if negative then "-" else ""
  match value with
  | .notANumber => "NaN"
  | .infinite negative => sign negative ++ "inf"
  | .finite negative m q least =>
    if m = 0 then sign negative ++ (if style.pointAlways then "0.0" else "0")
    else
      let d := Decimal.shortest m q least
      let text :=
        if style.positional d.exponent then
          let text := d.positional
          if style.pointAlways && !text.contains '.' then text ++ ".0" else text
        else d.scientific
      sign negative ++ text

end NumberStyle

/-- A double in the style of literals. -/
def literalText (x : Float) : String :=
  NumberStyle.literal.write (BinaryFormat.double.decode x.toBits.toNat)

/-- The single-precision number with the given bits, in plain style. -/
def plainText (bits : UInt32) : String :=
  NumberStyle.plain.write (BinaryFormat.single.decode bits.toNat)

end RasterShader
