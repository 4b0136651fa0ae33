import RasterShader.Decimal.Shortest

/-!
# Seven significant digits

How listings write single-precision numbers: rounded to seven significant digits without trailing
zeros, with an exponent where the first digit is below the fifth or above the seventh place.
-/

namespace RasterShader

namespace Decimal

/-- Digits after the first in a listing. -/
def generalPlaces : Nat := 6

/-- The exponents of numbers that are written without one. -/
def generalPositional (exponent : Int) : Bool := -5 ≤ exponent && exponent < 7

/-- A positive fraction with seven significant digits. -/
def general (num den : Nat) : String :=
  let top := magnitude num den
  if generalPositional top then
    let (whole, fraction) := fixed num den ((generalPlaces : Int) - top).toNat
    let fraction := dropTrailingZeros fraction
    String.ofList (whole ++ ['.'] ++ if fraction.isEmpty then ['0'] else fraction)
  else
    let (digits, exponent) := significant num den generalPlaces
    scientific ⟨dropTrailingZeros digits, exponent⟩

end Decimal

/-- The finite single-precision number with the given bits, with seven significant digits. -/
def generalText? (bits : UInt32) : Option String :=
  match BinaryFormat.single.decode bits.toNat with
  | .finite negative m q _ =>
    let sign := if negative then "-" else ""
    if m = 0 then some (sign ++ "0.0")
    else
      let (num, den) := scaleByPow2 m 1 q
      some (sign ++ Decimal.general num den)
  | .infinite _ | .notANumber => none

end RasterShader
