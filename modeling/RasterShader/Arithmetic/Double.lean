import RasterShader.Decimal.Binary

/-!
# Doubles as slot values

A double holds the value of a slot of a constant: a single-precision float, a 32-bit integer or a
truth value, all of them exactly. This module has the ways between doubles, single-precision floats
and integers. Rounding goes to the nearest float, a tie to the even significand, and an integer part
is found by dropping the fraction.
-/

namespace RasterShader

namespace Double

/-- The word of the nearest single-precision float. -/
def singleBits (x : Float) : UInt32 :=
  (BinaryFormat.convert .double .single x.toBits.toNat).toUInt32

/-- The double that a single-precision float stands for. -/
def ofSingleBits (bits : UInt32) : Float :=
  Float.ofBits (BinaryFormat.convert .single .double bits.toNat).toUInt64

/-- A double rounded to single precision. -/
def toSingle (x : Float) : Float := ofSingleBits (singleBits x)

/-- The integer part, between the bounds of 64-bit integers; NaN has none and gives 0. -/
def truncated (x : Float) : Int :=
  let size : Int := x.abs.toUInt64.toNat
  if x < 0.0 then max (-9223372036854775808) (-size) else min 9223372036854775807 size

/-- The integer part as a double, with the sign of the double even if it is zero. Doubles from
2 ^ 52 on are integers. -/
def integerPart (x : Float) : Float :=
  if x.abs < 4503599627370496.0 then
    let whole := x.abs.toUInt64.toFloat
    if x.toBits < 0x8000000000000000 then whole else -whole
  else x

end Double

end RasterShader
