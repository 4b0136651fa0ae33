/-!
# Binary floating-point formats

The two interchange formats in use, described by the widths of their fields. A bit pattern is
decoded into an exact number `m * 2 ^ q` (`BinaryFormat.decode`), and an exact fraction is
rounded to the nearest number of a format (`BinaryFormat.nearest`); the two together take a number
from one format to another (`BinaryFormat.convert`). Everything here is integer arithmetic, so that
decimal text can be read and written exactly.
-/

namespace RasterShader

/-- The integer quotient rounded to nearest, a half going to the even neighbour. -/
def roundHalfEven (num den : Nat) : Nat :=
  let q := num / den
  let r := num % den
  if 2 * r < den then q else if den < 2 * r then q + 1 else if q % 2 = 0 then q else q + 1

/-- Field widths of a binary floating-point format. -/
structure BinaryFormat where
  fractionBits : Nat
  exponentBits : Nat
deriving DecidableEq, Repr

namespace BinaryFormat

/-- Double precision. -/
def double : BinaryFormat := ⟨52, 11⟩

/-- Single precision. -/
def single : BinaryFormat := ⟨23, 8⟩

/-- The power of two that scales the least numbers of the format. -/
def leastExponent (fmt : BinaryFormat) : Int :=
  2 - (Nat.pow 2 (fmt.exponentBits - 1) : Nat) - fmt.fractionBits

/-- The exponent field of infinities and NaNs. -/
def specialExponent (fmt : BinaryFormat) : Nat := Nat.pow 2 fmt.exponentBits - 1

/-- Bit pattern of positive infinity. -/
def infinityBits (fmt : BinaryFormat) : Nat := fmt.specialExponent * Nat.pow 2 fmt.fractionBits

/-- Bit that holds the sign. -/
def signBit (fmt : BinaryFormat) : Nat := Nat.pow 2 (fmt.fractionBits + fmt.exponentBits)

/-- The quiet NaN with no other bit set. -/
def quietNaNBits (fmt : BinaryFormat) : Nat := fmt.infinityBits + Nat.pow 2 (fmt.fractionBits - 1)

/-- A magnitude with its sign. -/
def withSign (fmt : BinaryFormat) (negative : Bool) (magnitude : Nat) : Nat :=
  if negative then fmt.signBit + magnitude else magnitude

end BinaryFormat

/-- What a bit pattern stands for. -/
inductive BinaryValue where
  | notANumber
  | infinite (negative : Bool)
  /-- The number `significand * 2 ^ exponent`; `leastOfBinade` marks a normal number whose lower
  neighbour is only half as far away as its upper one. -/
  | finite (negative : Bool) (significand : Nat) (exponent : Int) (leastOfBinade : Bool)
deriving DecidableEq, Repr

/-- Decodes a bit pattern of the format. -/
def BinaryFormat.decode (fmt : BinaryFormat) (bits : Nat) : BinaryValue :=
  let negative := fmt.signBit ≤ bits
  let magnitude := bits % fmt.signBit
  let fraction := magnitude % Nat.pow 2 fmt.fractionBits
  let field := magnitude / Nat.pow 2 fmt.fractionBits
  if field = fmt.specialExponent then
    if fraction = 0 then .infinite negative else .notANumber
  else if field = 0 then .finite negative fraction fmt.leastExponent false
  else
    .finite negative (Nat.pow 2 fmt.fractionBits + fraction) (fmt.leastExponent + (field - 1 : Nat))
      (fraction == 0)

/-- Multiplies a fraction by a power of two. -/
def scaleByPow2 (num den : Nat) (exponent : Int) : Nat × Nat :=
  match exponent with
  | .ofNat e => (num * Nat.pow 2 e, den)
  | .negSucc e => (num, den * Nat.pow 2 (e + 1))

/-- Multiplies a fraction by a power of ten. -/
def scaleByPow10 (num den : Nat) (exponent : Int) : Nat × Nat :=
  match exponent with
  | .ofNat e => (num * Nat.pow 10 e, den)
  | .negSucc e => (num, den * Nat.pow 10 (e + 1))

/-- Bit pattern of the number of the format nearest to `num / den`, a tie going to the even
significand, and infinity past the greatest one. -/
def BinaryFormat.nearest (fmt : BinaryFormat) (num den : Nat) : Nat :=
  if num = 0 then 0
  else
    let precision := fmt.fractionBits + 1
    -- The quotient has `precision` bits above this exponent, or one more.
    let guess : Int := (num.log2 : Int) - den.log2 - precision
    let fits (q : Int) : Bool :=
      let (n, d) := scaleByPow2 num den (-q)
      n / d < Nat.pow 2 precision
    let wanted := if fits guess then guess else if fits (guess + 1) then guess + 1 else guess + 2
    let q := max wanted fmt.leastExponent
    let (n, d) := scaleByPow2 num den (-q)
    let m := roundHalfEven n d
    let (m, q) := if m = Nat.pow 2 precision then (Nat.pow 2 fmt.fractionBits, q + 1) else (m, q)
    if m < Nat.pow 2 fmt.fractionBits then m
    else
      let field := (q - fmt.leastExponent).toNat + 1
      if fmt.specialExponent ≤ field then fmt.infinityBits
      else field * Nat.pow 2 fmt.fractionBits + (m - Nat.pow 2 fmt.fractionBits)

/-- The number of the target format nearest to one of the source format, with the same sign. -/
def BinaryFormat.convert (source target : BinaryFormat) (bits : Nat) : Nat :=
  match source.decode bits with
  | .notANumber => target.quietNaNBits
  | .infinite negative => target.withSign negative target.infinityBits
  | .finite negative significand exponent _ =>
    let (num, den) := scaleByPow2 significand 1 exponent
    target.withSign negative (target.nearest num den)

end RasterShader
