import RasterShader.Arithmetic.Operation

/-!
# Arithmetic on words

The pipeline computes on 32-bit words, which an operation reads as single-precision floats, as
signed or as unsigned integers. Truth values are all ones or zero.

A float operation with an operand that is not a number gives that operand, marked quiet; the first
one counts if both are. A result that is newly not a number is `Word.indefinite`.
-/

namespace RasterShader

namespace Word

/-- The word of a truth value. -/
def ofBool (b : Bool) : UInt32 := if b then 0xFFFFFFFF else 0

/-- The word all of whose bits are set. -/
def allOnes : UInt32 := 0xFFFFFFFF

/-- The sign of a float. -/
def signBit : UInt32 := 0x80000000

/-- The float 1. -/
def one : UInt32 := 0x3F800000

/-- The float -0, from which sums start. -/
def negativeZero : UInt32 := signBit

/-- The bits of a float without its sign. -/
def magnitude (x : UInt32) : UInt32 := x &&& 0x7FFFFFFF

/-- The word is not a number as a float. -/
def isNaN (x : UInt32) : Bool := 0x7F800000 < magnitude x

/-- The result of an invalid operation. -/
def indefinite : UInt32 := 0xFFC00000

/-- Marks a NaN as quiet. -/
def quiet (x : UInt32) : UInt32 := x ||| 0x00400000

/-- The word of a float. -/
def ofFloat32 (x : Float32) : UInt32 := if x.isNaN then indefinite else x.toBits

/-- A float function of one operand. -/
def float1 (f : Float32 → Float32) (x : UInt32) : UInt32 :=
  if isNaN x then quiet x else ofFloat32 (f (.ofBits x))

/-- A float function of two operands. -/
def float2 (f : Float32 → Float32 → Float32) (x y : UInt32) : UInt32 :=
  if isNaN x then quiet x
  else if isNaN y then quiet y
  else ofFloat32 (f (.ofBits x) (.ofBits y))

/-- Float addition. -/
def fadd : UInt32 → UInt32 → UInt32 := float2 (· + ·)
/-- Float subtraction. -/
def fsub : UInt32 → UInt32 → UInt32 := float2 (· - ·)
/-- Float multiplication. -/
def fmul : UInt32 → UInt32 → UInt32 := float2 (· * ·)
/-- Float division. -/
def fdiv : UInt32 → UInt32 → UInt32 := float2 (· / ·)
/-- Float negation. -/
def fneg (x : UInt32) : UInt32 := x ^^^ signBit
/-- Float square root. -/
def fsqrt : UInt32 → UInt32 := float1 Float32.sqrt
/-- Less, between floats. -/
def flt (x y : UInt32) : Bool := Float32.ofBits x < Float32.ofBits y
/-- Less or equal, between floats. -/
def fle (x y : UInt32) : Bool := Float32.ofBits x ≤ Float32.ofBits y
/-- Equality of floats, which zeros of either sign satisfy and a NaN never does. -/
def feq (x y : UInt32) : Bool := Float32.ofBits x == Float32.ofBits y

/-- The lesser float; of a NaN and another operand the other. -/
def fmin (x y : UInt32) : UInt32 :=
  if isNaN x then y else if isNaN y then x else if flt y x then y else x

/-- The greater float; of a NaN and another operand the other. -/
def fmax (x y : UInt32) : UInt32 :=
  if isNaN x then y else if isNaN y then x else if flt x y then y else x

/-- The sign of the float is minus, which that of a zero can be too. -/
def isNegative (x : UInt32) : Bool := x &&& signBit != 0

/-- An integer next to a float, as a float of the same sign, even if it is zero. The fraction is
dropped, or counts as one more when rounding away from zero. Floats from 2 ^ 23 on are integers. -/
def roundMagnitude (away : Bool) (x : UInt32) : UInt32 :=
  let size := magnitude x
  if size < 0x4B000000 then
    let whole := (Float32.ofBits size).toUInt32
    let whole := if away && whole.toFloat32.toBits != size then whole + 1 else whole
    whole.toFloat32.toBits ||| (x &&& signBit)
  else x

/-- The greatest integer up to a float, as a float. -/
def ffloor (x : UInt32) : UInt32 := if isNaN x then quiet x else roundMagnitude (isNegative x) x

/-- The least integer from a float on, as a float. -/
def fceil (x : UInt32) : UInt32 := if isNaN x then quiet x else roundMagnitude (!isNegative x) x

/-- Keeps a float between 0 and 1; a NaN stays as it is. -/
def saturate (x : UInt32) : UInt32 :=
  let x := if flt x 0 then 0 else x
  if flt one x then one else x

/-- The sum of the products of corresponding floats. -/
def sumOfProducts (pairs : List (UInt32 × UInt32)) : UInt32 :=
  pairs.foldl (fun sum (x, y) => fadd sum (fmul x y)) negativeZero

/-- The signed integer with the same bits. -/
def signed (x : UInt32) : Int32 := x.toInt32

/-- The word of a signed integer of any size, modulo 2 ^ 32. -/
def ofInt (n : Int) : UInt32 := (Int32.ofInt n).toUInt32

/-- The signed integer with the same bits, as an integer. -/
def toInt (x : UInt32) : Int := x.toInt32.toInt

/-- The float nearest to a signed integer. -/
def floatOfSigned (x : UInt32) : UInt32 :=
  if signed x < 0 then fneg (0 - x).toFloat32.toBits else x.toFloat32.toBits

/-- The integer part of a float, between the bounds of signed integers; NaN gives 0. -/
def signedOfFloat (x : UInt32) : UInt32 :=
  if isNaN x then 0
  else
    let size := (Float32.ofBits (magnitude x)).toUInt32
    if isNegative x then 0 - min size 0x80000000 else min size 0x7FFFFFFF

/-- The integer part of a float, between the bounds of unsigned integers; NaN gives 0. -/
def unsignedOfFloat (x : UInt32) : UInt32 := if isNaN x then 0 else (Float32.ofBits x).toUInt32

/-- Eight hexadecimal digits. -/
def hex (x : UInt32) : String :=
  let digits := (Nat.toDigits 16 x.toNat).map Char.toUpper
  String.ofList (List.replicate (8 - digits.length) '0' ++ digits)

end Word

open Word in
/-- Applies an operation to one operand. -/
def UnaryOp.eval (op : UnaryOp) (ty : NumType) (x : UInt32) : UInt32 :=
  match op with
  | .abs =>
    match ty with
    | .float => magnitude x
    | .int => if signed x < 0 then 0 - x else x
    | .uint => x
  | .floor => ffloor x
  | .ceil => fceil x
  | .sin => float1 Float32.sin x
  | .cos => float1 Float32.cos x
  | .tan => float1 Float32.tan x
  | .asin => float1 Float32.asin x
  | .acos => float1 Float32.acos x
  | .atan => float1 Float32.atan x
  | .sqrt => fsqrt x
  | .exp => float1 Float32.exp x
  | .exp2 => float1 Float32.exp2 x
  | .log => float1 Float32.log x
  | .log2 => float1 Float32.log2 x
  | .invsqrt => fdiv one (fsqrt x)
  | .bitwiseNot => ~~~x
  | .castToFloatFromInt => floatOfSigned x
  | .castToFloatFromUint => x.toFloat32.toBits
  | .castToIntFromFloat => signedOfFloat x
  | .castToUintFromFloat => unsignedOfFloat x

namespace BinaryOp

open Word

/-- Applies an operation to floats. -/
def evalFloat (op : BinaryOp) (x y : UInt32) : UInt32 :=
  match op with
  | .add => fadd x y
  | .sub => fsub x y
  | .mul => fmul x y
  | .div => fdiv x y
  | .mod => fsub x (fmul y (ffloor (fdiv x y)))
  | .min => fmin x y
  | .max => fmax x y
  | .cmpLt => ofBool (flt x y)
  | .cmpLe => ofBool (fle x y)
  | .cmpEq => ofBool (feq x y)
  | .cmpNe => ofBool !(feq x y)
  | .atan2 => float2 Float32.atan2 x y
  | .pow =>
    -- Any power of 1, and the power 0 of anything, is 1.
    if magnitude y = 0 || x = one then one else float2 Float32.pow x y
  | .bitwiseAnd | .bitwiseOr | .bitwiseXor => 0

/-- Applies an operation to signed integers. Division by zero gives 0, and so does the one division
whose result has no 32 bits. -/
def evalInt (op : BinaryOp) (x y : UInt32) : UInt32 :=
  let overflows := x = signBit && y = allOnes
  match op with
  | .add => x + y
  | .sub => x - y
  | .mul => x * y
  | .div => if overflows then 0 else (signed x / signed y).toUInt32
  | .mod => if overflows || y = 0 then 0 else (signed x % signed y).toUInt32
  | .min => if signed y < signed x then y else x
  | .max => if signed x < signed y then y else x
  | .cmpLt => ofBool (signed x < signed y)
  | .cmpLe => ofBool (signed x ≤ signed y)
  | .cmpEq => ofBool (x = y)
  | .cmpNe => ofBool (x ≠ y)
  | _ => 0

/-- Applies an operation to unsigned integers. Division by zero gives 0. -/
def evalUint (op : BinaryOp) (x y : UInt32) : UInt32 :=
  match op with
  | .add => x + y
  | .sub => x - y
  | .mul => x * y
  | .div => x / y
  | .mod => if y = 0 then 0 else x % y
  | .min => if y < x then y else x
  | .max => if x < y then y else x
  | .cmpLt => ofBool (x < y)
  | .cmpLe => ofBool (x ≤ y)
  | .cmpEq => ofBool (x = y)
  | .cmpNe => ofBool (x ≠ y)
  | _ => 0

/-- Applies an operation to two operands. -/
def eval (op : BinaryOp) (ty : NumType) (x y : UInt32) : UInt32 :=
  match op with
  | .bitwiseAnd => x &&& y
  | .bitwiseOr => x ||| y
  | .bitwiseXor => x ^^^ y
  | _ =>
    match ty with
    | .float => op.evalFloat x y
    | .int => op.evalInt x y
    | .uint => op.evalUint x y

end BinaryOp

open Word in
/-- Applies an operation to three operands. -/
def TernaryOp.eval (op : TernaryOp) (ty : NumType) (x y z : UInt32) : UInt32 :=
  match op, ty with
  | .mix, .float => fadd x (fmul (fsub y x) z)
  | .mix, _ => (z &&& y) ||| (~~~z &&& x)
  | .smoothstep, _ =>
    let t := saturate (fdiv (fsub z x) (fsub y x))
    fmul (fmul t t) (fsub 0x40400000 (fmul 0x40000000 t))

end RasterShader
