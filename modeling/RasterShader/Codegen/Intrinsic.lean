import RasterShader.Codegen.Operand

/-!
# Code for intrinsic functions

Most intrinsics are one operation per component (`Intrinsic.unary?`, `Intrinsic.binary?`); the
others are short sequences. A scalar operand among vectors is repeated.
-/

namespace RasterShader

namespace Operand

open Gen

/-- The float 2. -/
def two : UInt32 := 0x40000000
/-- The float -1. -/
def minusOne : UInt32 := 0xBF800000
/-- The greatest float. -/
def greatest : UInt32 := 0x7F7FFFFF
/-- The float nearest to π. -/
def pi : UInt32 := 0x40490FDB
/-- The float 180. -/
def halfTurn : UInt32 := 0x43340000

/-- Replaces two vectors of `n` components on the stack by their dot product. -/
def dotTop (n : Nat) (b : Builder) : Builder :=
  if n = 1 then b.binary .mul .float 1 else b.emit (.dot n)

/-- Replaces a vector of `n` components on the stack by its length. -/
def lengthTop (n : Nat) (b : Builder) : Builder :=
  if n = 1 then b.unary .abs .float 1
  else ((b.pushClone n n).emit (.dot n)).unary .sqrt .float 1

/-- Applies an operation to one operand. -/
def unary (op : UnaryOp) (ty : NumType) (x : Operand) : GenM Unit := do
  x.push
  build (·.unary op ty x.slots)

/-- Applies an operation to `n` components of two operands. -/
def componentwise (op : BinaryOp) (ty : NumType) (x y : Operand) (n : Nat) : GenM Unit := do
  x.push
  y.pushSplatted n
  build (·.binary op ty n)

/-- Multiplies by a constant. -/
def scaled (x : Operand) (factor : UInt32) : GenM Unit := do
  x.push
  build fun b => (b.pushConstant factor x.slots).binary .mul .float x.slots

/-- The cross product: `x.yzx * y.zxy - x.zxy * y.yzx`. -/
def cross (x y : Operand) : GenM Unit := do
  let rotated (b : Builder) (distance : Nat) (components : List Nat) : Builder :=
    (b.pushClone 3 distance).swizzle 3 components
  x.push
  y.push
  build fun b =>
    let b := rotated b 6 [1, 2, 0]
    let b := rotated b 6 [2, 0, 1]
    let b := b.binary .mul .float 3
    let b := rotated b 9 [2, 0, 1]
    let b := rotated b 9 [1, 2, 0]
    let b := (b.binary .mul .float 3).binary .sub .float 3
    b.swizzle 9 [6, 7, 8]

/-- The sign of `n` components, which is -1, 0 or 1. -/
def signTop (ty : NumType) (n : Nat) (b : Builder) : Builder :=
  match ty with
  | .float =>
    -- Anything but zero leaves the range from -1 to 1.
    let b := (b.pushConstant greatest n).binary .mul ty n
    let b := (b.pushConstant minusOne n).binary .max ty n
    (b.pushConstant Word.one n).binary .min ty n
  | ty =>
    let b := (b.pushConstant Word.allOnes n).binary .max ty n
    (b.pushConstant 1 n).binary .min ty n

/-- A conversion between color spaces by the host, of a color without alpha. -/
def convertColor (call : HostCall) (color : Operand) : GenM Unit := do
  color.push
  build fun b =>
    let b := ((b.pushConstant Word.one 1).popColor .src).emit (.invoke call)
    (b.pushInput (.color .src)).discard 1

end Operand

namespace Intrinsic

/-- Intrinsics that are one operation on one operand. -/
def unary? : Intrinsic → Option UnaryOp
  | abs => some .abs
  | floor => some .floor
  | ceil => some .ceil
  | sqrt => some .sqrt
  | inversesqrt => some .invsqrt
  | exp => some .exp
  | exp2 => some .exp2
  | log => some .log
  | log2 => some .log2
  | sin => some .sin
  | cos => some .cos
  | tan => some .tan
  | asin => some .asin
  | acos => some .acos
  | atan => some .atan
  | _ => none

/-- Intrinsics that are one operation on two operands. -/
def binary? : Intrinsic → Option BinaryOp
  | atan => some .atan2
  | pow => some .pow
  | mod => some .mod
  | min => some .min
  | max => some .max
  | matrixCompMult => some .mul
  | lessThan => some .cmpLt
  | lessThanEqual => some .cmpLe
  | equal => some .cmpEq
  | notEqual => some .cmpNe
  | _ => none

open Gen Operand

/-- Pushes the value of an intrinsic with one operand, which has `n` slots. -/
def push1 (f : Intrinsic) (fail : GenM Unit) (ty : NumType) (n : Nat) (x : Operand) :
    GenM Unit := do
  match f with
  | sign =>
    x.push
    build (signTop ty n)
  | fract =>
    x.push
    build fun b => ((b.pushClone n n).unary .floor ty n).binary .sub ty n
  | saturate =>
    x.push
    build fun b =>
      let b := (b.pushZeros n).binary .max ty n
      (b.pushConstant Word.one n).binary .min ty n
  | radians => x.scaled (Word.fdiv pi halfTurn)
  | degrees => x.scaled (Word.fdiv halfTurn pi)
  | length =>
    x.push
    build (lengthTop n)
  | normalize =>
    x.push
    build fun b =>
      let b := dotTop n ((b.pushClone n n).pushClone n n)
      ((b.unary .invsqrt .float 1).pushDuplicates (n - 1)).binary .mul .float n
  | transpose =>
    x.push
    build (·.emit (.transpose ⟨x.ty.columns, x.ty.rows⟩))
  | determinant =>
    x.push
    build (·.emit (.determinant x.ty.columns))
  | inverse =>
    x.push
    build (·.emit (.inverse x.ty.columns))
  | any =>
    x.push
    build (foldBooleans .bitwiseOr n)
  | all =>
    x.push
    build (foldBooleans .bitwiseAnd n)
  | not =>
    x.push
    complement n
  | toLinearSrgb => convertColor .toLinearSrgb x
  | fromLinearSrgb => convertColor .fromLinearSrgb x
  | f =>
    match f.unary? with
    | some op => x.unary op ty
    | none => fail

/-- Pushes the value of an intrinsic with two operands, the first of which has `n` slots. -/
def push2 (f : Intrinsic) (fail : GenM Unit) (result : Ty) (ty : NumType) (n : Nat)
    (x y : Operand) : GenM Unit := do
  match f with
  | step =>
    let n := result.slotCount
    x.pushSplatted n
    y.pushSplatted n
    build fun b =>
      ((b.binary .cmpLe .float n).pushConstant Word.one n).binary .bitwiseAnd .int n
  | distance =>
    x.push
    y.push
    build fun b => lengthTop n (b.binary .sub ty n)
  | dot =>
    x.push
    y.push
    build (dotTop n)
  | cross => x.cross y
  | reflect =>
    -- I - 2 * dot(N, I) * N
    x.push
    y.push
    build fun b =>
      let b := dotTop n ((b.pushClone n (2 * n)).pushClone n (2 * n))
      let b := ((b.pushConstant two 1).binary .mul .float 1).pushDuplicates (n - 1)
      (b.binary .mul .float n).binary .sub .float n
  | greaterThan => componentwise .cmpLt ty y x n
  | greaterThanEqual => componentwise .cmpLe ty y x n
  | f =>
    match f.binary? with
    | some op => componentwise op ty x y n
    | none => fail

/-- Pushes the value of an intrinsic with three operands, the first of which has `n` slots. -/
def push3 (f : Intrinsic) (fail : GenM Unit) (result : Ty) (ty : NumType) (n : Nat)
    (x y z : Operand) : GenM Unit := do
  match f with
  | clamp =>
    x.push
    y.pushSplatted n
    build (·.binary .max ty n)
    z.pushSplatted n
    build (·.binary .min ty n)
  | mix =>
    x.push
    y.push
    z.pushSplatted n
    build (·.ternary .mix (if z.ty.isBoolean then .int else .float) n)
  | smoothstep =>
    let n := result.slotCount
    x.pushSplatted n
    y.pushSplatted n
    z.pushSplatted n
    build (·.ternary .smoothstep .float n)
  | refract =>
    if 4 < n then throw .wideRefract
    x.push
    build (·.pushZeros (4 - n))
    y.push
    build (·.pushZeros (4 - n))
    z.push
    build fun b => (b.emit .refract).discard (4 - n)
  | faceforward =>
    -- dot(reference, incident) < 0 ? normal : -normal
    x.push
    build (·.pushClone n n)
    negate x.ty n
    build (·.pushZeros 1)
    y.push
    z.push
    build fun b =>
      (((dotTop n b).binary .cmpLe .float 1).pushDuplicates (n - 1)).ternary .mix .int n
  | _ => fail

/-- Pushes the value of an intrinsic call. -/
def push (f : Intrinsic) (call : Expr) (arguments : List Operand) : GenM Unit := do
  let fail : GenM Unit := throw (.intrinsicCall call.text)
  match arguments with
  | [] => throw .noArguments
  | x :: rest =>
    let n := x.slots
    let ty ← NumType.ofTy x.ty
    match rest with
    | [] => f.push1 fail ty n x
    | [y] => f.push2 fail call.ty ty n x y
    | [y, z] => f.push3 fail call.ty ty n x y z
    | _ => fail

end Intrinsic

end RasterShader
