/-!
# Arithmetic operations

The operations that the pipeline applies to every component of its operands, each together with
the way the words are read (`NumType`).
-/

namespace RasterShader

/-- How an operation reads its operands. -/
inductive NumType where
  | float
  | int
  | uint
deriving DecidableEq, Repr, Inhabited

/-- The name of a number type. -/
def NumType.name : NumType → String
  | float => "float"
  | int => "int"
  | uint => "uint"

/-- Operations on one operand. -/
inductive UnaryOp where
  | abs
  | floor
  | ceil
  | sin
  | cos
  | tan
  | asin
  | acos
  | atan
  | sqrt
  | exp
  | exp2
  | log
  | log2
  | invsqrt
  | bitwiseNot
  | castToFloatFromInt
  | castToFloatFromUint
  | castToIntFromFloat
  | castToUintFromFloat
deriving DecidableEq, Repr, Inhabited

namespace UnaryOp

/-- Every operation on one operand. -/
def all : List UnaryOp :=
  [abs, floor, ceil, sin, cos, tan, asin, acos, atan, sqrt, exp, exp2, log, log2, invsqrt,
    bitwiseNot, castToFloatFromInt, castToFloatFromUint, castToIntFromFloat, castToUintFromFloat]

/-- The name of an operation in stage names. -/
def name : UnaryOp → String
  | abs => "abs"
  | floor => "floor"
  | ceil => "ceil"
  | sin => "sin"
  | cos => "cos"
  | tan => "tan"
  | asin => "asin"
  | acos => "acos"
  | atan => "atan"
  | sqrt => "sqrt"
  | exp => "exp"
  | exp2 => "exp2"
  | log => "log"
  | log2 => "log2"
  | invsqrt => "invsqrt"
  | bitwiseNot => "bitwise_not"
  | castToFloatFromInt | castToFloatFromUint => "cast_to_float_from"
  | castToIntFromFloat => "cast_to_int_from"
  | castToUintFromFloat => "cast_to_uint_from"

/-- The number type in the stage name of an operation: casts and bit operations name the type of
their operand, whatever type they are given. -/
def typeName (op : UnaryOp) (ty : NumType) : String :=
  match op with
  | castToFloatFromInt | bitwiseNot => "int"
  | castToFloatFromUint => "uint"
  | castToIntFromFloat | castToUintFromFloat => "float"
  | _ => ty.name

end UnaryOp

/-- Operations on two operands. -/
inductive BinaryOp where
  | add
  | sub
  | mul
  | div
  | mod
  | min
  | max
  | cmpLt
  | cmpLe
  | cmpEq
  | cmpNe
  | bitwiseAnd
  | bitwiseOr
  | bitwiseXor
  | atan2
  | pow
deriving DecidableEq, Repr, Inhabited

namespace BinaryOp

/-- Every operation on two operands. -/
def all : List BinaryOp :=
  [add, sub, mul, div, mod, min, max, cmpLt, cmpLe, cmpEq, cmpNe, bitwiseAnd, bitwiseOr,
    bitwiseXor, atan2, pow]

/-- The name of an operation in stage names. -/
def name : BinaryOp → String
  | add => "add"
  | sub => "sub"
  | mul => "mul"
  | div => "div"
  | mod => "mod"
  | min => "min"
  | max => "max"
  | cmpLt => "cmplt"
  | cmpLe => "cmple"
  | cmpEq => "cmpeq"
  | cmpNe => "cmpne"
  | bitwiseAnd => "bitwise_and"
  | bitwiseOr => "bitwise_or"
  | bitwiseXor => "bitwise_xor"
  | atan2 => "atan2"
  | pow => "pow"

/-- The order of the operands does not matter for a constant operand to be moved to the right. -/
def isCommutative : BinaryOp → Bool
  | add | mul | cmpEq | cmpNe | bitwiseAnd | bitwiseXor => true
  | _ => false

/-- The result has the same bits for signed and unsigned operands. -/
def ignoresSign : BinaryOp → Bool
  | add | sub | mul | cmpEq | cmpNe | bitwiseAnd | bitwiseOr | bitwiseXor => true
  | _ => false

/-- The number type an operation runs with: `int` for `uint` when the sign makes no difference. -/
def canonicalType (op : BinaryOp) (ty : NumType) : NumType :=
  if op.ignoresSign && ty == .uint then .int else ty

/-- The operation can take its right operand as an immediate. -/
def hasImmediateForm (op : BinaryOp) (ty : NumType) : Bool :=
  match op with
  | add | sub | mul | min | max | cmpLt | cmpLe => true
  | cmpEq | cmpNe => ty != .uint
  | bitwiseAnd | bitwiseXor => ty == .int
  | _ => false

end BinaryOp

/-- Operations on three operands. -/
inductive TernaryOp where
  /-- For floats a linear blend, otherwise a selection of bits by the third operand. -/
  | mix
  | smoothstep
deriving DecidableEq, Repr, Inhabited

namespace TernaryOp

/-- Every operation on three operands. -/
def all : List TernaryOp := [mix, smoothstep]

/-- The name of an operation in stage names. -/
def name : TernaryOp → String
  | mix => "mix"
  | smoothstep => "smoothstep"

end TernaryOp

end RasterShader
