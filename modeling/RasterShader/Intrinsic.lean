/-!
# Intrinsic functions

Built-in functions that code generation turns into pipeline operations instead of calling a body.
-/

namespace RasterShader

/-- Intrinsic functions. -/
inductive Intrinsic where
  | abs
  | sign
  | floor
  | ceil
  | fract
  | mod
  | min
  | max
  | clamp
  | saturate
  | mix
  | step
  | smoothstep
  | sqrt
  | inversesqrt
  | pow
  | exp
  | exp2
  | log
  | log2
  | sin
  | cos
  | tan
  | asin
  | acos
  | atan
  | radians
  | degrees
  | length
  | distance
  | dot
  | cross
  | normalize
  | reflect
  | refract
  | faceforward
  | matrixCompMult
  | transpose
  | determinant
  | inverse
  | lessThan
  | lessThanEqual
  | greaterThan
  | greaterThanEqual
  | equal
  | notEqual
  | any
  | all
  | not
  | toLinearSrgb
  | fromLinearSrgb
deriving DecidableEq, Repr, Inhabited

namespace Intrinsic

/-- Every intrinsic with the name of its function. -/
def named : List (String × Intrinsic) :=
  [("abs", .abs), ("sign", .sign), ("floor", .floor), ("ceil", .ceil), ("fract", .fract),
    ("mod", .mod), ("min", .min), ("max", .max), ("clamp", .clamp), ("saturate", .saturate),
    ("mix", .mix), ("step", .step), ("smoothstep", .smoothstep), ("sqrt", .sqrt),
    ("inversesqrt", .inversesqrt), ("pow", .pow), ("exp", .exp), ("exp2", .exp2), ("log", .log),
    ("log2", .log2), ("sin", .sin), ("cos", .cos), ("tan", .tan), ("asin", .asin),
    ("acos", .acos), ("atan", .atan), ("radians", .radians), ("degrees", .degrees),
    ("length", .length), ("distance", .distance), ("dot", .dot), ("cross", .cross),
    ("normalize", .normalize), ("reflect", .reflect), ("refract", .refract),
    ("faceforward", .faceforward), ("matrixCompMult", .matrixCompMult),
    ("transpose", .transpose), ("determinant", .determinant), ("inverse", .inverse),
    ("lessThan", .lessThan), ("lessThanEqual", .lessThanEqual), ("greaterThan", .greaterThan),
    ("greaterThanEqual", .greaterThanEqual), ("equal", .equal), ("notEqual", .notEqual),
    ("any", .any), ("all", .all), ("not", .not), ("toLinearSrgb", .toLinearSrgb),
    ("fromLinearSrgb", .fromLinearSrgb)]

/-- The intrinsic with a given function name. -/
def ofName? (name : String) : Option Intrinsic := named.lookup name

/-- The result depends on the arguments only. Color space conversions are the host's. -/
def isPure : Intrinsic → Bool
  | toLinearSrgb | fromLinearSrgb => false
  | _ => true

end Intrinsic

end RasterShader
